import TransferFabric.Core.Integrity
import TransferFabric.Foundation.Framing

/-!
The frame codec of the chunk transport: a 64-byte little-endian header, then
the payload. The encoder writes every field at its layout offset; the decoder
keeps what it was fed in a buffer and takes at most one frame off its head per
call.

The round trip is stated for every cut of the encoded stream into segments.
What the decoder says about payload checksums is stated separately: a stored
checksum of zero switches the check off.
-/

namespace TransferFabric

open Framing

inductive FrameType where
  | hello | helloAck | transferReq | chunk | chunkAck | commit | commitAck | error | bye
  deriving DecidableEq, Repr

def FrameType.code : FrameType → UInt8
  | .hello => 1 | .helloAck => 2 | .transferReq => 3 | .chunk => 4 | .chunkAck => 5
  | .commit => 6 | .commitAck => 7 | .error => 8 | .bye => 9

namespace Protocol

def kMagic : UInt32 := 0x54465200
def kVersion : UInt16 := 1
def kMaxPayload : Nat := 16 * 1024 * 1024

end Protocol

namespace FrameLayout

def kHeaderSize : Nat := 64
def kMagicOff : Nat := 0
def kVersionOff : Nat := 4
def kTypeOff : Nat := 6
def kFlagsOff : Nat := 7
def kPayloadLenOff : Nat := 8
def kTransferIdOff : Nat := 12
def kChunkIdOff : Nat := 28
def kOffsetOff : Nat := 36
def kLengthOff : Nat := 44
def kCrcOff : Nat := 52

end FrameLayout

open FrameLayout

structure FrameHeader where
  magic : UInt32 := 0x54465200
  version : UInt16 := 1
  type : UInt8 := 0
  flags : UInt8 := 0
  payloadLength : UInt32 := 0
  transferId : TransferId := {}
  chunkId : UInt64 := 0
  offset : UInt64 := 0
  length : UInt64 := 0
  payloadCrc32c : UInt32 := 0
  deriving DecidableEq, Repr

structure DecodedFrame where
  header : FrameHeader
  payload : List Byte
  deriving DecidableEq, Repr

def put16 (v : UInt16) : List Byte := toLE 2 v.toNat
def put32 (v : UInt32) : List Byte := toLE 4 v.toNat
def put64 (v : UInt64) : List Byte := toLE 8 v.toNat

def get8 (p : List Byte) (off : Nat) : UInt8 := p.getD off 0
def get16 (p : List Byte) (off : Nat) : UInt16 := UInt16.ofNat (ofLE ((p.drop off).take 2))
def get32 (p : List Byte) (off : Nat) : UInt32 := UInt32.ofNat (ofLE ((p.drop off).take 4))
def get64 (p : List Byte) (off : Nat) : UInt64 := UInt64.ofNat (ofLE ((p.drop off).take 8))

/-- Overwrite the bytes of `p` from `off` on. -/
def poke (off : Nat) (bs p : List Byte) : List Byte :=
  p.take off ++ bs ++ p.drop (off + bs.length)

namespace FrameEncoder

/-- The header writes of `encode`, in their order, into a zeroed header. -/
def encodeHeader (h : FrameHeader) (payloadLen : Nat) (crc : UInt32) : List Byte :=
  let p := List.replicate kHeaderSize 0
  let p := poke kMagicOff (put32 Protocol.kMagic) p
  let p := poke kVersionOff (put16 Protocol.kVersion) p
  let p := poke kTypeOff [h.type] p
  let p := poke kFlagsOff [h.flags] p
  let p := poke kPayloadLenOff (put32 (UInt32.ofNat payloadLen)) p
  let p := poke kTransferIdOff (put64 h.transferId.hi) p
  let p := poke (kTransferIdOff + 8) (put64 h.transferId.lo) p
  let p := poke kChunkIdOff (put64 h.chunkId) p
  let p := poke kOffsetOff (put64 h.offset) p
  let p := poke kLengthOff (put64 h.length) p
  poke kCrcOff (put32 crc) p

/-- A null payload pointer is `none`; otherwise the bytes it points at, of which
the first `payloadLen` are taken. The output buffer is left alone on an error. -/
def encode (h : FrameHeader) (payload : Option (List Byte)) (payloadLen : Nat)
    (out : List Byte) : Error × List Byte :=
  if payloadLen > Protocol.kMaxPayload then
    ({ category := .invalidRequest, message := "frame payload exceeds max" }, out)
  else
    match payload with
    | some data =>
        if payloadLen ≠ 0 then
          ({}, encodeHeader h payloadLen (Crc32c.compute (data.take payloadLen)) ++
            data.take payloadLen)
        else ({}, encodeHeader h payloadLen 0)
    | none => ({}, encodeHeader h payloadLen 0 ++ List.replicate payloadLen 0)

end FrameEncoder

structure FrameDecoder where
  buf : List Byte := []
  deriving DecidableEq, Repr

namespace FrameDecoder

/-- The header fields `feed` reads once a whole frame is buffered. -/
def headerAt (p : List Byte) : FrameHeader where
  magic := get32 p kMagicOff
  version := get16 p kVersionOff
  type := get8 p kTypeOff
  flags := get8 p kFlagsOff
  payloadLength := get32 p kPayloadLenOff
  transferId := { hi := get64 p kTransferIdOff, lo := get64 p (kTransferIdOff + 8) }
  chunkId := get64 p kChunkIdOff
  offset := get64 p kOffsetOff
  length := get64 p kLengthOff
  payloadCrc32c := get32 p kCrcOff

def payloadAt (p : List Byte) : List Byte :=
  (p.drop kHeaderSize).take (get32 p kPayloadLenOff).toNat

/-- The checks and the extraction of `feed`, on the buffered bytes. -/
def scan (p : List Byte) : Scan Byte DecodedFrame Error :=
  if p.length < kHeaderSize then .wait
  else if get32 p kMagicOff ≠ Protocol.kMagic then
    .bad { category := .invalidRequest, message := "bad frame magic" }
  else if get16 p kVersionOff ≠ Protocol.kVersion then
    .bad { category := .invalidRequest, message := "bad frame version" }
  else if (get32 p kPayloadLenOff).toNat > Protocol.kMaxPayload then
    .bad { category := .invalidRequest, message := "frame payload too large" }
  else if p.length < kHeaderSize + (get32 p kPayloadLenOff).toNat then .wait
  else if get32 p kPayloadLenOff ≠ 0 ∧ get32 p kCrcOff ≠ 0 ∧
      Crc32c.compute (payloadAt p) ≠ get32 p kCrcOff then
    .bad { category := .integrityFailure, message := "frame payload CRC mismatch" }
  else
    .frame { header := headerAt p, payload := payloadAt p }
      (p.drop (kHeaderSize + (get32 p kPayloadLenOff).toNat))

/-- The caller's error is overwritten on a rejection and left alone otherwise. -/
def feed (d : FrameDecoder) (data : List Byte) (err : Error) :
    Option DecodedFrame × Error × FrameDecoder :=
  match scan (d.buf ++ data) with
  | .wait => (none, err, { buf := d.buf ++ data })
  | .bad e => (none, e, { buf := d.buf ++ data })
  | .frame f rest => (some f, err, { buf := rest })

end FrameDecoder

/-! Fields at fixed offsets. -/

section Fields

variable {p : List Byte} (t : List Byte)

private theorem take_drop_append {off n : Nat} (h : off + n ≤ p.length) :
    ((p ++ t).drop off).take n = (p.drop off).take n := by
  rw [List.drop_append_of_le_length (by omega),
    List.take_append_of_le_length (by rw [List.length_drop]; omega)]

theorem get8_append {off : Nat} (h : off < p.length) : get8 (p ++ t) off = get8 p off := by
  rw [get8, List.getD_eq_getElem?_getD, List.getElem?_append_left h, ← List.getD_eq_getElem?_getD,
    get8]

theorem get16_append {off : Nat} (h : off + 2 ≤ p.length) :
    get16 (p ++ t) off = get16 p off := by
  rw [get16, take_drop_append t h, get16]

theorem get32_append {off : Nat} (h : off + 4 ≤ p.length) :
    get32 (p ++ t) off = get32 p off := by
  rw [get32, take_drop_append t h, get32]

theorem get64_append {off : Nat} (h : off + 8 ≤ p.length) :
    get64 (p ++ t) off = get64 p off := by
  rw [get64, take_drop_append t h, get64]

end Fields

namespace FrameDecoder

/-- A whole, well-formed frame heads the buffer. -/
structure Whole (p : List Byte) : Prop where
  header : kHeaderSize ≤ p.length
  magic : get32 p kMagicOff = Protocol.kMagic
  version : get16 p kVersionOff = Protocol.kVersion
  fits : (get32 p kPayloadLenOff).toNat ≤ Protocol.kMaxPayload
  complete : kHeaderSize + (get32 p kPayloadLenOff).toNat ≤ p.length

/-- The three ways a buffer is read. -/
inductive Scanned (p : List Byte) : Scan Byte DecodedFrame Error → Prop where
  | short : ¬ Whole p → Scanned p .wait
  | malformed (e : Error) : ¬ Whole p → e.category = .invalidRequest → Scanned p (.bad e)
  | mismatch : Whole p → get32 p kPayloadLenOff ≠ 0 → get32 p kCrcOff ≠ 0 →
      Crc32c.compute (payloadAt p) ≠ get32 p kCrcOff →
      Scanned p (.bad { category := .integrityFailure, message := "frame payload CRC mismatch" })
  | frame : Whole p →
      (get32 p kPayloadLenOff ≠ 0 → get32 p kCrcOff = 0 ∨
        Crc32c.compute (payloadAt p) = get32 p kCrcOff) →
      Scanned p (.frame { header := headerAt p, payload := payloadAt p }
        (p.drop (kHeaderSize + (get32 p kPayloadLenOff).toNat)))

theorem scanned (p : List Byte) : Scanned p (scan p) := by
  unfold scan
  split
  · rename_i hshort
    exact .short fun h => absurd h.header (Nat.not_le.mpr hshort)
  rename_i hshort
  split
  · rename_i hmagic
    exact .malformed _ (fun h => hmagic h.magic) rfl
  rename_i hmagic
  split
  · rename_i hversion
    exact .malformed _ (fun h => hversion h.version) rfl
  rename_i hversion
  split
  · rename_i hbig
    exact .malformed _ (fun h => absurd h.fits (Nat.not_le.mpr hbig)) rfl
  rename_i hbig
  split
  · rename_i hpart
    exact .short fun h => absurd h.complete (Nat.not_le.mpr hpart)
  rename_i hpart
  have hwhole : Whole p :=
    ⟨Nat.le_of_not_lt hshort, not_not.mp hmagic, not_not.mp hversion, Nat.le_of_not_lt hbig,
      Nat.le_of_not_lt hpart⟩
  split
  · rename_i hbad
    exact .mismatch hwhole hbad.1 hbad.2.1 hbad.2.2
  · rename_i hgood
    refine .frame hwhole fun hne => ?_
    by_contra hcheck
    exact hgood ⟨hne, fun hz => hcheck (.inl hz), fun hs => hcheck (.inr hs)⟩

theorem Whole.payload_ne_nil {p : List Byte} (h : Whole p) :
    payloadAt p ≠ [] ↔ get32 p kPayloadLenOff ≠ 0 := by
  have hlen : (payloadAt p).length = (get32 p kPayloadLenOff).toNat := by
    rw [payloadAt, List.length_take, List.length_drop]
    have := h.complete
    omega
  rw [Ne, ← List.length_eq_zero_iff, hlen, Ne, ← UInt32.toNat_inj]
  rfl

section Append

variable {p : List Byte} (t : List Byte)

theorem headerAt_append (h : kHeaderSize ≤ p.length) : headerAt (p ++ t) = headerAt p := by
  have hlen : 64 ≤ p.length := h
  unfold headerAt
  simp only [kMagicOff, kVersionOff, kTypeOff, kFlagsOff, kPayloadLenOff, kTransferIdOff,
    kChunkIdOff, kOffsetOff, kLengthOff, kCrcOff]
  rw [get32_append t (by omega), get16_append t (by omega), get8_append t (by omega),
    get8_append t (by omega), get32_append t (by omega), get64_append t (by omega),
    get64_append t (by omega), get64_append t (by omega), get64_append t (by omega),
    get64_append t (by omega), get32_append t (by omega)]

theorem payloadAt_append
    (h : kHeaderSize + (get32 p kPayloadLenOff).toNat ≤ p.length) :
    payloadAt (p ++ t) = payloadAt p := by
  have hlen : 64 + (get32 p kPayloadLenOff).toNat ≤ p.length := h
  rw [payloadAt, get32_append t (by simp only [kPayloadLenOff]; omega), take_drop_append t h,
    payloadAt]

/-- Bytes fed later change nothing but a wait. -/
theorem scan_append (h : scan p ≠ .wait) :
    scan (p ++ t) = match scan p with
      | .frame f rest => .frame f (rest ++ t)
      | .bad e => .bad e
      | .wait => .wait := by
  by_cases hshort : p.length < kHeaderSize
  · exact absurd (if_pos hshort) h
  have hlen : 64 ≤ p.length := Nat.le_of_not_lt hshort
  have hshort' : ¬ (p ++ t).length < kHeaderSize := by
    rw [List.length_append]
    exact fun hlt => hshort (by omega)
  have hmagic : get32 (p ++ t) kMagicOff = get32 p kMagicOff :=
    get32_append t (by simp only [kMagicOff]; omega)
  have hversion : get16 (p ++ t) kVersionOff = get16 p kVersionOff :=
    get16_append t (by simp only [kVersionOff]; omega)
  have hpl : get32 (p ++ t) kPayloadLenOff = get32 p kPayloadLenOff :=
    get32_append t (by simp only [kPayloadLenOff]; omega)
  have hcrc : get32 (p ++ t) kCrcOff = get32 p kCrcOff :=
    get32_append t (by simp only [kCrcOff]; omega)
  unfold scan at h ⊢
  simp only [hmagic, hversion, hpl, hcrc, if_neg hshort, if_neg hshort'] at h ⊢
  by_cases hm : get32 p kMagicOff ≠ Protocol.kMagic
  · simp only [if_pos hm]
  simp only [if_neg hm] at h ⊢
  by_cases hv : get16 p kVersionOff ≠ Protocol.kVersion
  · simp only [if_pos hv]
  simp only [if_neg hv] at h ⊢
  by_cases hbig : (get32 p kPayloadLenOff).toNat > Protocol.kMaxPayload
  · simp only [if_pos hbig]
  simp only [if_neg hbig] at h ⊢
  by_cases hpart : p.length < kHeaderSize + (get32 p kPayloadLenOff).toNat
  · exact absurd (if_pos hpart) h
  have hpart' : ¬ (p ++ t).length < kHeaderSize + (get32 p kPayloadLenOff).toNat := by
    rw [List.length_append]
    omega
  have hwhole := Nat.le_of_not_lt hpart
  simp only [if_neg hpart, if_neg hpart', headerAt_append t (Nat.le_of_not_lt hshort),
    payloadAt_append t hwhole, List.drop_append_of_le_length hwhole]
  split <;> rfl

end Append

theorem scan_shrinks {p rest : List Byte} {f : DecodedFrame} (h : scan p = .frame f rest) :
    rest.length < p.length := by
  unfold scan at h
  split at h
  · cases h
  rename_i hshort
  repeat' split at h
  all_goals cases h
  rw [List.length_drop]
  simp only [kHeaderSize] at hshort ⊢
  omega

theorem Whole.of_append {t rest : List Byte} (h : Whole (t ++ rest))
    (hlen : kHeaderSize + (get32 (t ++ rest) kPayloadLenOff).toNat ≤ t.length) : Whole t := by
  have hsize : 64 ≤ t.length := Nat.le_trans (Nat.le_add_right kHeaderSize _) hlen
  have hpl : get32 (t ++ rest) kPayloadLenOff = get32 t kPayloadLenOff :=
    get32_append rest (by simp only [kPayloadLenOff]; omega)
  rw [hpl] at hlen
  refine ⟨hsize, ?_, ?_, ?_, hlen⟩
  · rw [← get32_append rest (by simp only [kMagicOff]; omega)]
    exact h.magic
  · rw [← get16_append rest (by simp only [kVersionOff]; omega)]
    exact h.version
  · rw [← hpl]
    exact h.fits

/-- A frame is recognised by its own bytes. -/
theorem scan_exact {p rest : List Byte} {f : DecodedFrame} (h : scan p = .frame f rest) :
    ∃ t, p = t ++ rest ∧ scan t = .frame f [] := by
  have hs := scanned p
  rw [h] at hs
  cases hs with
  | frame hwhole _ =>
      have hsplit := List.take_append_drop (kHeaderSize + (get32 p kPayloadLenOff).toNat) p
      have hlen := List.length_take_of_le hwhole.complete
      generalize p.take (kHeaderSize + (get32 p kPayloadLenOff).toNat) = t at hsplit hlen
      refine ⟨t, hsplit.symm, ?_⟩
      generalize p.drop (kHeaderSize + (get32 p kPayloadLenOff).toNat) = rest at h hsplit
      subst hsplit
      have hready : scan t ≠ .wait := by
        intro hwait
        have hshort := scanned t
        rw [hwait] at hshort
        cases hshort with
        | short hno => exact hno (hwhole.of_append (Nat.le_of_eq hlen.symm))
      have happ := scan_append rest hready
      rw [h] at happ
      cases ht : scan t with
      | wait => exact absurd ht hready
      | bad e =>
          rw [ht] at happ
          cases happ
      | frame g r =>
          rw [ht] at happ
          injection happ with hf hr
          rw [hf, List.self_eq_append_left.mp hr]

theorem scan_bad {p : List Byte} {e : Error} (h : scan p = .bad e) : e.ok = false := by
  have hs := scanned p
  rw [h] at hs
  cases hs with
  | malformed _ _ hcat =>
      rw [Error.ok, hcat]
      rfl
  | mismatch => rfl

def scanner : Scanner Byte DecodedFrame Error where
  scan := scan
  shrinks := scan_shrinks
  frame_append t h := by rw [scan_append t (by rw [h]; exact fun h => by cases h), h]
  bad_append t h := by rw [scan_append t (by rw [h]; exact fun h => by cases h), h]

end FrameDecoder

/-! Reading back what the encoder wrote. -/

@[simp] theorem length_put16 (v : UInt16) : (put16 v).length = 2 := length_toLE _ _
@[simp] theorem length_put32 (v : UInt32) : (put32 v).length = 4 := length_toLE _ _
@[simp] theorem length_put64 (v : UInt64) : (put64 v).length = 8 := length_toLE _ _

section ReadBack

variable {pre : List Byte} {off : Nat} (h : pre.length = off)
include h

theorem poke_zeros (bs : List Byte) (k : Nat) :
    poke off bs (pre ++ List.replicate k 0) =
      (pre ++ bs) ++ List.replicate (k - bs.length) 0 := by
  rw [poke, ← h, List.take_left, List.drop_append, List.drop_replicate,
    List.drop_of_length_le (by omega), List.nil_append, Nat.add_sub_cancel_left]

theorem get8_last (v : UInt8) : get8 (pre ++ [v]) off = v := by
  rw [get8, ← h, List.getD_eq_getElem?_getD, List.getElem?_concat_length]
  rfl

theorem get16_last (v : UInt16) : get16 (pre ++ put16 v) off = v := by
  rw [get16, ← h, List.drop_left, List.take_of_length_le (by simp), put16,
    ofLE_toLE_of_lt v.toNat_lt, UInt16.ofNat_toNat]

theorem get32_last (v : UInt32) : get32 (pre ++ put32 v) off = v := by
  rw [get32, ← h, List.drop_left, List.take_of_length_le (by simp), put32,
    ofLE_toLE_of_lt v.toNat_lt, UInt32.ofNat_toNat]

theorem get64_last (v : UInt64) : get64 (pre ++ put64 v) off = v := by
  rw [get64, ← h, List.drop_left, List.take_of_length_le (by simp), put64,
    ofLE_toLE_of_lt v.toNat_lt, UInt64.ofNat_toNat]

end ReadBack

namespace FrameEncoder

variable (h : FrameHeader) (n : Nat) (crc : UInt32) (rest : List Byte)

/-- The writes follow the layout without a gap up to the reserved bytes. -/
theorem encodeHeader_eq :
    encodeHeader h n crc =
      [] ++ put32 Protocol.kMagic ++ put16 Protocol.kVersion ++ [h.type] ++ [h.flags] ++
        put32 (UInt32.ofNat n) ++ put64 h.transferId.hi ++ put64 h.transferId.lo ++
        put64 h.chunkId ++ put64 h.offset ++ put64 h.length ++ put32 crc ++
        List.replicate 8 0 := by
  unfold encodeHeader
  rw [show List.replicate kHeaderSize (0 : Byte) = [] ++ List.replicate kHeaderSize 0 from rfl]
  dsimp only
  rw [poke_zeros (by rfl), poke_zeros (by simp; rfl), poke_zeros (by simp; rfl),
    poke_zeros (by simp; rfl), poke_zeros (by simp; rfl), poke_zeros (by simp; rfl),
    poke_zeros (by simp; rfl), poke_zeros (by simp; rfl), poke_zeros (by simp; rfl),
    poke_zeros (by simp; rfl), poke_zeros (by simp; rfl)]
  simp [kHeaderSize]

theorem length_encodeHeader : (encodeHeader h n crc).length = kHeaderSize := by
  rw [encodeHeader_eq]
  simp [kHeaderSize]

/-- Every field is read back from where it was written. -/
theorem headerAt_encodeHeader :
    FrameDecoder.headerAt (encodeHeader h n crc) =
      { h with magic := Protocol.kMagic, version := Protocol.kVersion
               payloadLength := UInt32.ofNat n, payloadCrc32c := crc } := by
  unfold FrameDecoder.headerAt
  rw [encodeHeader_eq]
  simp only [kMagicOff, kVersionOff, kTypeOff, kFlagsOff, kPayloadLenOff, kTransferIdOff,
    kChunkIdOff, kOffsetOff, kLengthOff, kCrcOff]
  simp (disch := simp) only [get8_append, get16_append, get32_append, get64_append, get8_last,
    get16_last, get32_last, get64_last]

end FrameEncoder

namespace FrameDecoder

/-- What the decoder finds where an encoded header and as many payload bytes as it
announces stand in front. -/
structure Holds (h : FrameHeader) (n : Nat) (crc : UInt32) (payload rest p : List Byte) :
    Prop where
  whole : Whole p
  header : headerAt p = { h with
    magic := Protocol.kMagic, version := Protocol.kVersion
    payloadLength := UInt32.ofNat n, payloadCrc32c := crc }
  length : (get32 p kPayloadLenOff).toNat = n
  payload : payloadAt p = payload
  rest : p.drop (kHeaderSize + n) = rest

theorem Holds.crc_eq {h : FrameHeader} {n : Nat} {crc : UInt32} {payload rest p : List Byte}
    (hp : Holds h n crc payload rest p) : get32 p kCrcOff = crc :=
  congrArg FrameHeader.payloadCrc32c hp.header

theorem holds_encoded (h : FrameHeader) {n : Nat} (crc : UInt32) {payload : List Byte}
    (rest : List Byte) (hfits : n ≤ Protocol.kMaxPayload) (hlen : payload.length = n) :
    Holds h n crc payload rest (FrameEncoder.encodeHeader h n crc ++ payload ++ rest) := by
  have hsize := FrameEncoder.length_encodeHeader h n crc
  generalize hp : FrameEncoder.encodeHeader h n crc ++ payload ++ rest = p
  have hhead : headerAt p = { h with
      magic := Protocol.kMagic, version := Protocol.kVersion
      payloadLength := UInt32.ofNat n, payloadCrc32c := crc } := by
    rw [← hp, List.append_assoc, headerAt_append _ (Nat.le_of_eq hsize.symm),
      FrameEncoder.headerAt_encodeHeader]
  have hn : (UInt32.ofNat n).toNat = n := by
    rw [UInt32.toNat_ofNat']
    simp only [Protocol.kMaxPayload] at hfits
    exact Nat.mod_eq_of_lt (by omega)
  have hpl : (get32 p kPayloadLenOff).toNat = n := by
    have hfield : get32 p kPayloadLenOff = UInt32.ofNat n :=
      congrArg FrameHeader.payloadLength hhead
    rw [hfield, hn]
  have hfront : (FrameEncoder.encodeHeader h n crc ++ payload).length = kHeaderSize + n := by
    rw [List.length_append, hsize, hlen]
  have hwhole : kHeaderSize + n ≤ p.length := by
    rw [← hp, List.length_append, hfront]
    omega
  refine ⟨⟨by omega, congrArg FrameHeader.magic hhead, congrArg FrameHeader.version hhead,
    by omega, by omega⟩, hhead, hpl, ?_, ?_⟩
  · rw [payloadAt, hpl, ← hp, List.append_assoc, List.drop_left' hsize, List.take_left' hlen]
  · rw [← hp, List.drop_left' hfront]

end FrameDecoder

/-- One call of the encoder that its caller may make: a payload within the limit,
behind a pointer that is not null unless the payload is empty. -/
structure Outgoing where
  header : FrameHeader
  data : Option (List Byte)
  len : Nat
  fits : len ≤ Protocol.kMaxPayload
  readable : len ≠ 0 → ∃ bs, data = some bs ∧ len ≤ bs.length

namespace Outgoing

theorem readable_none : 0 ≠ 0 → ∃ bs : List Byte, none = some bs ∧ 0 ≤ bs.length :=
  absurd rfl

variable (m : Outgoing)

def payload : List Byte := (m.data.getD []).take m.len

def crc : UInt32 := if m.len = 0 then 0 else Crc32c.compute m.payload

/-- What the encoder leaves in an output buffer, whatever that held. -/
def wire : List Byte := (FrameEncoder.encode m.header m.data m.len []).2

/-- The frame the receiver should see. -/
def frame : DecodedFrame where
  header := { m.header with
    magic := Protocol.kMagic, version := Protocol.kVersion
    payloadLength := UInt32.ofNat m.len, payloadCrc32c := m.crc }
  payload := m.payload

theorem length_payload : m.payload.length = m.len := by
  unfold payload
  rw [List.length_take]
  by_cases hlen : m.len = 0
  · omega
  · obtain ⟨bs, hbs, hle⟩ := m.readable hlen
    rw [hbs, Option.getD_some]
    omega

theorem encode_eq (out : List Byte) :
    FrameEncoder.encode m.header m.data m.len out =
      ({}, FrameEncoder.encodeHeader m.header m.len m.crc ++ m.payload) := by
  unfold FrameEncoder.encode
  rw [if_neg (Nat.not_lt.mpr m.fits)]
  by_cases hlen : m.len = 0
  · have hnil : m.payload = [] := List.length_eq_zero_iff.mp (m.length_payload.trans hlen)
    cases m.data <;> simp [hlen, hnil, crc]
  · obtain ⟨bs, hbs, hle⟩ := m.readable hlen
    simp [hbs, hlen, crc, payload]

theorem wire_eq : m.wire = FrameEncoder.encodeHeader m.header m.len m.crc ++ m.payload := by
  rw [wire, m.encode_eq]

theorem holds_wire (rest : List Byte) :
    FrameDecoder.Holds m.header m.len m.crc m.payload rest (m.wire ++ rest) := by
  rw [m.wire_eq]
  exact FrameDecoder.holds_encoded m.header m.crc rest m.fits m.length_payload

/-- An encoded frame at the head of a buffer is taken off whole. -/
theorem scan_wire (rest : List Byte) :
    FrameDecoder.scan (m.wire ++ rest) = .frame m.frame rest := by
  have hw := m.holds_wire rest
  have hs := FrameDecoder.scanned (m.wire ++ rest)
  generalize FrameDecoder.scan (m.wire ++ rest) = out at hs
  cases hs with
  | short h => exact absurd hw.whole h
  | malformed e h _ => exact absurd hw.whole h
  | mismatch _ hne _ hdiff =>
      -- the stored checksum is the payload's own, so a check that is made passes
      have hlen : m.len ≠ 0 := by
        intro hzero
        rw [Ne, ← UInt32.toNat_inj, hw.length] at hne
        exact hne hzero
      rw [hw.crc_eq, hw.payload, crc, if_neg hlen] at hdiff
      exact absurd rfl hdiff
  | frame _ _ => rw [hw.header, hw.payload, hw.length, hw.rest]; rfl

end Outgoing

namespace FrameDecoder

section Feed

variable {d : FrameDecoder} {data : List Byte} (err : Error)

theorem feed_frame {f : DecodedFrame} {rest : List Byte}
    (h : scan (d.buf ++ data) = .frame f rest) :
    d.feed data err = (some f, err, { buf := rest }) := by
  rw [feed, h]

theorem feed_wait (h : scan (d.buf ++ data) = .wait) :
    d.feed data err = (none, err, { buf := d.buf ++ data }) := by
  rw [feed, h]

theorem feed_bad {e : Error} (h : scan (d.buf ++ data) = .bad e) :
    d.feed data err = (none, e, { buf := d.buf ++ data }) := by
  rw [feed, h]

theorem feed_shrinks {f : DecodedFrame} {err' : Error} {d' : FrameDecoder}
    (h : d.feed [] err = (some f, err', d')) : d'.buf.length < d.buf.length := by
  cases hs : scan (d.buf ++ []) with
  | frame f rest =>
      rw [feed_frame err hs] at h
      cases h
      simpa using scan_shrinks hs
  | wait => rw [feed_wait err hs] at h; cases h
  | bad e => rw [feed_bad err hs] at h; cases h

end Feed

/-- `feed` with no data until it returns nothing. -/
def drain (d : FrameDecoder) (err : Error) : List DecodedFrame × Error × FrameDecoder :=
  match h : d.feed [] err with
  | (some f, err, d') =>
      have := feed_shrinks _ h
      (f :: (d'.drain err).1, (d'.drain err).2)
  | (none, err, d') => ([], err, d')
termination_by d.buf.length

/-- Each segment is fed and what it completed is drained before the next one. -/
def feedAll : FrameDecoder → List (List Byte) → Error → List DecodedFrame × Error × FrameDecoder
  | d, [], err => ([], err, d)
  | d, seg :: segs, err =>
      let fed := d.feed seg err
      let drained := fed.2.2.drain fed.2.1
      let later := drained.2.2.feedAll segs drained.2.1
      (fed.1.toList ++ drained.1 ++ later.1, later.2)

/-- The frames of a stream as the decoder reports them: the caller's error stands
unless the stream was rejected. -/
def report (err : Error) (out : List DecodedFrame × Option Error × List Byte) :
    List DecodedFrame × Error × FrameDecoder :=
  (out.1, out.2.1.getD err, { buf := out.2.2 })

theorem drain_some {d d' : FrameDecoder} {err err' : Error} {f : DecodedFrame}
    (h : d.feed [] err = (some f, err', d')) :
    d.drain err = (f :: (d'.drain err').1, (d'.drain err').2) := by
  rw [drain]
  split <;> simp_all

theorem drain_none {d d' : FrameDecoder} {err err' : Error}
    (h : d.feed [] err = (none, err', d')) : d.drain err = ([], err', d') := by
  rw [drain]
  split <;> simp_all

theorem drain_eq (d : FrameDecoder) (err : Error) :
    d.drain err = report err (scanner.drain d.buf) := by
  induction hn : d.buf.length using Nat.strongRecOn generalizing d with
  | ind n ih =>
      have hnil : d.buf ++ [] = d.buf := List.append_nil _
      cases hs : scan d.buf with
      | frame f rest =>
          have hrest := ih rest.length (hn ▸ scan_shrinks hs) { buf := rest } rfl
          rw [drain_some (feed_frame err (hnil.symm ▸ hs)), hrest,
            Scanner.drain_frame (show scanner.scan d.buf = _ from hs)]
          rfl
      | wait =>
          rw [drain_none (feed_wait err (hnil.symm ▸ hs)), hnil,
            Scanner.drain_wait (show scanner.scan d.buf = _ from hs)]
          rfl
      | bad e =>
          rw [drain_none (feed_bad err (hnil.symm ▸ hs)), hnil,
            Scanner.drain_bad (show scanner.scan d.buf = _ from hs)]
          rfl

/-- Feeding a segment and draining is cutting the buffer with the segment at its
end. -/
theorem feed_drain_eq (d : FrameDecoder) (seg : List Byte) (err : Error) :
    ((d.feed seg err).1.toList ++ ((d.feed seg err).2.2.drain (d.feed seg err).2.1).1,
        ((d.feed seg err).2.2.drain (d.feed seg err).2.1).2) =
      report err (scanner.drain (d.buf ++ seg)) := by
  cases hs : scan (d.buf ++ seg) with
  | frame f rest =>
      rw [feed_frame err hs, drain_eq,
        Scanner.drain_frame (show scanner.scan (d.buf ++ seg) = _ from hs)]
      rfl
  | wait =>
      rw [feed_wait err hs, drain_eq]
      rfl
  | bad e =>
      rw [feed_bad err hs, drain_eq,
        Scanner.drain_bad (show scanner.scan (d.buf ++ seg) = _ from hs)]
      rfl

/-- What is delivered, reported and left over does not depend on the segments,
only on the bytes. -/
theorem feedAll_eq (segs : List (List Byte)) (d : FrameDecoder) (err : Error)
    (h : d.drain err = ([], err, d)) :
    d.feedAll segs err = report err (scanner.drain (d.buf ++ segs.flatten)) := by
  induction segs generalizing d err with
  | nil => rw [feedAll, ← h, drain_eq, List.flatten_nil, List.append_nil]
  | cons seg segs ih =>
      have hfed := feed_drain_eq d seg err
      simp only [feedAll]
      generalize d.feed seg err = fed at hfed ⊢
      generalize fed.2.2.drain fed.2.1 = drained at hfed ⊢
      obtain ⟨hframes, hrest⟩ := Prod.mk.inj hfed
      have hlater : drained.2.2.drain drained.2.1 = ([], drained.2.1, drained.2.2) := by
        rw [drain_eq, hrest]
        simp only [report, Scanner.drain_rest]
        cases (scanner.drain (d.buf ++ seg)).2.1 <;> rfl
      -- an error reported for this segment is the one the whole stream is rejected with
      have herr : ∀ t, (scanner.drain ((scanner.drain (d.buf ++ seg)).2.2 ++ t)).2.1.getD
            ((scanner.drain (d.buf ++ seg)).2.1.getD err) =
          (scanner.drain ((scanner.drain (d.buf ++ seg)).2.2 ++ t)).2.1.getD err := by
        intro t
        cases he : (scanner.drain (d.buf ++ seg)).2.1 with
        | none => rfl
        | some e => rw [Scanner.drain_rejected he t]; rfl
      rw [ih drained.2.2 drained.2.1 hlater, hframes, hrest, List.flatten_cons,
        ← List.append_assoc, Scanner.drain_append (d.buf ++ seg)]
      simp only [report, herr]

theorem feedAll_encoded (ms : List Outgoing) (segs : List (List Byte))
    (hcut : segs.flatten = (ms.map Outgoing.wire).flatten) :
    ({} : FrameDecoder).feedAll segs {} = (ms.map Outgoing.frame, {}, {}) ∧
      ∀ m ∈ ms, (∀ out, FrameEncoder.encode m.header m.data m.len out = ({}, m.wire)) ∧
        m.frame.header.payloadLength.toNat = m.payload.length := by
  have hwait : scan [] = .wait := rfl
  constructor
  · have hstart : ({} : FrameDecoder).drain {} = ([], {}, {}) := drain_none (feed_wait _ hwait)
    have hframes := Scanner.drain_encoded (σ := scanner) Outgoing.scan_wire hwait ms
    rw [feedAll_eq segs {} {} hstart, List.nil_append, hcut, hframes]
    rfl
  · intro m _
    refine ⟨fun out => ?_, ?_⟩
    · rw [m.encode_eq, m.wire_eq]
    · have hlen : (m.frame.header.payloadLength).toNat = m.len := by
        have hw := m.holds_wire []
        rw [← hw.length]
        exact congrArg (fun h => h.payloadLength.toNat) hw.header.symm
      rw [hlen, m.length_payload]

/-- A hello and a chunk of two bytes. -/
def helloThenChunk : List Outgoing :=
  [{ header := { type := FrameType.hello.code }, data := none, len := 0
     fits := by decide, readable := Outgoing.readable_none },
   { header := { type := FrameType.chunk.code, transferId := { hi := 1, lo := 2 }, offset := 40,
                 length := 2 }
     data := some [8, 9], len := 2, fits := by decide, readable := fun _ => ⟨[8, 9], rfl, by decide⟩ }]

/-- Cut inside the first header and inside the payload. -/
def threePieces : List (List Byte) :=
  let stream := (helloThenChunk.map Outgoing.wire).flatten
  [stream.take 10, (stream.drop 10).take 119, stream.drop 129]

theorem feedAll_three_pieces :
    ({} : FrameDecoder).feedAll threePieces {} = (helloThenChunk.map Outgoing.frame, {}, {}) :=
  (feedAll_encoded helloThenChunk threePieces (by decide +kernel)).1

/-- One call of `feed` in a run: the bytes it finds buffered, its own data
included, and what it answers. -/
structure FeedCall where
  buffered : List Byte
  delivered : Option DecodedFrame
  reported : Error

def feeds : FrameDecoder → List (List Byte) → List FeedCall
  | _, [] => []
  | d, data :: calls =>
      let fed := d.feed data {}
      { buffered := d.buf ++ data, delivered := fed.1, reported := fed.2.1 } ::
        fed.2.2.feeds calls

/-- The checksum field holds the value for which no check is made, and it is not
the checksum of the payload. -/
structure Unchecked (p : List Byte) : Prop where
  whole : Whole p
  nonempty : get32 p kPayloadLenOff ≠ 0
  zero : get32 p kCrcOff = 0
  differs : Crc32c.compute (payloadAt p) ≠ 0

/-- What the decoder owes its caller about one delivered frame. -/
def Sealed (f : DecodedFrame) : Prop :=
  f.payload ≠ [] → f.header.payloadCrc32c = Crc32c.compute f.payload

theorem feed_sealed_iff (d : FrameDecoder) (data : List Byte) (err : Error) :
    (∀ f ∈ (d.feed data err).1, Sealed f) ↔ ¬ Unchecked (d.buf ++ data) := by
  have hs := scanned (d.buf ++ data)
  generalize ho : scan (d.buf ++ data) = out at hs
  cases hs with
  | short hw =>
      rw [feed_wait err ho]
      exact ⟨fun _ h => hw h.whole, fun _ f hf => by cases hf⟩
  | malformed e hw _ =>
      rw [feed_bad err ho]
      exact ⟨fun _ h => hw h.whole, fun _ f hf => by cases hf⟩
  | mismatch hw _ hne _ =>
      rw [feed_bad err ho]
      exact ⟨fun _ h => hne h.zero, fun _ f hf => by cases hf⟩
  | frame hw hcheck =>
      rw [feed_frame err ho]
      constructor
      · intro h hu
        have hcrc := h _ rfl (hw.payload_ne_nil.mpr hu.nonempty)
        exact hu.differs (hcrc.symm.trans hu.zero)
      · intro hu f hf hne
        cases hf
        have hlen := hw.payload_ne_nil.mp hne
        rcases hcheck hlen with hz | hs
        · by_contra hdiff
          exact hu ⟨hw, hlen, hz, fun h => hdiff (hz.trans h.symm)⟩
        · exact hs.symm

/-- A frame of the encoder whose payload and checksum field were replaced. -/
def tampered (m : Outgoing) (payload : List Byte) (crc : UInt32) : List Byte :=
  FrameEncoder.encodeHeader m.header m.len crc ++ payload

theorem feed_tampered (m : Outgoing) (payload : List Byte) (crc : UInt32)
    (hlen : payload.length = m.len) (hne : payload ≠ []) (hcrc : Crc32c.compute payload ≠ crc) :
    ((({} : FrameDecoder).feed (tampered m payload crc) {}).1 = none ∧
      (({} : FrameDecoder).feed (tampered m payload crc) {}).2.1.category = .integrityFailure) ↔
      crc ≠ 0 := by
  have hw : Holds m.header m.len crc payload [] (tampered m payload crc) := by
    have := holds_encoded m.header crc [] m.fits hlen
    rwa [List.append_nil] at this
  have hpl : get32 (tampered m payload crc) kPayloadLenOff ≠ 0 :=
    hw.whole.payload_ne_nil.mp (hw.payload.symm ▸ hne)
  generalize tampered m payload crc = p at hw hpl ⊢
  have hs := scanned p
  generalize ho : scan p = out at hs
  cases hs with
  | short h => exact absurd hw.whole h
  | malformed e h _ => exact absurd hw.whole h
  | mismatch _ _ hz _ =>
      rw [feed_bad (d := {}) {} ho]
      rw [hw.crc_eq] at hz
      exact ⟨fun _ => hz, fun _ => ⟨rfl, rfl⟩⟩
  | frame _ hcheck =>
      rw [feed_frame (d := {}) {} ho]
      have hzero : crc = 0 := by
        rcases hcheck hpl with hz | hs
        · rw [← hw.crc_eq, hz]
        · rw [hw.crc_eq, hw.payload] at hs
          exact absurd hs hcrc
      exact ⟨fun h => absurd h.1 (by simp), fun h => absurd hzero h⟩

/-- Over a whole run: every frame delivered is sealed exactly if no call finds an
unchecked frame at the head of its buffer. -/
theorem delivered_crc_iff (d : FrameDecoder) (calls : List (List Byte)) :
    ((∀ c ∈ d.feeds calls, ∀ f ∈ c.delivered, Sealed f) ↔
        ∀ c ∈ d.feeds calls, ¬ Unchecked c.buffered) ∧
      ∀ (m : Outgoing) (payload : List Byte) (crc : UInt32), payload.length = m.len →
        payload ≠ [] → Crc32c.compute payload ≠ crc →
        ((({} : FrameDecoder).feed (tampered m payload crc) {}).1 = none ∧
          (({} : FrameDecoder).feed (tampered m payload crc) {}).2.1.category =
            .integrityFailure ↔ crc ≠ 0) := by
  refine ⟨?_, feed_tampered⟩
  induction calls generalizing d with
  | nil => exact ⟨fun _ _ h => absurd h List.not_mem_nil, fun _ _ h => absurd h List.not_mem_nil⟩
  | cons data calls ih =>
      simp only [feeds, List.forall_mem_cons]
      exact and_congr (feed_sealed_iff d data {}) (ih _)

/-- One payload byte under a checksum field of zero. -/
def unsealed : List Byte :=
  FrameEncoder.encodeHeader { type := FrameType.chunk.code, length := 1 } 1 0 ++ [7]

theorem unsealed_delivered :
    ∃ f, ((({} : FrameDecoder).feed unsealed {}).1 = some f) ∧ f.payload = [7] ∧
      f.header.payloadCrc32c ≠ Crc32c.compute f.payload := by
  refine ⟨{ header := headerAt unsealed, payload := [7] }, ?_, rfl, ?_⟩
  · decide +kernel
  · decide +kernel

end FrameDecoder

end TransferFabric
