import TransferFabric.Core.Types

/-!
The two checksums behind verification, with their incremental interfaces.
The hashing loops feed a region in pieces, so what they rely on is that an
update by pieces is the update by the whole. For SHA-256 that goes through the
byte-at-a-time absorption the buffered update must agree with.
-/

namespace TransferFabric

inductive VerificationMode where
  | none | crc32c | sha256
  deriving DecidableEq, Repr

namespace Crc32c

/-- One bit of the reflected division by 0x1EDC6F41. -/
def tableStep (c : UInt32) : UInt32 :=
  if c &&& 1 = 0 then c >>> 1 else (0x82F63B78 : UInt32) ^^^ (c >>> 1)

def table (i : UInt32) : UInt32 :=
  tableStep (tableStep (tableStep (tableStep (tableStep (tableStep (tableStep (tableStep i)))))))

def updateByte (c : UInt32) (b : Byte) : UInt32 :=
  table ((c ^^^ b.toUInt32) &&& 0xFF) ^^^ (c >>> 8)

def update (crc : UInt32) (data : List Byte) : UInt32 := data.foldl updateByte crc

def initial : UInt32 := 0xFFFFFFFF

def value (crc : UInt32) : UInt32 := ~~~ crc

def compute (data : List Byte) : UInt32 := value (update initial data)

theorem update_append (crc : UInt32) (a b : List Byte) :
    update crc (a ++ b) = update (update crc a) b := List.foldl_append

end Crc32c

structure Sha256 where
  state : List UInt32
  /-- The first `buffer_len_` bytes of the block buffer; the rest is never read. -/
  buffer : List Byte
  totalLen : UInt64
  deriving DecidableEq, Repr

namespace Sha256

def roundConstants : List UInt32 :=
  [0x428a2f98, 0x71374491, 0xb5c0fbcf, 0xe9b5dba5, 0x3956c25b, 0x59f111f1, 0x923f82a4, 0xab1c5ed5,
   0xd807aa98, 0x12835b01, 0x243185be, 0x550c7dc3, 0x72be5d74, 0x80deb1fe, 0x9bdc06a7, 0xc19bf174,
   0xe49b69c1, 0xefbe4786, 0x0fc19dc6, 0x240ca1cc, 0x2de92c6f, 0x4a7484aa, 0x5cb0a9dc, 0x76f988da,
   0x983e5152, 0xa831c66d, 0xb00327c8, 0xbf597fc7, 0xc6e00bf3, 0xd5a79147, 0x06ca6351, 0x14292967,
   0x27b70a85, 0x2e1b2138, 0x4d2c6dfc, 0x53380d13, 0x650a7354, 0x766a0abb, 0x81c2c92e, 0x92722c85,
   0xa2bfe8a1, 0xa81a664b, 0xc24b8b70, 0xc76c51a3, 0xd192e819, 0xd6990624, 0xf40e3585, 0x106aa070,
   0x19a4c116, 0x1e376c08, 0x2748774c, 0x34b0bcb5, 0x391c0cb3, 0x4ed8aa4a, 0x5b9cca4f, 0x682e6ff3,
   0x748f82ee, 0x78a5636f, 0x84c87814, 0x8cc70208, 0x90befffa, 0xa4506ceb, 0xbef9a3f7, 0xc67178f2]

def rotr (x n : UInt32) : UInt32 := (x >>> n) ||| (x <<< (32 - n))
def ch (x y z : UInt32) : UInt32 := (x &&& y) ^^^ (~~~ x &&& z)
def maj (x y z : UInt32) : UInt32 := (x &&& y) ^^^ (x &&& z) ^^^ (y &&& z)

def initial : Sha256 where
  state := [0x6a09e667, 0xbb67ae85, 0x3c6ef372, 0xa54ff53a,
            0x510e527f, 0x9b05688c, 0x1f83d9ab, 0x5be0cd19]
  buffer := []
  totalLen := 0

/-- The big-endian word `i` of a block. -/
def blockWord (p : List Byte) (i : Nat) : UInt32 :=
  ((p.getD (i * 4) 0).toUInt32 <<< 24) ||| ((p.getD (i * 4 + 1) 0).toUInt32 <<< 16) |||
    ((p.getD (i * 4 + 2) 0).toUInt32 <<< 8) ||| (p.getD (i * 4 + 3) 0).toUInt32

def scheduleStep (w : List UInt32) (i : Nat) : List UInt32 :=
  let at' (k : Nat) := w.getD k 0
  let s0 := rotr (at' (i - 15)) 7 ^^^ rotr (at' (i - 15)) 18 ^^^ (at' (i - 15) >>> 3)
  let s1 := rotr (at' (i - 2)) 17 ^^^ rotr (at' (i - 2)) 19 ^^^ (at' (i - 2) >>> 10)
  w ++ [at' (i - 16) + s0 + at' (i - 7) + s1]

def schedule (p : List Byte) : List UInt32 :=
  (List.range' 16 48).foldl scheduleStep ((List.range 16).map (blockWord p))

structure Working where
  (a b c d e f g h : UInt32)

def roundStep (w : List UInt32) (v : Working) (i : Nat) : Working :=
  let S1 := rotr v.e 6 ^^^ rotr v.e 11 ^^^ rotr v.e 25
  let temp1 := v.h + S1 + ch v.e v.f v.g + roundConstants.getD i 0 + w.getD i 0
  let S0 := rotr v.a 2 ^^^ rotr v.a 13 ^^^ rotr v.a 22
  let temp2 := S0 + maj v.a v.b v.c
  { a := temp1 + temp2, b := v.a, c := v.b, d := v.c
    e := v.d + temp1, f := v.e, g := v.f, h := v.g }

def compress (state : List UInt32) (p : List Byte) : List UInt32 :=
  let st (k : Nat) := state.getD k 0
  let v := (List.range 64).foldl (roundStep (schedule p))
    { a := st 0, b := st 1, c := st 2, d := st 3, e := st 4, f := st 5, g := st 6, h := st 7 }
  [st 0 + v.a, st 1 + v.b, st 2 + v.c, st 3 + v.d,
   st 4 + v.e, st 5 + v.f, st 6 + v.g, st 7 + v.h]

def processBlock (s : Sha256) (p : List Byte) : Sha256 :=
  { s with state := compress s.state p }

/-- `while (i + 64 <= len)`: the whole blocks, then what is left over. -/
def processBlocks : Nat → Sha256 → List Byte → Sha256 × List Byte
  | 0, s, data => (s, data)
  | fuel + 1, s, data =>
      if 64 ≤ data.length then processBlocks fuel (s.processBlock (data.take 64)) (data.drop 64)
      else (s, data)

/-- Top up a partly filled buffer, and process it if that filled it. -/
def fillBuffer (s : Sha256) (data : List Byte) : Sha256 × List Byte :=
  if s.buffer.length > 0 then
    let n := min data.length (64 - s.buffer.length)
    let s := { s with buffer := s.buffer ++ data.take n }
    if s.buffer.length = 64 then ({ s.processBlock s.buffer with buffer := [] }, data.drop n)
    else (s, data.drop n)
  else (s, data)

def update (s : Sha256) (data : List Byte) : Sha256 :=
  let s := { s with totalLen := s.totalLen + UInt64.ofNat data.length }
  let (s, data) := s.fillBuffer data
  let (s, rest) := processBlocks data.length s data
  { s with buffer := s.buffer ++ rest }

/-- `while (buffer_len_ != 56) update(&zero, 1)`; the residue returns within a block. -/
def padZeros : Nat → Sha256 → Sha256
  | 0, s => s
  | fuel + 1, s => if s.buffer.length ≠ 56 then padZeros fuel (s.update [0]) else s

def lengthBytes (bitlen : UInt64) : List Byte :=
  (List.range 8).map fun k => ((bitlen >>> UInt64.ofNat (56 - 8 * k)) &&& 0xFF).toUInt8

def stateBytes (state : List UInt32) : List Byte :=
  (List.range 8).flatMap fun k =>
    let w := state.getD k 0
    [((w >>> 24) &&& 0xFF).toUInt8, ((w >>> 16) &&& 0xFF).toUInt8,
     ((w >>> 8) &&& 0xFF).toUInt8, (w &&& 0xFF).toUInt8]

def digest (s : Sha256) : List Byte :=
  let bitlen := s.totalLen * 8
  let s := padZeros 64 (s.update [0x80])
  stateBytes (s.update (lengthBytes bitlen)).state

def compute (data : List Byte) : List Byte := (initial.update data).digest

/-! Absorbing byte by byte, the reference for the buffered update. -/

def absorb (s : Sha256) (b : Byte) : Sha256 :=
  if (s.buffer ++ [b]).length = 64 then { s.processBlock (s.buffer ++ [b]) with buffer := [] }
  else { s with buffer := s.buffer ++ [b] }

theorem absorb_totalLen (s : Sha256) (t : UInt64) (data : List Byte) :
    data.foldl absorb { s with totalLen := t } =
      { data.foldl absorb s with totalLen := t } := by
  induction data generalizing s with
  | nil => rfl
  | cons b data ih =>
      have hstep : absorb { s with totalLen := t } b = { absorb s b with totalLen := t } := by
        by_cases h : (s.buffer ++ [b]).length = 64
        · simp only [absorb, if_pos h, processBlock]
        · simp only [absorb, if_neg h]
      rw [List.foldl_cons, List.foldl_cons, hstep, ih]

theorem absorb_short (s : Sha256) (data : List Byte) (h : s.buffer.length + data.length < 64) :
    data.foldl absorb s = { s with buffer := s.buffer ++ data } := by
  induction data generalizing s with
  | nil => simp
  | cons b data ih =>
      have hlen : ¬ (s.buffer ++ [b]).length = 64 := by simp at h ⊢; omega
      have hstep : s.absorb b = { s with buffer := s.buffer ++ [b] } := by
        simp only [absorb, if_neg hlen]
      rw [List.foldl_cons, hstep, ih _ (by simp at h ⊢; omega)]
      simp

theorem absorb_block (s : Sha256) (data : List Byte) (hb : s.buffer.length < 64)
    (h : s.buffer.length + data.length = 64) :
    data.foldl absorb s = { s.processBlock (s.buffer ++ data) with buffer := [] } := by
  obtain ⟨init, last, rfl⟩ : ∃ init last, data = init ++ [last] :=
    ⟨_, _, (List.dropLast_concat_getLast (List.ne_nil_of_length_pos (by omega))).symm⟩
  simp only [List.length_append, List.length_cons, List.length_nil] at h
  have hlen : (s.buffer ++ init ++ [last]).length = 64 := by simp; omega
  rw [List.foldl_append, absorb_short s init (by omega), List.foldl_cons, List.foldl_nil]
  unfold absorb
  rw [if_pos hlen, List.append_assoc]
  rfl

theorem absorb_buffer (s : Sha256) (data : List Byte) (h : s.buffer.length < 64) :
    (data.foldl absorb s).buffer.length < 64 := by
  induction data generalizing s with
  | nil => exact h
  | cons b data ih =>
      rw [List.foldl_cons]
      apply ih
      unfold absorb
      split
      · simp
      · rename_i hne
        simp only [List.length_append, List.length_cons, List.length_nil] at hne ⊢
        omega

theorem processBlocks_eq (fuel : Nat) (s : Sha256) (data : List Byte) (hs : s.buffer = [])
    (hf : data.length ≤ fuel) :
    { (processBlocks fuel s data).1 with
      buffer := (processBlocks fuel s data).1.buffer ++ (processBlocks fuel s data).2 } =
      data.foldl absorb s := by
  induction fuel generalizing s data with
  | zero =>
      obtain rfl : data = [] := List.eq_nil_of_length_eq_zero (by omega)
      simp [processBlocks]
  | succ fuel ih =>
      by_cases h64 : 64 ≤ data.length
      · have htake : (data.take 64).length = 64 := by simp; omega
        have hblock := absorb_block s (data.take 64) (by simp [hs]) (by simp [hs, htake])
        have hnext : { s.processBlock (s.buffer ++ data.take 64) with buffer := [] } =
            s.processBlock (data.take 64) := by simp [hs, processBlock]
        conv_rhs => rw [← List.take_append_drop 64 data, List.foldl_append, hblock, hnext]
        rw [← ih (s.processBlock (data.take 64)) (data.drop 64) hs (by simp; omega)]
        simp only [processBlocks, if_pos h64]
      · rw [absorb_short s data (by simp [hs]; omega)]
        simp [processBlocks, h64]

theorem update_eq_absorb (s : Sha256) (data : List Byte) (hs : s.buffer.length < 64) :
    s.update data =
      { data.foldl absorb s with totalLen := s.totalLen + UInt64.ofNat data.length } := by
  rw [← absorb_totalLen]
  unfold update
  generalize s.totalLen + UInt64.ofNat data.length = t
  obtain ⟨state, buffer, total⟩ := s
  simp only at hs ⊢
  unfold fillBuffer
  by_cases hpos : buffer.length > 0
  · rw [if_pos hpos]
    by_cases hfull : data.length < 64 - buffer.length
    · -- The data fits into the buffer: nothing is processed.
      rw [absorb_short _ data (by simp only; omega)]
      have hmin : min data.length (64 - buffer.length) = data.length := by omega
      have hne : ¬ (buffer.length + data.length = 64) := by omega
      simp [hmin, hne, processBlocks]
    · -- The data tops the buffer up to a block; the rest starts with an empty buffer.
      have hmin : min data.length (64 - buffer.length) = 64 - buffer.length := by omega
      have htake : buffer.length + (data.take (64 - buffer.length)).length = 64 := by
        simp; omega
      conv_rhs => rw [← List.take_append_drop (64 - buffer.length) data, List.foldl_append]
      rw [absorb_block _ (data.take (64 - buffer.length)) hs htake]
      have hlen : (buffer ++ data.take (64 - buffer.length)).length = 64 := by
        rw [List.length_append]; exact htake
      simp only [hmin, if_pos hlen]
      exact processBlocks_eq _ _ _ rfl (Nat.le_refl _)
  · rw [if_neg hpos]
    exact processBlocks_eq _ _ _ (List.eq_nil_of_length_eq_zero (by simp only; omega)) (Nat.le_refl _)

theorem update_buffer (s : Sha256) (data : List Byte) (hs : s.buffer.length < 64) :
    (s.update data).buffer.length < 64 := by
  rw [update_eq_absorb s data hs]
  exact absorb_buffer s data hs

/-- An update by pieces is the update by the whole. -/
theorem update_append (s : Sha256) (a b : List Byte) (hs : s.buffer.length < 64) :
    s.update (a ++ b) = (s.update a).update b := by
  rw [update_eq_absorb (s.update a) b (update_buffer s a hs), update_eq_absorb s a hs,
    update_eq_absorb s (a ++ b) hs, List.foldl_append]
  have hrest := absorb_totalLen (a.foldl absorb s) (s.totalLen + UInt64.ofNat a.length) b
  rw [hrest]
  simp [UInt64.ofNat_add, UInt64.add_assoc]

end Sha256

end TransferFabric
