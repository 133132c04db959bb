import TransferFabric.Backends.File
import TransferFabric.Core.Memory

/-!
What `FileBackend::copy` does to the bytes when `ReadFile` and `WriteFile` may
move fewer bytes than they are asked for, or fail. The copy has its handles to
itself: nobody else seeks, reads or writes while it runs, and the two handles
may be one.

A call that succeeds moves some of the bytes it was asked for, at the position
of the handle; a call that fails moves none and leaves the handle anywhere. A
seek that fails leaves the handle where it was, and the copy goes on there. Offsets
are counted in 64 bits, as everywhere in the model. What a heap buffer has received
is not counted as moved.
-/

namespace TransferFabric

open Interaction Memory

/-- The bytes, where each handle stands, and how many bytes have reached a destination. -/
structure DiskWorld where
  store : Store Cell Byte
  pos : Handle → ByteOffset
  moved : Nat

namespace DiskWorld

/-- The handle stands elsewhere. -/
def seek (w : DiskWorld) (h : Handle) (off : ByteOffset) : DiskWorld :=
  { w with pos := Function.update w.pos h off }

def land (w : DiskWorld) (st : Store Cell Byte) (n : Nat) : DiskWorld :=
  { w with store := st, moved := w.moved + n }

end DiskWorld

/-- What a call to the operating system does. -/
def diskEffect (fileOf : Handle → Nat) : Effect IoSig DiskWorld := fun w c x w' =>
  match c, x with
  | .seek h off, _ => w' = w.seek h (setFilePointer off off (w.pos h))
  | .readFile h n _, x => match x with
    | none => ∃ off, w' = w.seek h off
    | some data => List.length data ≤ n.toNat ∧
        data = w.store.read (fileBytes fileOf h (w.pos h)) (List.length data) ∧
        w' = w.seek h (w.pos h + UInt64.ofNat (List.length data))
  | .writeFile h data _, x => match x with
    | none => ∃ off, w' = w.seek h off
    | some wr => UInt64.toNat wr ≤ data.length ∧
        ∃ st, Writes (fileBytes fileOf h (w.pos h)) (data.take (UInt64.toNat wr)) w.store st ∧
          w' = (w.seek h (w.pos h + wr)).land st (UInt64.toNat wr)
  | .load p n, x => x = w.store.read (memRegion p) n.toNat ∧ w' = w
  | .store p data, _ => ∃ st, Writes (memRegion p) data w.store st ∧ w' = w.land st data.length
  | .flushFileBuffers _, _ | .deviceToHost .., _ => w' = w

/-- Every run of the program ends in the postcondition. -/
abbrev Ends (fileOf : Handle → Nat) {α : Type} (p : Prog IoSig α) (Q : α → DiskWorld → Prop)
    (w : DiskWorld) : Prop :=
  wp (fun _ _ => True) (diskEffect fileOf) p Q w

section Rules

variable {α β σ : Type} {fileOf : Handle → Nat} {p : Prog IoSig α} {Q : β → DiskWorld → Prop}
  {h : Handle} {w : DiskWorld}

end Rules

namespace FileBackend

variable {fileOf : Handle → Nat} {h : Handle} {off n : ByteCount} {w₀ w : DiskWorld}
  {src : Nat → Cell}

/-! Reading. -/

/-- Where a buffer lies in memory, if it does. -/
def Buffer.address : Buffer → Option Address
  | .heap _ => none
  | .memory p => some p

/-- The buffer has received the first bytes of the source, and nothing else has happened. -/
def Buffer.Received (src : Nat → Cell) (w₀ w : DiskWorld) (total : Nat) : Buffer → Prop
  | .heap data => w.store = w₀.store ∧ w.moved = w₀.moved ∧ data = w₀.store.read src total
  | .memory p => Moves src (memRegion p) total w₀.store w.store ∧ w.moved = w₀.moved + total

/-- How a call of `read_at` stands. A failed call leaves it short. -/
structure ReadState.Reads (src : Nat → Cell) (n : ByteCount) (dest : Option Address)
    (w₀ : DiskWorld) (s : ReadState) (w : DiskWorld) : Prop where
  same : s.buf.address = dest
  received : s.buf.Received src w₀ w s.total.toNat
  le : s.total.toNat ≤ n.toNat
  short : s.failed = true → s.total.toNat < n.toNat

/-- Only the position of a handle has changed. -/
theorem ReadState.Reads.seek {s : ReadState} {dest : Option Address}
    (hs : s.Reads src n dest w₀ w) (g : Handle) (pos : ByteOffset) :
    s.Reads src n dest w₀ (w.seek g pos) where
  same := hs.same
  received := by
    have hbuf := hs.received
    cases hb : s.buf with
    | heap data =>
        rw [hb] at hbuf
        exact hbuf
    | memory p =>
        rw [hb] at hbuf
        exact hbuf
  le := hs.le
  short := hs.short

/-- The first `k` bytes of the source have reached the destination, and nothing else has
happened. -/
structure Carried (src dst : Nat → Cell) (k : Nat) (w₀ w : DiskWorld) : Prop where
  moves : Moves src dst k w₀.store w.store
  count : w.moved = w₀.moved + k

section Write

variable {buf : Buffer}

end Write

/-- What is short is what is reported as an error. -/
theorem IoState.ok_iff {s : IoState} (hshort : s.failed = true → s.total.toNat < n.toNat) :
    s.ok n = true ↔ s.total.toNat = n.toNat := by
  unfold ok
  rw [decide_eq_true_iff, UInt64.toNat_inj]
  constructor
  · exact And.right
  · intro htotal
    refine ⟨?_, htotal⟩
    cases hf : s.failed with
    | false => rfl
    | true => exact absurd (hshort hf) (by rw [htotal]; exact Nat.lt_irrefl _)

/-- Where the bytes of a copy come from. -/
def source (fileOf : Handle → Nat) (spec : CopySpec) : Nat → Cell :=
  if isStorage spec.srcKind then fileBytes fileOf spec.srcObject spec.srcObjOffset
  else memRegion spec.srcPtr

/-- Where they go. -/
def target (fileOf : Handle → Nat) (spec : CopySpec) : Nat → Cell :=
  if isStorage spec.dstKind then fileBytes fileOf spec.dstObject spec.dstObjOffset
  else memRegion spec.dstPtr

/-- How a copy ends: with the first bytes moved, and without an error only if those are all. -/
def Ended (fileOf : Handle → Nat) (spec : CopySpec) (w₀ : DiskWorld) (e : Error)
    (w : DiskWorld) : Prop :=
  ∃ k ≤ spec.bytes.toNat, Carried (source fileOf spec) (target fileOf spec) k w₀ w ∧
    (e.ok = true ↔ k = spec.bytes.toNat)

section Copy

variable {spec : CopySpec}

theorem Carried.append {src dst : Nat → Cell} {k m : Nat} {w₁ : DiskWorld}
    (hfirst : Carried src dst k w₀ w)
    (hthen : Carried (fun i => src (k + i)) (fun i => dst (k + i)) m w w₁)
    (hinj : ∀ i < k + m, ∀ j < k + m, dst i = dst j → i = j)
    (hapart : ∀ i < k + m, ∀ j < k + m, src i ≠ dst j) : Carried src dst (k + m) w₀ w₁ :=
  ⟨hfirst.moves.append hthen.moves hinj hapart, by
    rw [hthen.count, hfirst.count, Nat.add_assoc]⟩

/-- How a file to file copy stands after some pieces. -/
structure StreamState.Streaming (fileOf : Handle → Nat) (spec : CopySpec) (w₀ : DiskWorld)
    (s : StreamState) (w : DiskWorld) : Prop where
  carried : Carried (source fileOf spec) (target fileOf spec) s.done.toNat w₀ w
  le : s.done.toNat ≤ spec.bytes.toNat
  clean : s.error = {}

theorem StreamState.Streaming.ended {s : StreamState} (hs : s.Streaming fileOf spec w₀ w)
    (hall : spec.bytes.toNat ≤ s.done.toNat) : Ended fileOf spec w₀ s.error w := by
  refine ⟨s.done.toNat, hs.le, hs.carried, ?_⟩
  rw [hs.clean]
  exact ⟨fun _ => Nat.le_antisymm hs.le hall, fun _ => rfl⟩

theorem target_inj {i j : Nat} (hi : i < 2 ^ 64) (hj : j < 2 ^ 64)
    (heq : target fileOf spec i = target fileOf spec j) : i = j := by
  unfold target at heq
  split at heq
  · exact fileBytes_inj hi hj heq
  · exact memRegion_inj hi hj heq

end Copy

end FileBackend

end TransferFabric
