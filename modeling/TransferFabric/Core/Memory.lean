import TransferFabric.Core.Types
import TransferFabric.Foundation.Store

/-!
The bytes a transfer can touch. A region is counted from an address or from a
file position in 64-bit arithmetic, as the code computes its pointers and
offsets, so a region shorter than the address space never meets itself.
-/

namespace TransferFabric

open Memory

/-- A byte of memory, host or device, or of a file. -/
inductive Cell where
  | mem (a : Address)
  | file (id : Nat) (off : ByteOffset)
  deriving DecidableEq

def memRegion (p : Address) (k : Nat) : Cell := .mem (p + UInt64.ofNat k)

/-- The bytes of the file behind a handle, from an offset on. -/
def fileBytes (fileOf : Handle → Nat) (h : Handle) (off : ByteOffset) (k : Nat) : Cell :=
  .file (fileOf h) (off + UInt64.ofNat k)

theorem offset_add (base d : UInt64) (k : Nat) :
    base + d + UInt64.ofNat k = base + UInt64.ofNat (d.toNat + k) := by
  rw [UInt64.ofNat_add, UInt64.ofNat_toNat, UInt64.add_assoc]

theorem memRegion_add (p d : UInt64) (k : Nat) :
    memRegion (p + d) k = memRegion p (d.toNat + k) := congrArg Cell.mem (offset_add p d k)

theorem fileBytes_add (fileOf : Handle → Nat) (h : Handle) (off d : UInt64) (k : Nat) :
    fileBytes fileOf h (off + d) k = fileBytes fileOf h off (d.toNat + k) :=
  congrArg (Cell.file _) (offset_add off d k)

theorem offset_inj (base : UInt64) {k l : Nat} (hk : k < 2 ^ 64) (hl : l < 2 ^ 64)
    (h : base + UInt64.ofNat k = base + UInt64.ofNat l) : k = l := by
  have hnat := congrArg UInt64.toNat ((UInt64.add_right_inj base).mp h)
  rwa [toNat_ofNat_lt _ hk, toNat_ofNat_lt _ hl] at hnat

theorem memRegion_inj {p : Address} {k l : Nat} (hk : k < 2 ^ 64) (hl : l < 2 ^ 64)
    (h : memRegion p k = memRegion p l) : k = l :=
  offset_inj p hk hl (Cell.mem.inj h)

theorem fileBytes_inj {fileOf : Handle → Nat} {h : Handle} {off : ByteOffset} {k l : Nat}
    (hk : k < 2 ^ 64) (hl : l < 2 ^ 64) (heq : fileBytes fileOf h off k = fileBytes fileOf h off l) :
    k = l :=
  offset_inj off hk hl (Cell.file.inj heq).2

/-- Two address ranges that do not wrap and do not overlap. -/
theorem memRegion_ne {p q : Address} {n m k l : Nat} (hp : p.toNat + n ≤ 2 ^ 64)
    (hq : q.toNat + m ≤ 2 ^ 64) (h : p.toNat + n ≤ q.toNat ∨ q.toNat + m ≤ p.toNat) (hk : k < n)
    (hl : l < m) : memRegion p k ≠ memRegion q l := by
  intro heq
  have hnat := congrArg UInt64.toNat (Cell.mem.inj heq)
  rw [toNat_add_of_lt p _ (by rw [toNat_ofNat_lt k (by omega)]; omega),
    toNat_add_of_lt q _ (by rw [toNat_ofNat_lt l (by omega)]; omega),
    toNat_ofNat_lt k (by omega), toNat_ofNat_lt l (by omega)] at hnat
  omega

end TransferFabric
