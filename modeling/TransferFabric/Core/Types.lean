import Mathlib.Algebra.Ring.Nat
import Mathlib.Tactic.Common

/-!
The shared value types: 64-bit byte counts and addresses, memory domains,
endpoint kinds, structured errors and the overflow-checked range arithmetic.
Machine integers are kept at their width, so a sum that wraps in the source
wraps here.
-/

namespace TransferFabric

abbrev Byte := UInt8
abbrev ByteCount := UInt64
abbrev ByteOffset := UInt64
/-- A pointer or a device address; zero is null. -/
abbrev Address := UInt64
/-- A file, mapping or device handle as the operating system hands it out. -/
abbrev Handle := UInt64
abbrev DeviceId := UInt32

inductive MemoryDomain where
  | unknown | hostPageable | hostPinned | device | shared | storage | remote | mmap
  deriving DecidableEq, Repr

inductive EndpointKind where
  | unknown | host | device | file | shared | mmap | remote
  deriving DecidableEq, Repr

inductive PoolKind where
  | none | host | hostPinned | device
  deriving DecidableEq, Repr

inductive ErrorCategory where
  | none | invalidRequest | unsupportedPath | resourceExhausted | quotaExceeded
  | pathUnavailable | backendFailure | transientTransport | integrityFailure
  | cancellation | staleGeneration | permissionDenied | timeoutExternal | permanentFailure
  deriving DecidableEq, Repr

/-- The default value is the absence of an error. -/
structure Error where
  category : ErrorCategory := .none
  backendCode : UInt64 := 0
  message : String := ""
  deriving DecidableEq, Repr

def Error.ok (e : Error) : Bool := e.category = .none

@[simp] theorem Error.ok_default : ({} : Error).ok = true := rfl

structure TransferId where
  hi : UInt64 := 0
  lo : UInt64 := 0
  deriving DecidableEq, Repr

def TransferId.valid (id : TransferId) : Bool := ¬ (id.hi = 0 ∧ id.lo = 0)

structure ByteRange where
  offset : ByteOffset := 0
  length : ByteCount := 0
  deriving DecidableEq, Repr

/-- Where a handle stands after `SetFilePointerEx`. The offset is cast to a signed number: from
2^63 on the call fails and the handle stays where it was. No caller looks at the result. -/
def setFilePointer {P : Type} (off : ByteOffset) (place position : P) : P :=
  if off.toNat < 2 ^ 63 then place else position

def ByteRange.empty (r : ByteRange) : Bool := r.length = 0

/-- `byte_count(~byte_offset{0})`. -/
def maxByteCount : ByteCount := 0xFFFFFFFFFFFFFFFF

def checkedAdd (a b : ByteCount) : Option ByteCount :=
  if b.toNat > maxByteCount.toNat - a.toNat then none else some (a + b)

def checkedMul (a b : ByteCount) : Option ByteCount :=
  if a ≠ 0 ∧ b.toNat > maxByteCount.toNat / a.toNat then none else some (a * b)

theorem toNat_maxByteCount : maxByteCount.toNat = 2 ^ 64 - 1 := rfl

theorem toNat_ne_zero (a : UInt64) : a.toNat ≠ 0 ↔ a ≠ 0 := by
  rw [Ne, Ne, ← UInt64.toNat_inj, UInt64.toNat_zero]

theorem checkedAdd_eq_some (a b : ByteCount) (h : a.toNat + b.toNat < 2 ^ 64) :
    checkedAdd a b = some (a + b) := by
  unfold checkedAdd
  rw [if_neg (by rw [toNat_maxByteCount]; omega)]

theorem checkedMul_eq_some (a b : ByteCount) (h : a.toNat * b.toNat < 2 ^ 64) :
    checkedMul a b = some (a * b) := by
  have hb : ¬ (a ≠ 0 ∧ b.toNat > maxByteCount.toNat / a.toNat) := by
    rintro ⟨ha, hgt⟩
    have hpos : 0 < a.toNat := Nat.pos_of_ne_zero ((toNat_ne_zero a).mpr ha)
    rw [gt_iff_lt, toNat_maxByteCount, Nat.div_lt_iff_lt_mul hpos, Nat.mul_comm] at hgt
    omega
  unfold checkedMul
  rw [if_neg hb]

theorem toNat_ofNat_lt (n : Nat) (h : n < 2 ^ 64) : (UInt64.ofNat n).toNat = n := by
  rw [UInt64.toNat_ofNat']; exact Nat.mod_eq_of_lt h

theorem toNat_succ (a : UInt64) (h : a.toNat + 1 < 2 ^ 64) : (a + 1).toNat = a.toNat + 1 := by
  rw [UInt64.toNat_add, UInt64.toNat_one]; exact Nat.mod_eq_of_lt h

theorem toNat_add_of_lt (a b : UInt64) (h : a.toNat + b.toNat < 2 ^ 64) :
    (a + b).toNat = a.toNat + b.toNat := by
  rw [UInt64.toNat_add]; exact Nat.mod_eq_of_lt h

theorem toNat_mul_of_lt (a b : UInt64) (h : a.toNat * b.toNat < 2 ^ 64) :
    (a * b).toNat = a.toNat * b.toNat := by
  rw [UInt64.toNat_mul]; exact Nat.mod_eq_of_lt h

end TransferFabric
