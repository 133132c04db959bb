import Mathlib.Data.List.Induction
import Mathlib.Data.Nat.Digits.Lemmas
import Mathlib.Logic.Function.Basic
import Mathlib.Tactic.Ring

/-!
Machine words, and numerals in a base. Adding to a word a shifted copy of
itself loses nothing, and neither does multiplying by a word that has an
inverse; a mixing function built from such rounds is injective.

A numeral lists its digits from the highest. At a fixed width, numerals and the
numbers below the power of the base are the same thing.
-/

namespace Words

theorem xorShift_injective {w : Nat} (s : Nat) (hs : 0 < s) :
    Function.Injective fun x : BitVec w => x ^^^ (x >>> s) := by
  intro x y h
  have hdiff : x ^^^ y = (x ^^^ y) >>> s := by
    rw [BitVec.ushiftRight_xor_distrib, ← BitVec.xor_left_inj (x >>> s), BitVec.xor_assoc,
      BitVec.xor_comm y, ← BitVec.xor_assoc]
    rw [show x ^^^ (x >>> s) = y ^^^ (y >>> s) from h, BitVec.xor_comm (y ^^^ (y >>> s)),
      ← BitVec.xor_assoc, BitVec.xor_self, BitVec.zero_xor, BitVec.xor_comm,
      ← BitVec.xor_assoc, BitVec.xor_self, BitVec.zero_xor]
  have hnat : (x ^^^ y).toNat = (x ^^^ y).toNat / 2 ^ s := by
    conv_lhs => rw [hdiff]
    rw [BitVec.toNat_ushiftRight, Nat.shiftRight_eq_div_pow]
  have hzero : (x ^^^ y).toNat = 0 := by
    by_contra hne
    have := Nat.div_lt_self (Nat.pos_of_ne_zero hne) (Nat.one_lt_two_pow (Nat.ne_of_gt hs))
    omega
  exact BitVec.xor_eq_zero_iff.mp (BitVec.eq_of_toNat_eq (by rw [hzero]; rfl))

theorem mul_injective {a b : UInt64} (h : a * b = 1) :
    Function.Injective fun x : UInt64 => x * a := by
  intro x y hxy
  have := congrArg (· * b) hxy
  simpa only [UInt64.mul_assoc, h, UInt64.mul_one] using this

/-- A property of bytes that has been checked for every number below 256. -/
theorem forall_byte {P : UInt8 → Prop} (h : ∀ n < 256, P (UInt8.ofNat n)) (c : UInt8) : P c := by
  have hc := h c.toNat c.toNat_lt
  rwa [UInt8.ofNat_toNat] at hc

/-! Numerals. -/

/-- The number a numeral stands for. -/
def value (base : Nat) (ds : List Nat) : Nat := ds.foldl (fun n d => n * base + d) 0

/-- The digits of a number at a width. -/
def fixed (base : Nat) : Nat → Nat → List Nat
  | 0, _ => []
  | width + 1, n => fixed base width (n / base) ++ [n % base]

variable {base : Nat}

@[simp] theorem value_concat (ds : List Nat) (d : Nat) :
    value base (ds ++ [d]) = value base ds * base + d := List.foldl_append

theorem value_eq_ofDigits (ds : List Nat) : value base ds = Nat.ofDigits base ds.reverse := by
  induction ds using List.reverseRecOn with
  | nil => rfl
  | append_singleton ds d ih =>
      rw [value_concat, ih, List.reverse_concat, Nat.ofDigits_cons, Nat.mul_comm, Nat.add_comm]

@[simp] theorem length_fixed (width n : Nat) : (fixed base width n).length = width := by
  induction width generalizing n with
  | zero => rfl
  | succ width ih => rw [fixed, List.length_append, ih, List.length_singleton]

theorem lt_of_mem_fixed (hbase : 0 < base) {width n d : Nat} (h : d ∈ fixed base width n) :
    d < base := by
  induction width generalizing n with
  | zero => exact absurd h List.not_mem_nil
  | succ width ih =>
      rcases List.mem_append.mp h with h | h
      · exact ih h
      · rw [List.mem_singleton.mp h]
        exact Nat.mod_lt _ hbase

theorem value_fixed {width n : Nat} (h : n < base ^ width) :
    value base (fixed base width n) = n := by
  induction width generalizing n with
  | zero =>
      rw [Nat.pow_zero] at h
      exact (Nat.lt_one_iff.mp h).symm
  | succ width ih =>
      rw [fixed, value_concat, ih (Nat.div_lt_of_lt_mul (by rwa [Nat.mul_comm, ← Nat.pow_succ])),
        Nat.mul_comm, Nat.div_add_mod]

theorem value_lt {ds : List Nat} (h : ∀ d ∈ ds, d < base) : value base ds < base ^ ds.length := by
  induction ds using List.reverseRecOn with
  | nil => exact Nat.zero_lt_one
  | append_singleton ds d ih =>
      have hd := h d (by simp)
      have hds := ih fun e he => h e (List.mem_append_left _ he)
      rw [value_concat, List.length_append, List.length_singleton, Nat.pow_succ]
      calc value base ds * base + d < value base ds * base + base := by omega
        _ = (value base ds + 1) * base := by ring
        _ ≤ base ^ ds.length * base := Nat.mul_le_mul_right _ hds

theorem fixed_value {ds : List Nat} (h : ∀ d ∈ ds, d < base) :
    fixed base ds.length (value base ds) = ds := by
  induction ds using List.reverseRecOn with
  | nil => rfl
  | append_singleton ds d ih =>
      have hd := h d (by simp)
      rw [List.length_append, List.length_singleton, fixed, value_concat, Nat.mul_comm,
        Nat.mul_add_mod, Nat.mod_eq_of_lt hd, Nat.mul_add_div (by omega), Nat.div_eq_of_lt hd,
        Nat.add_zero, ih fun e he => h e (List.mem_append_left _ he)]

/-- The digits of a number, without zeros in front. -/
def numeral (base n : Nat) : List Nat := if n = 0 then [0] else (Nat.digits base n).reverse

theorem value_numeral (n : Nat) : value base (numeral base n) = n := by
  unfold numeral
  split_ifs with h
  · rw [h, value, List.foldl_cons, List.foldl_nil, Nat.zero_mul]
  · rw [value_eq_ofDigits, List.reverse_reverse, Nat.ofDigits_digits]

theorem lt_of_mem_numeral (hbase : 1 < base) {n d : Nat} (h : d ∈ numeral base n) : d < base := by
  unfold numeral at h
  split_ifs at h
  · rw [List.mem_singleton.mp h]
    omega
  · exact Nat.digits_lt_base hbase (List.mem_reverse.mp h)

/-- Only the numeral of zero starts with a zero. -/
theorem numeral_cases (base n : Nat) :
    numeral base n = [0] ∨ ∃ d ds, d ≠ 0 ∧ numeral base n = d :: ds := by
  unfold numeral
  split_ifs with h
  · exact .inl rfl
  · right
    have hne : Nat.digits base n ≠ [] := Nat.digits_ne_nil_iff_ne_zero.mpr h
    refine ⟨_, (Nat.digits base n).dropLast.reverse, Nat.getLast_digit_ne_zero base h, ?_⟩
    rw [← List.reverse_concat, List.dropLast_append_getLast hne]

end Words
