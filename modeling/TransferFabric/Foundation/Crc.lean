import Mathlib

/-!
Reflected cyclic redundancy checks of any width. The register is a bit vector
whose least significant bit is the leading coefficient; a step multiplies by
`X` and takes the generator off if it can. Steps are linear, and injective if
the generator has a constant term, so a register tells apart any two bit
strings of one length that fit into it.

Read as polynomials over two elements, the register is the remainder of the
division of the bits by the generator.
-/

namespace Crc

open Polynomial

variable {w : Nat} (g : BitVec w)

/-- One step of the division; `g` is the generator without its leading term, reflected. -/
def step (c : BitVec w) : BitVec w := if c.getLsbD 0 then (c >>> 1) ^^^ g else c >>> 1

def steps : Nat → BitVec w → BitVec w
  | 0, c => c
  | n + 1, c => steps n (step g c)

def ofBit (b : Bool) : BitVec w := if b then 1#w else 0#w

/-- The bits enter the register one at a time. -/
def serial (c : BitVec w) (bits : List Bool) : BitVec w :=
  bits.foldl (fun c b => step g (c ^^^ ofBit b)) c

/-- The bits as a register, the first one least significant. -/
def word : List Bool → BitVec w
  | [] => 0#w
  | b :: bits => ofBit b ^^^ (word bits <<< 1)

/-! Linearity. -/

theorem step_xor (a b : BitVec w) : step g (a ^^^ b) = step g a ^^^ step g b := by
  have hcancel : ∀ x y : BitVec w, x ^^^ g ^^^ (y ^^^ g) = x ^^^ y := by
    intro x y
    rw [BitVec.xor_assoc x, BitVec.xor_comm y, ← BitVec.xor_assoc g, BitVec.xor_self,
      BitVec.zero_xor]
  unfold step
  rw [BitVec.getLsbD_xor, BitVec.ushiftRight_xor_distrib]
  cases a.getLsbD 0 <;> cases b.getLsbD 0
  · rfl
  · exact BitVec.xor_assoc _ _ _
  · show a >>> 1 ^^^ b >>> 1 ^^^ g = a >>> 1 ^^^ g ^^^ b >>> 1
    rw [BitVec.xor_assoc, BitVec.xor_comm (b >>> 1), BitVec.xor_assoc]
  · exact (hcancel _ _).symm

theorem steps_xor (n : Nat) (a b : BitVec w) :
    steps g n (a ^^^ b) = steps g n a ^^^ steps g n b := by
  induction n generalizing a b with
  | zero => rfl
  | succ n ih => rw [steps, step_xor, ih, steps, steps]

theorem serial_cons (c : BitVec w) (b : Bool) (bits : List Bool) :
    serial g c (b :: bits) = serial g (step g (c ^^^ ofBit b)) bits := rfl

theorem serial_append (c : BitVec w) (a b : List Bool) :
    serial g c (a ++ b) = serial g (serial g c a) b := List.foldl_append

/-- The `i`-th bit of the register is the `i`-th of the string. -/
theorem getLsbD_word (bits : List Bool) {i : Nat} (hi : i < w) :
    (word bits : BitVec w).getLsbD i = bits.getD i false := by
  induction bits generalizing i with
  | nil => simp [word]
  | cons b bits ih =>
      cases i with
      | zero => cases b <;> simp [word, ofBit, hi]
      | succ i =>
          have hbit : (ofBit b : BitVec w).getLsbD (i + 1) = false := by cases b <;> simp [ofBit]
          have hlow : ¬ i + 1 < 1 := Nat.not_lt.mpr (Nat.le_add_left 1 i)
          rw [word, BitVec.getLsbD_xor, BitVec.getLsbD_shiftLeft, hbit, decide_eq_true hi,
            decide_eq_false hlow, Nat.add_sub_cancel, ih (Nat.lt_of_succ_lt hi),
            List.getD_cons_succ]
          simp

/-- A register whose last bit is clear is what a step makes of it one place up. -/
theorem step_shiftLeft {y : BitVec w} (hy : y.getLsbD (w - 1) = false) : step g (y <<< 1) = y := by
  have hlow : (y <<< 1).getLsbD 0 = false := by simp
  rw [step, hlow, if_neg Bool.false_ne_true]
  apply BitVec.eq_of_getLsbD_eq
  intro i hi
  rw [BitVec.getLsbD_ushiftRight, BitVec.getLsbD_shiftLeft]
  by_cases hlast : i + 1 < w
  · simp [Nat.add_comm 1 i, hlast]
  · obtain rfl : i = w - 1 := by omega
    rw [hy]
    simp [Nat.add_comm 1, hlast]

theorem steps_shiftLeft (n : Nat) {y : BitVec w} (hy : ∀ i, w ≤ i + n → y.getLsbD i = false) :
    steps g n (y <<< n) = y := by
  induction n with
  | zero => exact BitVec.shiftLeft_zero y
  | succ n ih =>
      have hlast : (y <<< n).getLsbD (w - 1) = false := by
        rw [BitVec.getLsbD_shiftLeft, hy (w - 1 - n) (by omega), Bool.and_false]
      rw [steps, BitVec.shiftLeft_add, step_shiftLeft g hlast]
      exact ih fun i hi => hy i (by omega)

/-- Bits that fit into the register may enter it at once. -/
theorem serial_eq_steps (bits : List Bool) (c : BitVec w) (h : bits.length ≤ w) :
    serial g c bits = steps g bits.length (c ^^^ word bits) := by
  induction bits generalizing c with
  | nil => exact (BitVec.xor_zero).symm
  | cons b bits ih =>
      rw [List.length_cons] at h
      have hlast : (word bits : BitVec w).getLsbD (w - 1) = false := by
        rw [getLsbD_word bits (by omega), List.getD_eq_getElem?_getD,
          List.getElem?_eq_none (by omega), Option.getD_none]
      have hstep : step g (c ^^^ word (b :: bits)) = step g (c ^^^ ofBit b) ^^^ word bits := by
        rw [word, ← BitVec.xor_assoc, step_xor, step_shiftLeft g hlast]
      rw [serial_cons, ih _ (by omega), List.length_cons, steps, hstep]

/-! Injectivity. -/

section Injective

variable {g} (hg : g.getLsbD (w - 1) = true)

include hg

/-- The bit that a step shifts out can be read off its result. -/
theorem getLsbD_step (c : BitVec w) : (step g c).getLsbD (w - 1) = c.getLsbD 0 := by
  have hw : 0 < w := Nat.pos_of_ne_zero fun h => by
    subst h
    simp at hg
  have hshift : (c >>> 1).getLsbD (w - 1) = false := by
    rw [BitVec.getLsbD_ushiftRight]
    exact BitVec.getLsbD_of_ge _ _ (by omega)
  unfold step
  cases hc : c.getLsbD 0 with
  | true => rw [if_pos rfl, BitVec.getLsbD_xor, hshift, hg, Bool.false_xor]
  | false => rw [if_neg Bool.false_ne_true, hshift]

theorem step_injective {a b : BitVec w} (h : step g a = step g b) : a = b := by
  have hlow : a.getLsbD 0 = b.getLsbD 0 := by rw [← getLsbD_step hg a, h, getLsbD_step hg b]
  have hshift : a >>> 1 = b >>> 1 := by
    unfold step at h
    rw [hlow] at h
    split at h
    · exact (BitVec.xor_left_inj g).mp h
    · exact h
  apply BitVec.eq_of_getLsbD_eq
  intro i hi
  cases i with
  | zero => exact hlow
  | succ i =>
      have hbit := congrArg (fun x => x.getLsbD i) hshift
      simpa [Nat.add_comm 1 i] using hbit

theorem steps_injective {n : Nat} {a b : BitVec w} (h : steps g n a = steps g n b) : a = b := by
  induction n generalizing a b with
  | zero => exact h
  | succ n ih => exact step_injective hg (ih h)

/-- Registers that differ still differ after the same bits. -/
theorem serial_injective {bits : List Bool} {a b : BitVec w}
    (h : serial g a bits = serial g b bits) : a = b := by
  induction bits generalizing a b with
  | nil => exact h
  | cons x bits ih => exact (BitVec.xor_left_inj _).mp (step_injective hg (ih h))

/-- Bit strings of one length that fit into the register are told apart. -/
theorem serial_eq_iff {a b : List Bool} {c : BitVec w} (hlen : a.length = b.length)
    (hfit : a.length ≤ w) : serial g c a = serial g c b ↔ a = b := by
  refine ⟨fun h => ?_, fun h => by rw [h]⟩
  rw [serial_eq_steps g a c hfit, serial_eq_steps g b c (hlen ▸ hfit), hlen] at h
  have hword : (word a : BitVec w) = word b := (BitVec.xor_right_inj c).mp (steps_injective hg h)
  refine List.ext_getElem hlen fun i hi hi' => ?_
  have hbit := congrArg (fun x => x.getLsbD i) hword
  simp only [getLsbD_word _ (Nat.lt_of_lt_of_le hi hfit)] at hbit
  rwa [List.getD_eq_getElem _ _ hi, List.getD_eq_getElem _ _ hi'] at hbit

end Injective

/-! Polynomials. -/

section Polynomials

/-- A bit vector as a polynomial, its bits the coefficients. -/
noncomputable def plain (c : BitVec w) : (ZMod 2)[X] :=
  ∑ j ∈ Finset.range w, if c.getLsbD j then X ^ j else 0

/-- The register as a polynomial, its first bit the leading coefficient. -/
noncomputable def poly (c : BitVec w) : (ZMod 2)[X] :=
  ∑ j ∈ Finset.range w, if c.getLsbD j then X ^ (w - 1 - j) else 0

/-- A bit string as a polynomial, its first bit the leading coefficient. -/
noncomputable def message : List Bool → (ZMod 2)[X]
  | [] => 0
  | b :: bits => (if b then X ^ bits.length else 0) + message bits

theorem poly_reverse (c : BitVec w) : poly c.reverse = plain c := by
  unfold poly plain
  rw [← Finset.sum_range_reflect]
  refine Finset.sum_congr rfl fun j hj => ?_
  have hlt := Finset.mem_range.mp hj
  rw [BitVec.getLsbD_reverse, BitVec.getMsbD_eq_getLsbD]
  have hback : w - 1 - (w - 1 - j) = j := by omega
  simp [hback, show w - 1 - j < w by omega]

theorem poly_xor (a b : BitVec w) : poly (a ^^^ b) = poly a + poly b := by
  unfold poly
  rw [← Finset.sum_add_distrib]
  refine Finset.sum_congr rfl fun j _ => ?_
  rw [BitVec.getLsbD_xor]
  cases a.getLsbD j <;> cases b.getLsbD j <;> simp [CharTwo.add_self_eq_zero]

theorem degree_poly_lt (c : BitVec w) : (poly c).degree < w := by
  rw [← mem_degreeLT]
  refine Submodule.sum_mem _ fun j hj => ?_
  have hlt := Finset.mem_range.mp hj
  split
  · rw [mem_degreeLT, degree_X_pow]
    exact_mod_cast (by omega : w - 1 - j < w)
  · exact Submodule.zero_mem _

variable (hw : 0 < w)

include hw

theorem poly_ofBit (b : Bool) : poly (ofBit b : BitVec w) = if b then X ^ (w - 1) else 0 := by
  unfold poly ofBit
  cases b with
  | false => simp
  | true =>
      rw [Finset.sum_eq_single 0]
      · simp [hw]
      · intro j _ hj
        simp [BitVec.getLsbD_one, hj]
      · intro h
        exact absurd (Finset.mem_range.mpr hw) h

theorem X_mul_poly (c : BitVec w) :
    X * poly c = (if c.getLsbD 0 then X ^ w else 0) + poly (c >>> 1) := by
  obtain ⟨n, rfl⟩ : ∃ n, w = n + 1 := ⟨w - 1, by omega⟩
  have hlast : (c >>> 1).getLsbD n = false := by
    rw [BitVec.getLsbD_ushiftRight]
    exact BitVec.getLsbD_of_ge _ _ (by omega)
  rw [poly, Finset.mul_sum, Finset.sum_range_succ', poly, Finset.sum_range_succ, hlast, add_comm]
  congr 1
  · rw [mul_ite, mul_zero, ← pow_succ']
    rfl
  · rw [if_neg Bool.false_ne_true, add_zero]
    refine Finset.sum_congr rfl fun j hj => ?_
    have hlt := Finset.mem_range.mp hj
    rw [BitVec.getLsbD_ushiftRight, Nat.add_comm 1 j, mul_ite, mul_zero, ← pow_succ']
    congr 2
    omega

/-- A step multiplies by `X` modulo the generator. -/
theorem poly_step (c : BitVec w) :
    poly (step g c) = X * poly c + if c.getLsbD 0 then X ^ w + poly g else 0 := by
  rw [X_mul_poly hw, step]
  cases c.getLsbD 0 with
  | false => simp
  | true =>
      rw [if_pos rfl, if_pos rfl, if_pos rfl, poly_xor]
      have hchar : (X ^ w + X ^ w : (ZMod 2)[X]) = 0 := CharTwo.add_self_eq_zero _
      linear_combination -hchar

/-- The register after the bits differs from the shifted start and the bits by a multiple of
the generator. -/
theorem serial_congr (c : BitVec w) (bits : List Bool) :
    ∃ q, poly (serial g c bits) + (X ^ w + poly g) * q =
      X ^ bits.length * poly c + X ^ w * message bits := by
  induction bits generalizing c with
  | nil => exact ⟨0, by simp [serial, message]⟩
  | cons b bits ih =>
      obtain ⟨q, hq⟩ := ih (step g (c ^^^ ofBit b))
      have hlead : X * poly (ofBit b : BitVec w) = if b then X ^ w else 0 := by
        rw [poly_ofBit hw, mul_ite, mul_zero, ← pow_succ', Nat.sub_add_cancel hw]
      have hfirst : X ^ w * (if b then X ^ bits.length else 0 : (ZMod 2)[X]) =
          X ^ bits.length * if b then X ^ w else 0 := by
        cases b
        · simp
        · exact mul_comm _ _
      -- The step takes the generator off or not; over two elements both are additions.
      have hoff : ∃ e, poly (step g (c ^^^ ofBit b)) =
          X * poly c + X * poly (ofBit b : BitVec w) + (X ^ w + poly g) * e := by
        rw [poly_step g hw, poly_xor, mul_add]
        split
        · exact ⟨1, by rw [mul_one]⟩
        · exact ⟨0, by rw [mul_zero]⟩
      obtain ⟨e, he⟩ := hoff
      refine ⟨q - X ^ bits.length * e, ?_⟩
      rw [he, hlead] at hq
      rw [serial_cons, message, List.length_cons, mul_add, hfirst]
      linear_combination hq

/-- The register after the bits is the remainder. -/
theorem poly_serial (c : BitVec w) (bits : List Bool) :
    poly (serial g c bits) =
      (X ^ bits.length * poly c + X ^ w * message bits) %ₘ (X ^ w + poly g) := by
  have hmonic : (X ^ w + poly g : (ZMod 2)[X]).Monic := monic_X_pow_add (degree_poly_lt g)
  have hdegree : (X ^ w + poly g : (ZMod 2)[X]).degree = w := by
    rw [degree_add_eq_left_of_degree_lt]
    · exact degree_X_pow w
    · rw [degree_X_pow]
      exact degree_poly_lt g
  obtain ⟨q, hq⟩ := serial_congr g hw c bits
  exact (div_modByMonic_unique q _ hmonic ⟨hq, hdegree.symm ▸ degree_poly_lt _⟩).2.symm

end Polynomials

end Crc
