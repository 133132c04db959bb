import Mathlib.Algebra.Ring.Nat
import Mathlib.Data.List.Induction
import Mathlib.Tactic.Common
import Mathlib.Tactic.Ring

/-!
Bit strings, most significant bit first, and the numbers they write; byte
strings as bit strings; and the cutting of a list into blocks of one size, with
what is left over. Blocks are addressed by their index, so that a block of
bytes and the block of its bits can be compared.
-/

namespace Bits

/-- The number a bit string writes. -/
def value (l : List Bool) : Nat := l.foldl (fun n b => 2 * n + b.toNat) 0

/-- The `w` least significant bits of `n`. -/
def ofNat : Nat → Nat → List Bool
  | 0, _ => []
  | w + 1, n => ofNat w (n / 2) ++ [decide (n % 2 = 1)]

@[simp] theorem value_nil : value [] = 0 := rfl

theorem value_concat (l : List Bool) (b : Bool) : value (l ++ [b]) = 2 * value l + b.toNat := by
  simp [value]

@[simp] theorem length_ofNat (w n : Nat) : (ofNat w n).length = w := by
  induction w generalizing n with
  | zero => rfl
  | succ w ih => rw [ofNat, List.length_append, ih, List.length_singleton]

theorem value_append (l m : List Bool) : value (l ++ m) = value l * 2 ^ m.length + value m := by
  induction m using List.reverseRecOn with
  | nil => simp
  | append_singleton m b ih =>
      rw [← List.append_assoc, value_concat, value_concat, ih, List.length_append,
        List.length_singleton, Nat.pow_succ]
      ring

theorem value_ofNat (w n : Nat) : value (ofNat w n) = n % 2 ^ w := by
  induction w generalizing n with
  | zero => rw [Nat.pow_zero, Nat.mod_one]; rfl
  | succ w ih =>
      have hbit : (decide (n % 2 = 1)).toNat = n % 2 := by
        rcases Nat.mod_two_eq_zero_or_one n with h | h <;> rw [h] <;> rfl
      rw [ofNat, value_concat, ih, hbit, Nat.pow_succ', Nat.mod_mul, Nat.add_comm]

theorem ofNat_add (v w n : Nat) : ofNat (v + w) n = ofNat v (n / 2 ^ w) ++ ofNat w n := by
  induction w generalizing n with
  | zero => simp [ofNat]
  | succ w ih =>
      rw [← Nat.add_assoc, ofNat, ih, ofNat, List.append_assoc, Nat.div_div_eq_div_mul,
        ← Nat.pow_succ']

@[simp] theorem ofNat_mod (w n : Nat) : ofNat w (n % 2 ^ w) = ofNat w n := by
  induction w generalizing n with
  | zero => rfl
  | succ w ih =>
      have hhigh : n % 2 ^ (w + 1) / 2 = n / 2 % 2 ^ w := by
        rw [Nat.pow_succ', Nat.mod_mul_right_div_self]
      have hlow : n % 2 ^ (w + 1) % 2 = n % 2 :=
        Nat.mod_mod_of_dvd n (Dvd.intro_left (2 ^ w) (Nat.pow_succ 2 w).symm)
      rw [ofNat, ofNat, hhigh, hlow, ih]

/-- A number of whole bytes, byte by byte. -/
theorem ofNat_bytes (n x : Nat) :
    ofNat (8 * n) x = (List.range n).flatMap fun k => ofNat 8 (x / 2 ^ (8 * (n - 1 - k))) := by
  induction n with
  | zero => rfl
  | succ n ih =>
      rw [Nat.mul_succ, Nat.add_comm, ofNat_add, ih, List.range_succ_eq_map, List.flatMap_cons,
        List.flatMap_map]
      refine congrArg (fun f => _ ++ (List.range n).flatMap f) (funext fun k => ?_)
      rw [show n + 1 - 1 - k.succ = n - 1 - k by omega]

/-! Bytes. -/

def ofBytes (bs : List UInt8) : List Bool := bs.flatMap fun b => ofNat 8 b.toNat

@[simp] theorem ofBytes_nil : ofBytes [] = [] := rfl

theorem ofBytes_cons (b : UInt8) (bs : List UInt8) :
    ofBytes (b :: bs) = ofNat 8 b.toNat ++ ofBytes bs := rfl

theorem ofBytes_append (bs cs : List UInt8) : ofBytes (bs ++ cs) = ofBytes bs ++ ofBytes cs :=
  List.flatMap_append

@[simp] theorem length_ofBytes (bs : List UInt8) : (ofBytes bs).length = 8 * bs.length := by
  induction bs with
  | nil => rfl
  | cons b bs ih => rw [ofBytes_cons, List.length_append, ih, length_ofNat, List.length_cons]; ring

theorem ofBytes_replicate_zero (n : Nat) :
    ofBytes (List.replicate n 0) = List.replicate (8 * n) false := by
  induction n with
  | zero => rfl
  | succ n ih =>
      rw [List.replicate_succ, ofBytes_cons, ih, Nat.mul_succ, Nat.add_comm,
        ← List.replicate_append_replicate]
      rfl

theorem drop_ofBytes (bs : List UInt8) (i : Nat) :
    (ofBytes bs).drop (8 * i) = ofBytes (bs.drop i) := by
  induction i generalizing bs with
  | zero => rfl
  | succ i ih =>
      cases bs with
      | nil => simp
      | cons b bs =>
          have hbyte : (ofNat 8 b.toNat).drop (8 * (i + 1)) = [] :=
            List.drop_eq_nil_of_le (by rw [length_ofNat]; omega)
          rw [ofBytes_cons, List.drop_append, hbyte, length_ofNat, List.nil_append, List.drop_succ_cons,
            ← ih]
          rfl

theorem take_ofBytes (bs : List UInt8) (i : Nat) :
    (ofBytes bs).take (8 * i) = ofBytes (bs.take i) := by
  induction i generalizing bs with
  | zero => rfl
  | succ i ih =>
      cases bs with
      | nil => simp
      | cons b bs =>
          have hbyte : (ofNat 8 b.toNat).take (8 * (i + 1)) = ofNat 8 b.toNat :=
            List.take_of_length_le (by rw [length_ofNat]; omega)
          rw [ofBytes_cons, List.take_append, hbyte, length_ofNat, List.take_succ_cons, ofBytes_cons,
            ← ih]
          rfl

end Bits

/-! Blocks of one size. -/

namespace Blocks

variable {α : Type} (n : Nat) (l : List α)

def block (i : Nat) : List α := (l.drop (n * i)).take n

/-- The whole blocks at the head of the list. -/
def whole : List (List α) := (List.range (l.length / n)).map (block n l)

/-- What the whole blocks leave over. -/
def rest : List α := l.drop (n * (l.length / n))

variable {n l}

theorem length_rest : (rest n l).length = l.length % n := by
  rw [rest, List.length_drop, Nat.mod_def]

theorem flatten_blocks (k : Nat) : ((List.range k).map (block n l)).flatten = l.take (n * k) := by
  induction k with
  | zero => simp
  | succ k ih =>
      rw [List.range_succ, List.map_append, List.flatten_append, ih, List.map_singleton,
        List.flatten_singleton, Nat.mul_succ, List.take_add, block]

/-- Nothing is lost or reordered. -/
theorem flatten_whole_append_rest : (whole n l).flatten ++ rest n l = l := by
  rw [whole, flatten_blocks, rest, List.take_append_drop]

theorem length_of_mem_whole {b : List α} (h : b ∈ whole n l) : b.length = n := by
  obtain ⟨i, hi, rfl⟩ := List.mem_map.mp h
  have hlt := List.mem_range.mp hi
  have hn : 0 < n := Nat.pos_of_ne_zero fun h => by simp [h] at hlt
  have hle : n * (i + 1) ≤ l.length :=
    Nat.le_trans (Nat.mul_le_mul_left n hlt) (Nat.mul_div_le l.length n)
  rw [block, List.length_take, List.length_drop]
  rw [Nat.mul_succ] at hle
  omega

theorem block_append {i : Nat} (t : List α) (h : n * i + n ≤ l.length) :
    block n (l ++ t) i = block n l i := by
  rw [block, block, List.drop_append_of_le_length (by omega),
    List.take_append_of_le_length (by rw [List.length_drop]; omega)]

theorem map_block_append (t : List α) :
    (List.range (l.length / n)).map (block n (l ++ t)) = whole n l := by
  refine List.map_congr_left fun i hi => block_append t ?_
  have hle := Nat.le_trans (Nat.mul_le_mul_left n (List.mem_range.mp hi)) (Nat.mul_div_le l.length n)
  rwa [Nat.mul_succ] at hle

variable (b : α)

/-- An element that does not complete a block is added to what is left over. -/
theorem push_part (h : (rest n l).length + 1 < n) :
    whole n (l ++ [b]) = whole n l ∧ rest n (l ++ [b]) = rest n l ++ [b] := by
  rw [length_rest] at h
  have hmod := Nat.div_add_mod l.length n
  have hdiv : (l ++ [b]).length / n = l.length / n := by
    rw [List.length_append, List.length_singleton]
    refine Nat.div_eq_of_lt_le ?_ ?_
    · rw [Nat.mul_comm]
      omega
    · rw [Nat.succ_mul, Nat.mul_comm]
      omega
  refine ⟨?_, ?_⟩
  · rw [whole, hdiv, map_block_append]
  · rw [rest, hdiv, rest, List.drop_append_of_le_length (Nat.mul_div_le _ _)]

/-- An element that completes a block. -/
theorem push_full (h : (rest n l).length + 1 = n) :
    whole n (l ++ [b]) = whole n l ++ [rest n l ++ [b]] ∧ rest n (l ++ [b]) = [] := by
  have hlen := h
  rw [length_rest] at hlen
  have hmod := Nat.div_add_mod l.length n
  have hdiv : (l ++ [b]).length / n = l.length / n + 1 := by
    rw [List.length_append, List.length_singleton]
    refine Nat.div_eq_of_lt_le ?_ ?_
    · rw [Nat.succ_mul, Nat.mul_comm]
      omega
    · rw [Nat.succ_mul, Nat.succ_mul, Nat.mul_comm]
      omega
  refine ⟨?_, ?_⟩
  · have hlast : block n (l ++ [b]) (l.length / n) = rest n l ++ [b] := by
      rw [block, List.drop_append_of_le_length (Nat.mul_div_le _ _)]
      exact List.take_of_length_le (by rw [List.length_append]; exact Nat.le_of_eq h)
    rw [whole, hdiv, List.range_succ, List.map_append, map_block_append, List.map_singleton, hlast]
  · rw [rest, hdiv]
    refine List.drop_eq_nil_of_le ?_
    rw [List.length_append, List.length_singleton, Nat.mul_succ]
    omega

end Blocks
