import Mathlib.Algebra.Order.BigOperators.Group.Finset
import Mathlib.Algebra.BigOperators.Intervals

/-!
Finite families of spans on the number line. A family tiles a region if every
position of the region lies in exactly one span and no other position lies in
any. When the sizes add up to the size of the region, even only modulo a bound
above it, tiling is the same as staying inside and apart.
-/

namespace Spans

structure Span where
  start : Nat
  size : Nat

def Span.Holds (s : Span) (x : Nat) : Prop := s.start ≤ x ∧ x < s.start + s.size

instance (s : Span) (x : Nat) : Decidable (s.Holds x) := inferInstanceAs (Decidable (_ ∧ _))

/-- No position lies in both. -/
def Span.Apart (s t : Span) : Prop := ∀ x, s.Holds x → ¬ t.Holds x

theorem Span.Apart.symm {s t : Span} (h : s.Apart t) : t.Apart s := fun x ht hs => h x hs ht

theorem Span.apart_iff (s t : Span) :
    s.Apart t ↔ s.size = 0 ∨ t.size = 0 ∨ s.start + s.size ≤ t.start ∨ t.start + t.size ≤ s.start := by
  constructor
  · intro h
    by_contra hne
    have := h (max s.start t.start) (by unfold Span.Holds; omega)
    unfold Span.Holds at this
    omega
  · intro h x hs ht
    unfold Span.Holds at hs ht
    omega

instance : DecidableRel Span.Apart := fun s t => decidable_of_iff' _ (s.apart_iff t)

/-- The empty span stays inside everything. -/
def Span.Inside (lo n : Nat) (s : Span) : Prop := s.size = 0 ∨ lo ≤ s.start ∧ s.start + s.size ≤ lo + n
  deriving Decidable

def multiplicity (l : List Span) (x : Nat) : Nat := l.countP fun s => decide (s.Holds x)

def total (l : List Span) : Nat := (l.map Span.size).sum

def Tiles (lo n : Nat) (l : List Span) : Prop :=
  ∀ x, multiplicity l x = if lo ≤ x ∧ x < lo + n then 1 else 0

section

variable {lo n : Nat} {s : Span} {l : List Span}

theorem multiplicity_cons (s : Span) (l : List Span) (x : Nat) :
    multiplicity (s :: l) x = multiplicity l x + if s.Holds x then 1 else 0 := by
  simp only [multiplicity, List.countP_cons, decide_eq_true_eq]

theorem multiplicity_pos {x : Nat} (hs : s ∈ l) (hx : s.Holds x) : 0 < multiplicity l x :=
  List.countP_pos_iff.mpr ⟨s, hs, decide_eq_true hx⟩

theorem multiplicity_le_one (h : l.Pairwise Span.Apart) (x : Nat) : multiplicity l x ≤ 1 := by
  induction l with
  | nil => exact Nat.zero_le _
  | cons s l ih =>
      obtain ⟨hs, hl⟩ := List.pairwise_cons.mp h
      rw [multiplicity_cons]
      split_ifs with hx
      · have hzero : multiplicity l x = 0 :=
          List.countP_eq_zero.mpr fun t ht => by simpa using hs t ht x hx
        omega
      · exact ih hl

theorem pairwise_apart (h : ∀ x, multiplicity l x ≤ 1) : l.Pairwise Span.Apart := by
  induction l with
  | nil => exact .nil
  | cons s l ih =>
      refine .cons (fun t ht x hx htx => ?_) (ih fun x => ?_)
      · have hle := h x
        rw [multiplicity_cons, if_pos hx] at hle
        have := multiplicity_pos ht htx
        omega
      · have hle := h x
        rw [multiplicity_cons] at hle
        omega

theorem Span.Inside.holds {x : Nat} (h : s.Inside lo n) (hx : s.Holds x) : lo ≤ x ∧ x < lo + n := by
  unfold Span.Holds at hx
  rcases h with h | h <;> omega

theorem multiplicity_outside (h : ∀ s ∈ l, s.Inside lo n) {x : Nat} (hx : ¬ (lo ≤ x ∧ x < lo + n)) :
    multiplicity l x = 0 :=
  List.countP_eq_zero.mpr fun s hs => by
    rw [decide_eq_true_eq]
    exact fun hsx => hx ((h s hs).holds hsx)

/-- Counting the positions of a span. -/
private theorem sum_holds (h : s.Inside lo n) :
    ∑ x ∈ Finset.Ico lo (lo + n), (if s.Holds x then 1 else 0) = s.size := by
  have heq : (Finset.Ico lo (lo + n)).filter (fun x => s.Holds x) =
      Finset.Ico s.start (s.start + s.size) := by
    ext x
    simp only [Finset.mem_filter, Finset.mem_Ico]
    exact ⟨fun hx => hx.2, fun hx => ⟨h.holds hx, hx⟩⟩
  rw [← Finset.card_filter, heq, Nat.card_Ico, Nat.add_sub_cancel_left]

theorem sum_multiplicity (h : ∀ s ∈ l, s.Inside lo n) :
    ∑ x ∈ Finset.Ico lo (lo + n), multiplicity l x = total l := by
  induction l with
  | nil => exact Finset.sum_eq_zero fun _ _ => rfl
  | cons s l ih =>
      obtain ⟨hs, hl⟩ := List.forall_mem_cons.mp h
      simp only [multiplicity_cons, Finset.sum_add_distrib, ih hl, sum_holds hs]
      rw [total, total, List.map_cons, List.sum_cons, Nat.add_comm]

private theorem sum_ones (lo n : Nat) : ∑ _x ∈ Finset.Ico lo (lo + n), 1 = n := by
  rw [← Finset.card_eq_sum_ones, Nat.card_Ico, Nat.add_sub_cancel_left]

/-- Spans that stay inside and apart are not larger together than the region. -/
theorem total_le (hin : ∀ s ∈ l, s.Inside lo n) (hap : l.Pairwise Span.Apart) : total l ≤ n := by
  rw [← sum_multiplicity hin]
  exact (Finset.sum_le_sum fun x _ => multiplicity_le_one hap x).trans (sum_ones lo n).le

/-- Spans that stay inside and apart and have the right total leave no gap. -/
theorem tiles_of_apart {m : Nat} (hn : n < m) (htotal : total l % m = n % m)
    (hin : ∀ s ∈ l, s.Inside lo n) (hap : l.Pairwise Span.Apart) : Tiles lo n l := by
  have hle : ∀ x ∈ Finset.Ico lo (lo + n), multiplicity l x ≤ 1 :=
    fun x _ => multiplicity_le_one hap x
  have hn' : total l ≤ n := total_le hin hap
  have heq : total l = n := by
    rwa [Nat.mod_eq_of_lt (by omega), Nat.mod_eq_of_lt hn] at htotal
  have hall := (Finset.sum_eq_sum_iff_of_le hle).mp
    ((sum_multiplicity hin).trans (heq.trans (sum_ones lo n).symm))
  intro x
  split_ifs with hx
  · exact hall x (Finset.mem_Ico.mpr hx)
  · exact multiplicity_outside hin hx

theorem Tiles.inside (h : Tiles lo n l) (hs : s ∈ l) : s.Inside lo n := by
  by_cases hsize : s.size = 0
  · exact .inl hsize
  have hrange : ∀ x, s.Holds x → lo ≤ x ∧ x < lo + n := by
    intro x hx
    by_contra hout
    have := multiplicity_pos hs hx
    rw [h x, if_neg hout] at this
    omega
  have hfirst := hrange s.start ⟨by omega, by omega⟩
  have hlast := hrange (s.start + s.size - 1) ⟨by omega, by omega⟩
  exact .inr (by omega)

theorem Tiles.apart (h : Tiles lo n l) : l.Pairwise Span.Apart :=
  pairwise_apart fun x => by
    rw [h x]
    split <;> omega

theorem tiles_iff {m : Nat} (hn : n < m) (htotal : total l % m = n % m) :
    Tiles lo n l ↔ (∀ s ∈ l, s.Inside lo n) ∧ l.Pairwise Span.Apart :=
  ⟨fun h => ⟨fun _ hs => h.inside hs, h.apart⟩, fun h => tiles_of_apart hn htotal h.1 h.2⟩

end

end Spans
