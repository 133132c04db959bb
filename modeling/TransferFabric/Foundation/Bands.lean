import Mathlib.Data.List.Basic
import Mathlib.Logic.Function.Basic

/-!
A stable priority queue and its representation by one queue per priority. The
queue is the list of its items in the order of arrival; the item to be served is
the first among those with the highest key. Kept in one list per key, it is the
head of the last list that is not empty.
-/

namespace Bands

variable {α : Type} {key : α → Nat} {bands : Nat → List α} {pending pending' : List α}

/-- `a` is the next item to be served, and serving it leaves `pending'`. -/
def Served (key : α → Nat) (pending : List α) (a : α) (pending' : List α) : Prop :=
  ∃ before after, pending = before ++ a :: after ∧ pending' = before ++ after ∧
    (∀ b ∈ before, key b < key a) ∧ ∀ b ∈ after, key b ≤ key a

theorem Served.perm {a : α} (h : Served key pending a pending') :
    pending.Perm (a :: pending') := by
  obtain ⟨before, after, rfl, rfl, -, -⟩ := h
  exact List.perm_middle

/-- One list per key, each in the order of arrival. -/
def Banded (key : α → Nat) (bands : Nat → List α) (pending : List α) : Prop :=
  ∀ k, bands k = pending.filter fun a => decide (key a = k)

theorem Banded.push (h : Banded key bands pending) (a : α) :
    Banded key (Function.update bands (key a) (bands (key a) ++ [a])) (pending ++ [a]) := by
  intro k
  rw [List.filter_append, Function.update_apply]
  split_ifs with hk
  · subst hk
    rw [h, List.filter_cons_of_pos (by simp), List.filter_nil]
  · rw [h k, List.filter_cons_of_neg (by simpa using Ne.symm hk), List.filter_nil, List.append_nil]

theorem Banded.eq_nil_iff (h : Banded key bands pending) (k : Nat) :
    bands k = [] ↔ ∀ a ∈ pending, key a ≠ k := by
  rw [h k, List.filter_eq_nil_iff]
  simp

/-- The bands together hold what is pending. -/
theorem Banded.flatMap_perm (h : Banded key bands pending) {n : Nat}
    (hlt : ∀ a ∈ pending, key a < n) : ((List.range n).flatMap bands).Perm pending := by
  suffices hpart : ∀ m, ((List.range m).flatMap bands).Perm
      (pending.filter fun a => decide (key a < m)) by
    refine (hpart n).trans (List.Perm.of_eq (List.filter_eq_self.mpr ?_))
    simpa using hlt
  intro m
  induction m with
  | zero => simp
  | succ m ih =>
      rw [List.range_succ, List.flatMap_append, List.flatMap_singleton, h m]
      refine (ih.append_right _).trans ?_
      have hsplit := List.filter_append_perm (fun a => decide (key a < m))
        (pending.filter fun a => decide (key a < m + 1))
      rw [List.filter_filter, List.filter_filter] at hsplit
      refine List.Perm.trans (List.Perm.of_eq ?_) hsplit
      congr 1 <;> refine List.filter_congr fun a _ => ?_
      · simp only [← Bool.decide_and, decide_eq_decide]
        omega
      · simp only [← decide_not, ← Bool.decide_and, decide_eq_decide]
        omega

/-- The head of the highest band that is not empty is served next. -/
theorem Banded.take (h : Banded key bands pending) {k : Nat} {a : α} {rest : List α}
    (hk : bands k = a :: rest) (hhigh : ∀ k' > k, bands k' = []) :
    ∃ pending', Served key pending a pending' ∧
      Banded key (Function.update bands k rest) pending' := by
  have hfilter : pending.filter (fun b => decide (key b = k)) = a :: rest := (h k).symm.trans hk
  obtain ⟨before, after, rfl, hbefore, hkey, hafter⟩ := List.filter_eq_cons_iff.mp hfilter
  have hkey : key a = k := by simpa using hkey
  subst hkey
  have hle : ∀ b ∈ before ++ a :: after, key b ≤ key a := by
    intro b hb
    by_contra hlt
    exact (h.eq_nil_iff (key b)).mp (hhigh (key b) (Nat.lt_of_not_le hlt)) b hb rfl
  refine ⟨before ++ after, ⟨before, after, rfl, rfl, fun b hb => ?_, fun b hb => ?_⟩, fun k' => ?_⟩
  · have hne : key b ≠ key a := by simpa using hbefore b hb
    have := hle b (List.mem_append_left _ hb)
    omega
  · exact hle b (List.mem_append_right _ (List.mem_cons_of_mem _ hb))
  · rw [Function.update_apply]
    split_ifs with hk'
    · subst hk'
      have hnone : before.filter (fun b => decide (key b = key a)) = [] :=
        List.filter_eq_nil_iff.mpr hbefore
      rw [List.filter_append, hnone, List.nil_append, hafter]
    · rw [h k', List.filter_append, List.filter_append,
        List.filter_cons_of_neg (by simpa using Ne.symm hk')]

end Bands
