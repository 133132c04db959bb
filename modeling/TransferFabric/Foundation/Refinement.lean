import Mathlib.Logic.Basic

/-!
Refinement of a machine by what it answers. A machine takes inputs one at a time
and answers each; a specification says which answers are right in which abstract
state. If the states of the two can be kept related, everything the machine ever
answers is right. The relation may depend on how many inputs have been taken, so
that counters of a fixed width can be related for as long as they do not wrap.
-/

namespace Refinement

variable {S T I O : Type} {step : S → I → O × S} {spec : T → I → O → T → Prop}

/-- The inputs with their answers, and where the machine ends. -/
def run (step : S → I → O × S) (s : S) : List I → List (I × O) × S
  | [] => ([], s)
  | i :: is =>
      let rest := run step (step s i).2 is
      ((i, (step s i).1) :: rest.1, rest.2)

inductive Accepts (spec : T → I → O → T → Prop) : T → List (I × O) → T → Prop
  | nil (t : T) : Accepts spec t [] t
  | cons {t t' t'' : T} {i : I} {o : O} {log : List (I × O)} (head : spec t i o t')
      (rest : Accepts spec t' log t'') : Accepts spec t ((i, o) :: log) t''

theorem simulates {R : Nat → S → T → Prop} {n : Nat}
    (hstep : ∀ k < n, ∀ s t i, R k s t →
      ∃ t', spec t i (step s i).1 t' ∧ R (k + 1) (step s i).2 t')
    (is : List I) {k : Nat} {s : S} {t : T} (hk : k + is.length ≤ n) (h : R k s t) :
    ∃ t', Accepts spec t (run step s is).1 t' ∧ R (k + is.length) (run step s is).2 t' := by
  induction is generalizing k s t with
  | nil => exact ⟨t, .nil t, h⟩
  | cons i is ih =>
      rw [List.length_cons] at hk
      obtain ⟨t', hhead, hR⟩ := hstep k (by omega) s t i h
      obtain ⟨t'', hrest, hR'⟩ := ih (by omega) hR
      refine ⟨t'', .cons hhead hrest, ?_⟩
      rwa [List.length_cons, Nat.add_comm is.length, ← Nat.add_assoc]

/-- What the empty log has and one more right answer keeps, every accepted log has. -/
theorem Accepts.invariant {P : List (I × O) → T → Prop} {t₀ t : T} {log : List (I × O)}
    (h : Accepts spec t₀ log t) (h₀ : P [] t₀)
    (hstep : ∀ log t i o t', P log t → spec t i o t' → P (log ++ [(i, o)]) t') : P log t := by
  suffices hall : ∀ pre, P pre t₀ → P (pre ++ log) t from hall [] h₀
  clear h₀
  induction h with
  | nil t =>
      intro pre hpre
      rwa [List.append_nil]
  | cons head rest ih =>
      intro pre hpre
      rw [List.append_cons]
      exact ih _ (hstep pre _ _ _ _ hpre head)

theorem run_concat (s : S) (is : List I) (i : I) :
    run step s (is ++ [i]) =
      ((run step s is).1 ++ [(i, (step (run step s is).2 i).1)], (step (run step s is).2 i).2) := by
  induction is generalizing s with
  | nil => rfl
  | cons j is ih => simp only [List.cons_append, run, ih]

/-! Logs. -/

section Logs

variable {E : Type} {made : E} {undone : E → Prop} {log : List E}

/-- The event happened, and nothing that undoes it has happened since. -/
def Stands (made : E) (undone : E → Prop) (log : List E) : Prop :=
  ∃ before since, log = before ++ made :: since ∧ ∀ ev ∈ since, ¬ undone ev

theorem not_stands_nil : ¬ Stands made undone [] := by
  rintro ⟨before, since, h, -⟩
  exact List.append_ne_nil_of_right_ne_nil _ (List.cons_ne_nil _ _) h.symm

theorem stands_concat (ev : E) :
    Stands made undone (log ++ [ev]) ↔ Stands made undone log ∧ ¬ undone ev ∨ ev = made := by
  constructor
  · rintro ⟨before, since, heq, hkept⟩
    rcases List.eq_nil_or_concat since with rfl | ⟨since, last, rfl⟩
    · exact Or.inr (List.cons.inj (List.append_inj' heq rfl).2).1
    · rw [List.concat_eq_append] at heq hkept
      rw [← List.cons_append, ← List.append_assoc] at heq
      obtain ⟨hlog, hlast⟩ := List.append_inj' heq rfl
      obtain rfl := (List.cons.inj hlast).1
      exact Or.inl ⟨⟨before, since, hlog, fun e he => hkept e (List.mem_append_left _ he)⟩,
        hkept ev (List.mem_append_right _ List.mem_cons_self)⟩
  · rintro (⟨⟨before, since, rfl, hkept⟩, hev⟩ | rfl)
    · refine ⟨before, since ++ [ev], by simp, fun e he => ?_⟩
      rcases List.mem_append.mp he with he | he
      · exact hkept e he
      · rw [List.mem_singleton.mp he]
        exact hev
    · exact ⟨log, [], rfl, fun _ h => by cases h⟩

/-- What holds of the log before each occurrence of an event, one event later. -/
theorem forall_before_concat {P : List E → Prop} (ev : E) :
    (∀ before after, log ++ [ev] = before ++ made :: after → P before) ↔
      (∀ before after, log = before ++ made :: after → P before) ∧ (ev = made → P log) := by
  constructor
  · intro h
    refine ⟨fun before after heq => h before (after ++ [ev]) (by rw [heq]; simp), fun heq => ?_⟩
    exact h log [] (by rw [heq])
  · rintro ⟨hall, hlast⟩ before after heq
    rcases List.eq_nil_or_concat after with rfl | ⟨after, last, rfl⟩
    · obtain ⟨rfl, hev⟩ := List.append_inj' heq rfl
      exact hlast (List.cons.inj hev).1
    · rw [List.concat_eq_append, ← List.cons_append, ← List.append_assoc] at heq
      exact hall before after (List.append_inj' heq rfl).1

end Logs

end Refinement
