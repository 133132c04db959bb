import Mathlib.Logic.Relation

/-!
Transition systems. A property is inevitable from a state if every run from
there is finite and the states in which runs end all have it. A system driven by
events is a total step function; its runs are the lists of events each of which
is allowed in the state it meets.
-/

namespace Transition

open Relation

variable {S : Type} {step : S → S → Prop} {P : S → Prop} {s t : S}

inductive Inevitable (step : S → S → Prop) (P : S → Prop) : S → Prop where
  | stop {s : S} (stuck : ∀ t, ¬ step s t) (good : P s) : Inevitable step P s
  | next {s : S} (enabled : ∃ t, step s t) (all : ∀ t, step s t → Inevitable step P t) :
      Inevitable step P s

/-- A state in which a run can end has the property. -/
theorem Inevitable.of_stuck (h : Inevitable step P s) (hr : ReflTransGen step s t)
    (hstuck : ∀ u, ¬ step t u) : P t := by
  induction h with
  | @stop s stuck good =>
      rcases hr.cases_head with rfl | ⟨u, hstep, -⟩
      · exact good
      · exact absurd hstep (stuck u)
  | @next s enabled all ih =>
      rcases hr.cases_head with rfl | ⟨u, hstep, hrest⟩
      · obtain ⟨u, hu⟩ := enabled
        exact absurd hu (hstuck u)
      · exact ih u hstep hrest

/-- Every run from a good state ends well if its steps lead to good states and lower a measure,
and good states without a step have the property. -/
theorem Inevitable.of_measure {I : S → Prop} (μ : S → Nat)
    (hstep : ∀ s t, I s → step s t → I t ∧ μ t < μ s)
    (hstuck : ∀ s, I s → (∀ t, ¬ step s t) → P s) (h : I s) : Inevitable step P s := by
  induction hn : μ s using Nat.strongRecOn generalizing s with
  | ind n ih =>
      by_cases henabled : ∃ t, step s t
      · refine .next henabled fun t ht => ?_
        obtain ⟨hI, hlt⟩ := hstep s t h ht
        exact ih (μ t) (hn ▸ hlt) hI rfl
      · have hnone := not_exists.mp henabled
        exact .stop hnone (hstuck s h hnone)

section Events

variable {S E : Type} (next : S → E → S)

/-- Each event of a run with the state it meets. -/
def trace : S → List E → List (S × E)
  | _, [] => []
  | s, e :: es => (s, e) :: trace (next s e) es

theorem trace_append (s : S) (es es' : List E) :
    trace next s (es ++ es') = trace next s es ++ trace next (es.foldl next s) es' := by
  induction es generalizing s with
  | nil => rfl
  | cons e es ih => exact congrArg ((s, e) :: ·) (ih (next s e))

variable {next} {allows fair : S → E → Prop} {I good : S → Prop} {s : S} {es : List E}

theorem foldl_invariant (I : S → Prop) (allows : S → E → Prop)
    (hstep : ∀ s e, I s → allows s e → I (next s e))
    (hI : I s) (hrun : ∀ x ∈ trace next s es, allows x.1 x.2) : I (es.foldl next s) := by
  induction es generalizing s with
  | nil => exact hI
  | cons e es ih =>
      obtain ⟨hfirst, hrest⟩ := List.forall_mem_cons.mp hrun
      exact ih (hstep s e hI hfirst) hrest

/-- What is lost exactly by unfair steps, and then for good, is kept exactly by fair runs. -/
theorem foldl_good_iff (hstep : ∀ s e, I s → allows s e → I (next s e))
    (hgood : ∀ s e, I s → allows s e → (good (next s e) ↔ good s ∧ fair s e)) (hI : I s)
    (hrun : ∀ x ∈ trace next s es, allows x.1 x.2) :
    good (es.foldl next s) ↔ good s ∧ ∀ x ∈ trace next s es, fair x.1 x.2 := by
  induction es generalizing s with
  | nil => exact ⟨fun h => ⟨h, fun _ hx => by cases hx⟩, And.left⟩
  | cons e es ih =>
      obtain ⟨hfirst, hrest⟩ := List.forall_mem_cons.mp hrun
      rw [List.foldl_cons, ih (hstep s e hI hfirst) hrest, hgood s e hI hfirst, trace,
        List.forall_mem_cons, and_assoc]

end Events

end Transition
