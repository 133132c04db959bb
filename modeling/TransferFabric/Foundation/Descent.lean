import Mathlib.Logic.Hydra
import Mathlib.Tactic.Abel
import TransferFabric.Foundation.Threads
import TransferFabric.Foundation.Transition

/-!
Why runs end. A program becomes one of its continuations with every answer, and a
program is a tree without infinite branches, so no thread goes on for ever. How
many answers it takes is not bounded, since answers may be of any size; the order
is therefore one on the collection of threads and not a number.

In that order an entry may be replaced by any number of smaller ones. A thread
that hands work to another is covered, if the work counts less than the thread.
-/

namespace Transition

variable {S : Type} {step : S → S → Prop} {P : S → Prop} {s : S}

/-- Every run from a good state ends well if its steps lead to good states and descend, and
good states without a step have the property. -/
theorem Inevitable.of_wellFounded {I : S → Prop} {descends : S → S → Prop}
    (hwf : WellFounded descends) (hstep : ∀ s t, I s → step s t → I t ∧ descends t s)
    (hstuck : ∀ s, I s → (∀ t, ¬ step s t) → P s) (h : I s) : Inevitable step P s := by
  induction s using hwf.induction with
  | _ s ih =>
      by_cases henabled : ∃ t, step s t
      · refine .next henabled fun t ht => ?_
        obtain ⟨hI, hdown⟩ := hstep s t h ht
        exact ih t hdown hI
      · have hnone := not_exists.mp henabled
        exact .stop hnone (hstuck s h hnone)

theorem Inevitable.mono {Q : S → Prop} (h : Inevitable step P s) (hPQ : ∀ t, P t → Q t) :
    Inevitable step Q s := by
  induction h with
  | stop stuck good => exact .stop stuck (hPQ _ good)
  | next enabled _ ih => exact .next enabled ih

end Transition

namespace Interaction

open Relation

variable {S : Signature} {α β : Type}

/-- The first program is what the second goes on with after an answer. -/
def Continues (p q : Prog S α) : Prop := ∃ c next x, q = .call c next ∧ p = next x

theorem continues_wellFounded : WellFounded (Continues (S := S) (α := α)) := by
  refine ⟨fun q => ?_⟩
  induction q with
  | done a =>
      refine .intro _ fun p h => ?_
      obtain ⟨c, next, x, hq, -⟩ := h
      cases hq
  | call c next ih =>
      refine .intro _ fun p h => ?_
      obtain ⟨c', next', x, hq, rfl⟩ := h
      cases hq
      exact ih x

/-- Replacing an entry of a list exchanges it for the new one. -/
theorem coe_set_add {l : List β} {i : Nat} {a : β} (h : l[i]? = some a) (b : β) :
    (↑(l.set i b) : Multiset β) + {a} = ↑l + {b} := by
  obtain ⟨hi, rfl⟩ := List.getElem?_eq_some_iff.mp h
  have hset := Multiset.coe_eq_coe.mpr (List.set_perm_cons_eraseIdx hi b)
  have hold := Multiset.coe_eq_coe.mpr (List.getElem_cons_eraseIdx_perm hi)
  rw [hset, ← hold, ← Multiset.cons_coe, ← Multiset.cons_coe, ← Multiset.singleton_add,
    ← Multiset.singleton_add]
  abel

/-- An entry of a list is replaced by a smaller one, and smaller ones are added beside it. -/
theorem cutExpand_set {r : β → β → Prop} {l : List β} {i : Nat} {a b : β}
    (h : l[i]? = some a) (hb : r b a) {rest more : Multiset β} (hmore : ∀ y ∈ more, r y a) :
    CutExpand r (↑(l.set i b) + (rest + more)) (↑l + rest) := by
  refine ⟨{b} + more, a, fun y hy => ?_, ?_⟩
  · rcases Multiset.mem_add.mp hy with hy | hy
    · rwa [Multiset.mem_singleton.mp hy]
    · exact hmore y hy
  · calc ↑(l.set i b) + (rest + more) + {a}
        = ↑(l.set i b) + {a} + (rest + more) := by abel
      _ = ↑l + {b} + (rest + more) := by rw [coe_set_add h b]
      _ = ↑l + rest + ({b} + more) := by abel

end Interaction
