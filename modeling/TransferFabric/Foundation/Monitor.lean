import TransferFabric.Foundation.Transition
import Mathlib.Data.Set.Card

/-!
Condition variables. A model in which a thread waits "until the condition holds"
speaks of atomic steps: the wait is over when the thread takes its next step. A
condition variable works differently. A thread that finds its condition false
falls asleep, sleepers are woken by the steps that notify them or for no reason at
all, and whoever was not notified sleeps on, whether or not the condition holds.

The two agree if every step that ends a wait notifies the waiter. Then sleepers are
always blocked, so that no wake-up is lost, and what can happen with sleeping
threads is what can happen in the atomic system.
-/

namespace Transition

open Relation

variable {S T : Type}

/-- Actors that take atomic steps, which of them have to wait, and whom a step wakes. -/
structure Monitor (S T : Type) where
  step : T → S → S → Prop
  Blocked : T → S → Prop
  wakes : T → S → S → T → Prop

namespace Monitor

variable (m : Monitor S T)

def Moves (s s' : S) : Prop := ∃ t, m.step t s s'

/-- In the states of `I` waits end by steps that notify. -/
structure Notifies (I : S → Prop) : Prop where
  keeps : ∀ {s s' t}, I s → m.step t s s' → I s'
  waits : ∀ {s s' t}, I s → m.Blocked t s → ¬ m.step t s s'
  wakes : ∀ {s s' t u}, I s → m.Blocked t s → m.step u s s' → m.Blocked t s' ∨ m.wakes u s s' t

end Monitor

/-- A state with the actors that are asleep. -/
structure Sleepy (S T : Type) where
  state : S
  asleep : Set T

namespace Monitor

variable (m : Monitor S T)

/-- The state and the sleepers after the step of an actor. -/
def rouse (x : Sleepy S T) (t : T) (s : S) : Sleepy S T :=
  ⟨s, { u ∈ x.asleep | ¬ m.wakes t x.state s u }⟩

inductive Step : Sleepy S T → Sleepy S T → Prop
  | move {x : Sleepy S T} {t : T} {s : S} (awake : t ∉ x.asleep) (h : m.step t x.state s) :
      Step x (m.rouse x t s)
  | doze {x : Sleepy S T} {t : T} (awake : t ∉ x.asleep) (h : m.Blocked t x.state) :
      Step x ⟨x.state, insert t x.asleep⟩
  /-- Somebody wakes up for no reason. -/
  | stir {x : Sleepy S T} (t : T) : Step x ⟨x.state, x.asleep \ {t}⟩

/-- No wake-up was lost. -/
def Punctual (x : Sleepy S T) : Prop := ∀ t ∈ x.asleep, m.Blocked t x.state

variable {m} {I : S → Prop} {x y : Sleepy S T} {s s' : S} {t : T}

theorem Notifies.move (h : m.Notifies I) (hI : I x.state) (hx : m.Punctual x)
    (hs : m.step t x.state s) : m.Punctual (m.rouse x t s) := by
  intro u hu
  obtain ⟨hasleep, hnot⟩ := hu
  exact (h.wakes hI (hx u hasleep) hs).resolve_right hnot

theorem Notifies.punctual_step (h : m.Notifies I) (hI : I x.state) (hx : m.Punctual x)
    (hs : m.Step x y) : I y.state ∧ m.Punctual y := by
  cases hs with
  | move awake hs => exact ⟨h.keeps hI hs, h.move hI hx hs⟩
  | doze awake hblocked =>
      refine ⟨hI, fun u hu => ?_⟩
      rcases Set.mem_insert_iff.mp hu with rfl | hu
      · exact hblocked
      · exact hx u hu
  | stir t => exact ⟨hI, fun u hu => hx u hu.1⟩

/-- Sleepers are blocked. -/
theorem Notifies.punctual (h : m.Notifies I) (hI : I s) (hr : ReflTransGen m.Step ⟨s, ∅⟩ x) :
    I x.state ∧ m.Punctual x := by
  induction hr with
  | refl => exact ⟨hI, fun _ ht => by cases ht⟩
  | tail _ hs ih => exact h.punctual_step ih.1 ih.2 hs

/-- As long as nobody falls asleep the two systems do the same. -/
theorem awake (hr : ReflTransGen m.Moves s s') :
    ReflTransGen m.Step ⟨s, ∅⟩ ⟨s', ∅⟩ := by
  induction hr with
  | refl => exact .refl
  | @tail u v _ hs ih =>
      obtain ⟨t, hs⟩ := hs
      have hstep := Step.move (x := ⟨u, ∅⟩) (Set.notMem_empty t) hs
      rw [rouse, Set.sep_empty] at hstep
      exact ih.tail hstep

/-- What can happen in the atomic system can happen whoever sleeps. -/
theorem Notifies.possible (h : m.Notifies I) (hI : I x.state) (hx : m.Punctual x)
    (hs : m.step t x.state s) : m.Step x (m.rouse x t s) :=
  .move (fun hasleep => h.waits hI (hx t hasleep) hs) hs

/-! Runs in which nobody wakes up for no reason. -/

variable (m) in
/-- The actors that pass the test go on, and blocked ones fall asleep. -/
inductive Patient (test : T → Prop) : Sleepy S T → Sleepy S T → Prop
  | move {x : Sleepy S T} {t : T} {s : S} (awake : t ∉ x.asleep) (ht : test t)
      (h : m.step t x.state s) : Patient test x (m.rouse x t s)
  | doze {x : Sleepy S T} {t : T} (awake : t ∉ x.asleep) (h : m.Blocked t x.state) :
      Patient test x ⟨x.state, insert t x.asleep⟩

variable {test : T → Prop} {P : S → Prop}

/-- Who can still fall asleep. -/
def yawning (m : Monitor S T) (x : Sleepy S T) : Set T := { t | m.Blocked t x.state } \ x.asleep

theorem yawning_doze (hfinite : { t | m.Blocked t x.state }.Finite) (awake : t ∉ x.asleep)
    (h : m.Blocked t x.state) :
    (m.yawning ⟨x.state, insert t x.asleep⟩).ncard < (m.yawning x).ncard := by
  refine Set.ncard_lt_ncard ⟨fun u hu => ⟨hu.1, fun hmem => hu.2 (Or.inr hmem)⟩, fun hsub => ?_⟩
    (hfinite.subset Set.sdiff_subset)
  exact (hsub ⟨h, awake⟩).2 (Or.inl rfl)

/-- What the atomic system must come to, the system with sleepers must come to, and then
everybody who has to wait is asleep. -/
theorem Notifies.settles (h : m.Notifies I) (hfinite : ∀ s, I s → { t | m.Blocked t s }.Finite)
    (hrest : Inevitable (fun s s' => ∃ t, test t ∧ m.step t s s') P s) (hI : I s)
    (hx : m.Punctual x) (hstate : x.state = s) :
    Inevitable (m.Patient test) (fun y => P y.state ∧ ∀ t, m.Blocked t y.state → t ∈ y.asleep)
      x := by
  induction hrest generalizing x with
  | @stop s stuck good =>
      refine .of_measure (I := fun y => y.state = s ∧ m.Punctual y)
        (fun y => (m.yawning y).ncard) ?_ ?_ ⟨hstate, hx⟩
      · intro y z hy hs
        obtain ⟨rfl, hpunctual⟩ := hy
        cases hs with
        | move awake ht hs => exact absurd ⟨_, ht, hs⟩ (stuck _)
        | doze awake hblocked =>
            exact ⟨⟨rfl, (h.punctual_step hI hpunctual (.doze awake hblocked)).2⟩,
              yawning_doze (hfinite _ hI) awake hblocked⟩
      · intro y hy hstuck
        obtain ⟨rfl, -⟩ := hy
        refine ⟨good, fun t hblocked => ?_⟩
        by_contra hawake
        exact hstuck _ (.doze hawake hblocked)
  | @next s enabled all ih =>
      obtain ⟨s', t, ht, hs⟩ := enabled
      -- as long as nothing moves, fewer and fewer can fall asleep
      induction hn : (m.yawning x).ncard using Nat.strongRecOn generalizing x with
      | ind n ihn =>
          subst hstate
          refine .next ⟨_, .move (fun hasleep => h.waits hI (hx t hasleep) hs) ht hs⟩ fun y hy => ?_
          cases hy with
          | move awake ht hs => exact ih _ ⟨_, ht, hs⟩ (h.keeps hI hs) (h.move hI hx hs) rfl
          | doze awake hblocked =>
              exact ihn _ (hn ▸ yawning_doze (hfinite _ hI) awake hblocked)
                (h.punctual_step hI hx (.doze awake hblocked)).2 rfl rfl

end Monitor

end Transition
