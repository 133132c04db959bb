import Mathlib.Logic.Function.Basic
import Mathlib.Order.MinMax

/-!
High-water marks. A meter has a value that moves as it likes and a mark that is
raised by readers: a reader takes the value, and later leaves with the mark no
lower than what it took. Readers overlap in any way.

When no reader is under way, the mark is the highest value that was read. Whether
that is the highest value there was is not for the meter to say.
-/

namespace HighWater

variable {α : Type} [LinearOrder α]

structure Meter (α : Type) where
  value : α
  mark : α
  held : List α
  seen : List α
  taken : Nat → Option α

inductive Meter.Step : Meter α → Meter α → Prop
  | still (m : Meter α) : Step m m
  | move (m : Meter α) (v : α) : Step m { m with value := v, held := v :: m.held }
  | take (m : Meter α) (i : Nat) (hi : m.taken i = none) :
      Step m { m with
        seen := m.value :: m.seen, taken := Function.update m.taken i (some m.value) }
  | leave (m : Meter α) (i : Nat) (a : α) (hi : m.taken i = some a) :
      Step m { m with mark := max m.mark a, taken := Function.update m.taken i none }

/-- A meter that nobody has read. -/
def Meter.start (v : α) : Meter α :=
  { value := v, mark := v, held := [v], seen := [], taken := fun _ => none }

/-- What was read has been held, the mark was read, and what was read is marked or still in the
hands of a reader. -/
structure Meter.Sound (v : α) (m : Meter α) : Prop where
  first : v ∈ m.held
  value : m.value ∈ m.held
  seen : ∀ a ∈ m.seen, a ∈ m.held
  mark : m.mark = v ∨ m.mark ∈ m.seen
  taken : ∀ i a, m.taken i = some a → a ∈ m.seen
  covered : ∀ a ∈ m.seen, a ≤ m.mark ∨ ∃ i, m.taken i = some a

variable {v : α} {m m' : Meter α}

theorem Meter.Sound.step (h : m.Sound v) (hs : m.Step m') : m'.Sound v := by
  cases hs with
  | still => exact h
  | move w =>
      exact ⟨List.mem_cons_of_mem _ h.first, List.mem_cons_self,
        fun a ha => List.mem_cons_of_mem _ (h.seen a ha), h.mark, h.taken, h.covered⟩
  | take i hi =>
      refine ⟨h.first, h.value, List.forall_mem_cons.mpr ⟨h.value, h.seen⟩,
        h.mark.imp_right (List.mem_cons_of_mem _), fun j a hj => ?_,
        List.forall_mem_cons.mpr ⟨Or.inr ⟨i, Function.update_self ..⟩, fun a ha => ?_⟩⟩
      · dsimp only at hj
        rw [Function.update_apply] at hj
        split at hj
        · rw [Option.some.inj hj]
          exact List.mem_cons_self
        · exact List.mem_cons_of_mem _ (h.taken j a hj)
      · refine (h.covered a ha).imp_right fun ⟨j, hj⟩ => ⟨j, ?_⟩
        have hne : j ≠ i := fun heq => by rw [heq, hi] at hj; cases hj
        exact (Function.update_of_ne hne ..).trans hj
  | leave i a hi =>
      refine ⟨h.first, h.value, h.seen, ?_, fun j b hj => ?_, fun b hb => ?_⟩
      · show max m.mark a = v ∨ max m.mark a ∈ m.seen
        rcases max_choice m.mark a with hmax | hmax <;> rw [hmax]
        · exact h.mark
        · exact Or.inr (h.taken i a hi)
      · dsimp only at hj
        rw [Function.update_apply] at hj
        split at hj
        · cases hj
        · exact h.taken j b hj
      · rcases h.covered b hb with hle | ⟨j, hj⟩
        · exact Or.inl (le_trans hle (le_max_left _ _))
        · by_cases hji : j = i
          · rw [hji, hi] at hj
            exact Or.inl (Option.some.inj hj ▸ le_max_right _ _)
          · exact Or.inr ⟨j, (Function.update_of_ne hji ..).trans hj⟩

theorem Meter.sound_start (v : α) : (Meter.start v).Sound v where
  first := List.mem_singleton_self v
  value := List.mem_singleton_self v
  seen := fun _ ha => by cases ha
  mark := Or.inl rfl
  taken := fun _ _ h => by cases h
  covered := fun _ ha => by cases ha

/-- The mark is a value that was held. -/
theorem Meter.Sound.mark_held (h : m.Sound v) : m.mark ∈ m.held := by
  rcases h.mark with hmark | hmark
  · exact hmark ▸ h.first
  · exact h.seen _ hmark

/-- With no reader under way, the mark is above everything held exactly if the start is, or
something that was read. -/
theorem Meter.Sound.peak_iff (h : m.Sound v) (hv : v ≤ m.mark) (hquiet : ∀ i, m.taken i = none) :
    (∀ x ∈ m.held, x ≤ m.mark) ↔
      (∀ x ∈ m.held, x ≤ v) ∨ ∃ a ∈ m.seen, ∀ x ∈ m.held, x ≤ a := by
  constructor
  · intro hall
    rcases h.mark with hmark | hmark
    · exact Or.inl (hmark ▸ hall)
    · exact Or.inr ⟨m.mark, hmark, hall⟩
  · rintro (hall | ⟨a, ha, hall⟩) x hx
    · exact le_trans (hall x hx) hv
    · rcases h.covered a ha with hle | ⟨i, hi⟩
      · exact le_trans (hall x hx) hle
      · rw [hquiet i] at hi
        cases hi

end HighWater
