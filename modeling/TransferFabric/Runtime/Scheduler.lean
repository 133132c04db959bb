import TransferFabric.Core.Types
import Mathlib.Logic.Function.Basic
import Mathlib.Data.List.Perm.Basic
import Mathlib.Data.List.Nodup

/-!
The scheduler's queue: ten bands of tasks behind one lock, bounded in number and
served from the highest band that has one. A task is known by the transfer it
drives. Which tasks are stored is all that the modules above need; that storing
and taking one changes the stored tasks by exactly that task is proved here.
-/

namespace TransferFabric

/-- Two ways to fill the positions of a list that differ at one position only. -/
theorem flatMap_perm_at {α β : Type} [DecidableEq α] {l : List α} {a : α} {f g : α → List β}
    (hl : l.Nodup) (ha : a ∈ l) (hfg : ∀ b, b ≠ a → g b = f b) :
    ∃ rest, List.Perm (l.flatMap f) (f a ++ rest) ∧ List.Perm (l.flatMap g) (g a ++ rest) := by
  have hperm := List.perm_cons_erase ha
  have hrest : (l.erase a).flatMap g = (l.erase a).flatMap f :=
    List.flatMap_congr fun b hb => hfg b (hl.mem_erase_iff.mp hb).1
  refine ⟨(l.erase a).flatMap f, hperm.flatMap_right f, ?_⟩
  have := hperm.flatMap_right g
  rwa [List.flatMap_cons, hrest] at this

/-- A transfer record by its position in the order of creation; it stands for
the pointer the source shares. -/
abbrev Ref := Nat

structure Task where
  ref : Ref
  /-- The underlying value of the priority. -/
  priority : UInt8 := 4
  deriving DecidableEq, Repr

def kPriorityBands : Nat := 10

theorem none_outside : ∀ b ≥ kPriorityBands, (fun _ : Nat => ([] : List Task)) b = [] :=
  fun _ _ => rfl

structure Scheduler where
  maxQueued : Nat
  shuttingDown : Bool := false
  queueDepth : Nat := 0
  queues : Nat → List Task := fun _ => []
  /-- `max_band_ + 1`. -/
  top : Nat := 0
  outside : ∀ b ≥ kPriorityBands, queues b = [] := by exact none_outside

namespace Scheduler

def band (t : Task) : Nat :=
  if t.priority.toNat ≥ kPriorityBands then kPriorityBands - 1 else t.priority.toNat

theorem band_lt (t : Task) : band t < kPriorityBands := by
  unfold band
  split
  · decide
  · omega

def submit (s : Scheduler) (t : Task) : Bool × Scheduler :=
  if s.shuttingDown then (false, s)
  else if s.queueDepth ≥ s.maxQueued then (false, s)
  else
    (true, { s with
      queues := Function.update s.queues (band t) (s.queues (band t) ++ [t])
      queueDepth := s.queueDepth + 1
      top := if band t + 1 > s.top then band t + 1 else s.top
      outside := fun b hb => by
        rw [Function.update_of_ne (Nat.ne_of_gt (Nat.lt_of_lt_of_le (band_lt t) hb))]
        exact s.outside b hb })

/-- `while (max_band_ >= 0 && queues_[max_band_].empty()) --max_band_`. -/
def skipEmpty (queues : Nat → List Task) : Nat → Nat
  | 0 => 0
  | b + 1 => if (queues b).isEmpty then skipEmpty queues b else b + 1

theorem lt_of_mem (s : Scheduler) {b : Nat} {t : Task} (h : t ∈ s.queues b) :
    b < kPriorityBands := by
  by_contra hb
  rw [s.outside b (Nat.le_of_not_lt hb)] at h
  cases h

def pop (s : Scheduler) : Option Task × Scheduler :=
  match skipEmpty s.queues s.top with
  | 0 => (none, { s with top := 0 })
  | b + 1 =>
      match hq : s.queues b with
      | [] => (none, { s with top := b + 1 })
      | t :: rest =>
          (some t, { s with
            queues := Function.update s.queues b rest
            queueDepth := s.queueDepth - 1
            top := if rest.isEmpty then b else b + 1
            outside := fun b' hb => by
              have hlt := s.lt_of_mem (b := b) (t := t) (by rw [hq]; exact List.mem_cons_self)
              rw [Function.update_of_ne (Nat.ne_of_gt (Nat.lt_of_lt_of_le hlt hb))]
              exact s.outside b' hb })

theorem submit_shuttingDown (s : Scheduler) (t : Task) :
    (s.submit t).2.shuttingDown = s.shuttingDown := by
  unfold submit
  split_ifs <;> rfl

theorem pop_shuttingDown (s : Scheduler) : s.pop.2.shuttingDown = s.shuttingDown := by
  unfold pop
  split
  · rfl
  · split <;> rfl

/-- All stored tasks, band by band. -/
def tasks (s : Scheduler) : List Task := (List.range kPriorityBands).flatMap s.queues

theorem submit_false {s s' : Scheduler} {t : Task} (h : s.submit t = (false, s')) : s' = s := by
  unfold submit at h
  split_ifs at h <;> cases h <;> rfl

theorem submit_tasks {s s' : Scheduler} {t : Task} (h : s.submit t = (true, s')) :
    List.Perm s'.tasks (t :: s.tasks) := by
  unfold submit at h
  split at h
  · cases h
  split at h
  · cases h
  obtain ⟨-, rfl⟩ := Prod.mk.inj h
  obtain ⟨rest, hold, hnew⟩ := flatMap_perm_at (f := s.queues) List.nodup_range
    (List.mem_range.mpr (band_lt t))
    fun b hb => Function.update_of_ne hb (s.queues (band t) ++ [t]) s.queues
  rw [Function.update_self, List.append_assoc] at hnew
  exact hnew.trans (List.perm_middle.trans (hold.symm.cons t))

theorem pop_tasks {s s' : Scheduler} {t : Task} (h : s.pop = (some t, s')) :
    List.Perm s.tasks (t :: s'.tasks) := by
  unfold pop at h
  split at h
  · cases h
  · rename_i b hb
    split at h
    · cases h
    · rename_i t' rest hq
      cases h
      have hlt := s.lt_of_mem (b := b) (t := t) (by rw [hq]; exact List.mem_cons_self)
      obtain ⟨others, hold, hnew⟩ := flatMap_perm_at (f := s.queues) List.nodup_range
        (List.mem_range.mpr hlt) fun b' hb => Function.update_of_ne hb rest s.queues
      rw [hq] at hold
      rw [Function.update_self] at hnew
      exact hold.trans (hnew.symm.cons t)

end Scheduler

end TransferFabric
