import TransferFabric.Foundation.Bands
import TransferFabric.Foundation.Refinement
import TransferFabric.Runtime.Scheduler

/-!
The scheduler is a stable bounded priority queue. What it is for is the list of
the waiting tasks in the order in which they were accepted: a task is served
before those of lower bands and before those of its own band that came later.
The ten bands with their cursor implement that list.
-/

namespace TransferFabric

open Refinement Bands

inductive SchedulerOp where
  | submit (t : Task)
  | pop
  /-- The flag that ends the acceptance of tasks is set. -/
  | stop

inductive SchedulerAnswer where
  | accepted (b : Bool)
  | popped (t : Option Task)
  | stopped

def Scheduler.step (s : Scheduler) : SchedulerOp → SchedulerAnswer × Scheduler
  | .submit t => (.accepted (s.submit t).1, (s.submit t).2)
  | .pop => (.popped s.pop.1, s.pop.2)
  | .stop => (.stopped, { s with shuttingDown := true })

/-- The band of a task: its priority, clamped to 0..9. -/
def Task.rank (t : Task) : Nat := min t.priority.toNat 9

theorem Scheduler.band_eq_rank : Scheduler.band = Task.rank := by
  funext t
  unfold band Task.rank kPriorityBands
  split_ifs <;> omega

/-- The waiting tasks in the order of acceptance. -/
structure TaskQueue where
  pending : List Task := []
  stopped : Bool := false

inductive TaskQueue.Serves (maxQueued : Nat) (q : TaskQueue) :
    SchedulerOp → SchedulerAnswer → TaskQueue → Prop
  | accept (t : Task) (running : q.stopped = false) (room : q.pending.length < maxQueued) :
      Serves maxQueued q (.submit t) (.accepted true) { q with pending := q.pending ++ [t] }
  | refuse (t : Task) (closed : q.stopped = true ∨ q.pending.length = maxQueued) :
      Serves maxQueued q (.submit t) (.accepted false) q
  | serve {t : Task} {rest : List Task} (served : Served Task.rank q.pending t rest) :
      Serves maxQueued q .pop (.popped (some t)) { q with pending := rest }
  | idle (empty : q.pending = []) : Serves maxQueued q .pop (.popped none) q
  | stop : Serves maxQueued q .stop .stopped { q with stopped := true }

/-- The tasks accepted, in order. -/
def acceptedIn (log : List (SchedulerOp × SchedulerAnswer)) : List Task :=
  log.filterMap fun
    | (.submit t, .accepted true) => some t
    | _ => none

/-- The tasks handed out, in order. -/
def poppedIn (log : List (SchedulerOp × SchedulerAnswer)) : List Task :=
  log.filterMap fun
    | (_, .popped t) => t
    | _ => none

/-- No task is lost and none is handed out twice. -/
theorem TaskQueue.conserved {maxQueued : Nat} {log : List (SchedulerOp × SchedulerAnswer)}
    {q : TaskQueue} (h : Accepts (TaskQueue.Serves maxQueued) {} log q) :
    (acceptedIn log).Perm (poppedIn log ++ q.pending) := by
  refine h.invariant (P := fun log (q : TaskQueue) =>
    (acceptedIn log).Perm (poppedIn log ++ q.pending)) (List.Perm.refl _) ?_
  intro log q op answer q' hperm hs
  have hsplit : ∀ f : SchedulerOp × SchedulerAnswer → Option Task,
      (log ++ [(op, answer)]).filterMap f = log.filterMap f ++ [(op, answer)].filterMap f :=
    fun f => List.filterMap_append
  unfold acceptedIn poppedIn at *
  rw [hsplit, hsplit]
  cases hs with
  | accept t running room =>
      simp only [List.filterMap_cons, List.filterMap_nil, List.append_nil]
      rw [← List.append_assoc]
      exact hperm.append_right _
  | refuse t closed => simpa using hperm
  | serve served =>
      simp only [List.filterMap_cons, List.filterMap_nil, List.append_nil, List.append_assoc]
      exact hperm.trans (served.perm.append_left _)
  | idle empty => simpa using hperm
  | stop => simpa using hperm

/-! The bands implement the list. -/

namespace Scheduler

variable {s : Scheduler} {q : TaskQueue}

structure Represents (maxQueued : Nat) (s : Scheduler) (q : TaskQueue) : Prop where
  bands : Banded band s.queues q.pending
  depth : s.queueDepth = q.pending.length
  bound : s.maxQueued = maxQueued
  room : q.pending.length ≤ maxQueued
  top : ∀ b ≥ s.top, s.queues b = []
  flag : s.shuttingDown = q.stopped

variable {maxQueued : Nat}

/-- The cursor stops at the highest band that is not empty. -/
theorem skipEmpty_spec (queues : Nat → List Task) (top : Nat) :
    (∀ b ≥ skipEmpty queues top, b < top → queues b = []) ∧
      ∀ b, skipEmpty queues top = b + 1 → queues b ≠ [] := by
  induction top with
  | zero => exact ⟨fun b _ hb => absurd hb (Nat.not_lt_zero b), fun b hb => by cases hb⟩
  | succ top ih =>
      unfold skipEmpty
      split_ifs with hempty
      · refine ⟨fun b hb hlt => ?_, ih.2⟩
        rcases Nat.lt_succ_iff_lt_or_eq.mp hlt with hlt | rfl
        · exact ih.1 b hb hlt
        · exact List.isEmpty_iff.mp hempty
      · refine ⟨fun b hb hlt => by omega, fun b hb => ?_⟩
        obtain rfl := Nat.succ.inj hb
        exact fun hnil => hempty (List.isEmpty_iff.mpr hnil)

namespace Represents

theorem submit (h : Represents maxQueued s q) (t : Task) :
    ∃ q', q.Serves maxQueued (.submit t) (.accepted (s.submit t).1) q' ∧
      Represents maxQueued (s.submit t).2 q' := by
  have hroom := h.room
  have hdepth := h.depth
  have hbound := h.bound
  unfold Scheduler.submit
  by_cases hstop : s.shuttingDown = true
  · rw [if_pos hstop]
    exact ⟨q, .refuse t (Or.inl (by rw [← h.flag, hstop])), h⟩
  rw [if_neg hstop]
  by_cases hfull : s.queueDepth ≥ s.maxQueued
  · rw [if_pos hfull]
    exact ⟨q, .refuse t (Or.inr (by omega)), h⟩
  · rw [if_neg hfull]
    refine ⟨_, .accept t (by rw [← h.flag]; simpa using hstop) (by omega), ?_⟩
    refine ⟨h.bands.push t, ?_, hbound, ?_, fun b hb => ?_, h.flag⟩
    · simp [hdepth]
    · simp only [List.length_append, List.length_singleton]
      omega
    · have hb : (if band t + 1 > s.top then band t + 1 else s.top) ≤ b := hb
      have hne : b ≠ band t := by split_ifs at hb <;> omega
      have hge : b ≥ s.top := by split_ifs at hb <;> omega
      exact (Function.update_of_ne hne _ _).trans (h.top b hge)

theorem pop (h : Represents maxQueued s q) :
    ∃ q', q.Serves maxQueued .pop (.popped s.pop.1) q' ∧ Represents maxQueued s.pop.2 q' := by
  obtain ⟨habove, hfull⟩ := skipEmpty_spec s.queues s.top
  have habove : ∀ b ≥ skipEmpty s.queues s.top, s.queues b = [] := fun b hb => by
    by_cases hlt : b < s.top
    · exact habove b hb hlt
    · exact h.top b (Nat.le_of_not_lt hlt)
  unfold Scheduler.pop
  cases hskip : skipEmpty s.queues s.top with
  | zero =>
      rw [hskip] at habove
      refine ⟨q, .idle (List.eq_nil_iff_forall_not_mem.mpr fun t ht => ?_),
        { h with top := fun b _ => habove b (Nat.zero_le b) }⟩
      exact (h.bands.eq_nil_iff (band t)).mp (habove _ (Nat.zero_le _)) t ht rfl
  | succ b =>
      rw [hskip] at habove
      dsimp only
      split
      · rename_i hnil
        exact absurd hnil (hfull b hskip)
      · rename_i t rest hb
        obtain ⟨pending', hserved, hbands⟩ := h.bands.take hb fun k hk => habove k hk
        have hlength := hserved.perm.length_eq
        have hdepth := h.depth
        have hroom := h.room
        rw [List.length_cons] at hlength
        refine ⟨_, .serve (band_eq_rank ▸ hserved), hbands, ?_, h.bound, ?_, fun k hk => ?_, h.flag⟩
        · dsimp only
          omega
        · dsimp only
          omega
        · have hk : (if rest.isEmpty then b else b + 1) ≤ k := hk
          by_cases hkb : k = b
          · subst hkb
            refine (Function.update_self ..).trans ?_
            split_ifs at hk with hempty
            · exact List.isEmpty_iff.mp hempty
            · omega
          · refine (Function.update_of_ne hkb ..).trans (habove k ?_)
            split_ifs at hk <;> omega

theorem step (h : Represents maxQueued s q) (op : SchedulerOp) :
    ∃ q', q.Serves maxQueued op (s.step op).1 q' ∧ Represents maxQueued (s.step op).2 q' := by
  cases op with
  | submit t => exact h.submit t
  | pop => exact h.pop
  | stop => exact ⟨_, .stop, { h with flag := rfl }⟩

theorem tasks_perm (h : Represents maxQueued s q) : s.tasks.Perm q.pending :=
  h.bands.flatMap_perm fun t _ => band_lt t

theorem initial (maxQueued : Nat) : Represents maxQueued { maxQueued } {} :=
  ⟨fun _ => rfl, rfl, rfl, Nat.zero_le _, fun _ _ => rfl, rfl⟩

end Represents

/-- Whatever is submitted and popped, the scheduler answers as a stable priority queue with
`maxQueued` places; its depth is the number of stored tasks, and what was accepted is what was
handed out and what is stored. -/
theorem stable_priority_queue (maxQueued : Nat) (ops : List SchedulerOp) :
    let log := (run step { maxQueued } ops).1
    let s := (run step { maxQueued } ops).2
    ∃ q, Accepts (TaskQueue.Serves maxQueued) {} log q ∧
      s.queueDepth = s.tasks.length ∧ s.queueDepth ≤ maxQueued ∧ s.tasks.Perm q.pending ∧
      (acceptedIn log).Perm (poppedIn log ++ s.tasks) := by
  intro log s
  obtain ⟨q, haccepts, hr⟩ := simulates (R := fun _ => Represents maxQueued) (n := ops.length)
    (fun _ _ _ _ op h => h.step op) ops (k := 0) (by omega) (Represents.initial maxQueued)
  have hperm := hr.tasks_perm
  refine ⟨q, haccepts, ?_, ?_, hperm, ?_⟩
  · rw [hr.depth, hperm.length_eq]
  · rw [hr.depth]
    exact hr.room
  · exact (TaskQueue.conserved haccepts).trans (hperm.symm.append_left _)

end Scheduler

end TransferFabric
