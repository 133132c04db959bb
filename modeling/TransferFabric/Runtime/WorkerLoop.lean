import TransferFabric.Foundation.Transition
import TransferFabric.Runtime.Queueing
import Mathlib.Algebra.BigOperators.Group.List.Basic

/-!
The workers of the scheduler and its shutdown, one step per critical section:
submitters, any number of workers in `worker_loop`, and calls of `shutdown`, of
which the one that sets the flag joins the workers. A body is in a worker's hands
from the critical section that took it to the next one of that worker.

What the bodies do is not part of this module. Nothing is assumed about which
thread goes next; that all accepted tasks are executed in the end says that the
workers cannot get stuck and cannot go on for ever without new submissions.
-/

namespace TransferFabric

open Relation Transition

inductive Worker where
  | waiting
  | running (t : Task)
  | exited
  deriving DecidableEq

/-- The critical section at the head of `worker_loop`; `none` while the wait goes on. -/
def Scheduler.workerTurn (s : Scheduler) : Option (Worker × Scheduler) :=
  if s.shuttingDown ∨ s.queueDepth > 0 then
    if s.shuttingDown ∧ s.queueDepth = 0 then some (.exited, s)
    else
      match s.pop with
      | (some t, s') => some (.running t, s')
      | (none, s') => some (.waiting, s')
  else none

/-- The `shutdown` call that set the flag. -/
inductive Joiner where
  | absent | joining | returned
  deriving DecidableEq

structure Crew where
  scheduler : Scheduler
  workers : List Worker
  joiner : Joiner := .absent
  /-- The tasks for which `submit` returned true. -/
  accepted : List Task := []
  /-- The tasks whose bodies have returned. -/
  executed : List Task := []

namespace Crew

def start (workers maxQueued : Nat) : Crew :=
  { scheduler := { maxQueued }, workers := List.replicate workers .waiting }

/-- A worker or the joining call goes on. -/
inductive Turn : Crew → Crew → Prop
  | head {σ : Crew} {i : Nat} {w : Worker} {s : Scheduler} (hi : σ.workers[i]? = some .waiting)
      (hturn : σ.scheduler.workerTurn = some (w, s)) :
      Turn σ { σ with scheduler := s, workers := σ.workers.set i w }
  | body {σ : Crew} {i : Nat} {t : Task} (hi : σ.workers[i]? = some (.running t)) :
      Turn σ { σ with workers := σ.workers.set i .waiting, executed := σ.executed ++ [t] }
  | join {σ : Crew} (hjoin : σ.joiner = .joining) (hall : ∀ w ∈ σ.workers, w = .exited) :
      Turn σ { σ with joiner := .returned }

inductive Step : Crew → Crew → Prop
  | turn {σ τ : Crew} (h : Turn σ τ) : Step σ τ
  | submit {σ : Crew} (t : Task) :
      Step σ { σ with
        scheduler := (σ.scheduler.submit t).2
        accepted := if (σ.scheduler.submit t).1 then σ.accepted ++ [t] else σ.accepted }
  | shutdown {σ : Crew} (hflag : σ.scheduler.shuttingDown = false) :
      Step σ { σ with scheduler := { σ.scheduler with shuttingDown := true }, joiner := .joining }
  /-- A second call finds the flag set and returns. -/
  | shutdownAgain {σ : Crew} (hflag : σ.scheduler.shuttingDown = true) : Step σ σ

def Reaches (workers maxQueued : Nat) : Crew → Prop := ReflTransGen Step (start workers maxQueued)

/-- The task in the hands of a worker. -/
def inHand : Worker → List Task
  | .running t => [t]
  | _ => []

/-- The tasks in the hands of workers. -/
def running (σ : Crew) : List Task := σ.workers.flatMap inHand

/-! What the turn of a worker can do. -/

private theorem set_perm {α : Type} {l : List α} {i : Nat} {a : α} (h : l[i]? = some a) (b : α) :
    ∃ rest, l.Perm (a :: rest) ∧ (l.set i b).Perm (b :: rest) := by
  obtain ⟨hlt, rfl⟩ := List.getElem?_eq_some_iff.mp h
  refine ⟨l.take i ++ l.drop (i + 1), ?_, ?_⟩
  · conv_lhs => rw [← List.take_append_drop i l, List.drop_eq_getElem_cons hlt]
    exact List.perm_middle
  · rw [List.set_eq_take_append_cons_drop, if_pos hlt]
    exact List.perm_middle

/-- The hands of one worker change, the others keep what they have. -/
theorem hands_set {ws : List Worker} {i : Nat} {a : Worker} (h : ws[i]? = some a) (b : Worker) :
    ∃ rest, (ws.flatMap inHand).Perm (inHand a ++ rest) ∧
      ((ws.set i b).flatMap inHand).Perm (inHand b ++ rest) := by
  obtain ⟨rest, hold, hnew⟩ := set_perm h b
  exact ⟨rest.flatMap inHand, hold.flatMap_right inHand, hnew.flatMap_right inHand⟩

end Crew

variable {workers maxQueued : Nat} {σ τ : Crew}

/-- A worker leaves when the flag is set and nothing is queued; otherwise it has a task. -/
theorem Scheduler.Represents.workerTurn {s s' : Scheduler} {q : TaskQueue} {w : Worker}
    (h : s.Represents maxQueued q) (hturn : s.workerTurn = some (w, s')) :
    w = .exited ∧ s' = s ∧ s.shuttingDown = true ∧ s.queueDepth = 0 ∨
      ∃ t, w = .running t ∧ s.pop = (some t, s') := by
  unfold Scheduler.workerTurn at hturn
  split_ifs at hturn with hwake hleave
  · obtain ⟨rfl, rfl⟩ := Prod.mk.inj (Option.some.inj hturn)
    exact Or.inl ⟨rfl, rfl, hleave⟩
  · have hdepth : s.queueDepth ≠ 0 := fun h0 => hleave ⟨hwake.resolve_right (by omega), h0⟩
    obtain ⟨q', hserves, -⟩ := h.pop
    cases hpop : s.pop with
    | mk popped s₁ =>
    rw [hpop] at hturn hserves
    cases popped with
    | some t =>
        obtain ⟨rfl, rfl⟩ := Prod.mk.inj (Option.some.inj hturn)
        exact Or.inr ⟨t, rfl, rfl⟩
    | none =>
        cases hserves with
        | idle empty =>
            rw [h.depth, empty] at hdepth
            exact absurd rfl hdepth

/-- Only a waiting worker with nothing to do and no reason to leave waits. -/
theorem Scheduler.workerTurn_none {s : Scheduler} (h : s.workerTurn = none) :
    s.shuttingDown = false ∧ s.queueDepth = 0 := by
  unfold Scheduler.workerTurn at h
  split_ifs at h with hwake hleave
  · split at h <;> cases h
  · obtain ⟨hflag, hdepth⟩ := not_or.mp hwake
    exact ⟨by simpa using hflag, by omega⟩

namespace Crew

/-! The invariant. -/

structure Sound (workers maxQueued : Nat) (σ : Crew) : Prop where
  scheduler : ∃ q, σ.scheduler.Represents maxQueued q
  size : σ.workers.length = workers
  /-- Every accepted task is queued, in hand or executed, once. -/
  conserved : σ.accepted.Perm (σ.scheduler.tasks ++ (σ.running ++ σ.executed))
  exited : .exited ∈ σ.workers → σ.scheduler.shuttingDown = true ∧ σ.scheduler.queueDepth = 0
  joiner : σ.joiner ≠ .absent ↔ σ.scheduler.shuttingDown = true
  joined : σ.joiner = .returned → ∀ w ∈ σ.workers, w = .exited

namespace Sound

theorem start (workers maxQueued : Nat) : Sound workers maxQueued (start workers maxQueued) where
  scheduler := ⟨{}, .initial maxQueued⟩
  size := List.length_replicate
  conserved := by
    have hrunning : (Crew.start workers maxQueued).running = [] :=
      List.flatMap_eq_nil_iff.mpr fun w hw => by rw [List.eq_of_mem_replicate hw]; rfl
    rw [hrunning]
    exact List.Perm.refl _
  exited := fun h => by cases List.eq_of_mem_replicate h
  joiner := ⟨fun h => absurd rfl h, fun h => by cases h⟩
  joined := fun h => by cases h

theorem tasks_eq_nil (h : Sound workers maxQueued σ) (hdepth : σ.scheduler.queueDepth = 0) :
    σ.scheduler.tasks = [] := by
  obtain ⟨q, hq⟩ := h.scheduler
  have hlength := hq.tasks_perm.length_eq
  rw [← hq.depth, hdepth] at hlength
  exact List.length_eq_zero_iff.mp hlength

theorem depth_ne_zero (h : Sound workers maxQueued σ) {t : Task} {s : Scheduler}
    (hpop : σ.scheduler.pop = (some t, s)) : σ.scheduler.queueDepth ≠ 0 := by
  intro h0
  have hperm := Scheduler.pop_tasks hpop
  rw [h.tasks_eq_nil h0] at hperm
  exact absurd hperm.length_eq (by simp)

theorem turn (h : Sound workers maxQueued σ) (hs : Turn σ τ) : Sound workers maxQueued τ := by
  obtain ⟨q, hq⟩ := h.scheduler
  cases hs with
  | @head i w s hi hturn =>
      obtain ⟨rest, hold, hnew⟩ := hands_set hi w
      have hnot : σ.joiner ≠ .returned := fun hj => by
        cases h.joined hj _ (List.mem_of_getElem? hi)
      rcases hq.workerTurn hturn with ⟨rfl, rfl, hleave⟩ | ⟨t, rfl, hpop⟩
      · refine ⟨⟨q, hq⟩, by simpa using h.size, ?_, fun _ => hleave, h.joiner,
          fun hj => absurd hj hnot⟩
        exact h.conserved.trans (((hold.trans hnew.symm).append_right _).append_left _)
      · obtain ⟨q', -, hq'⟩ := hq.pop
        have hflag := σ.scheduler.pop_shuttingDown
        rw [hpop] at hq' hflag
        refine ⟨⟨q', hq'⟩, by simpa using h.size, ?_, fun hex => ?_, ?_, fun hj => absurd hj hnot⟩
        · refine h.conserved.trans (((Scheduler.pop_tasks hpop).append_right _).trans ?_)
          refine List.perm_middle.symm.trans (List.Perm.append_left _ ?_)
          exact ((hold.cons t).trans hnew.symm).append_right _
        · rcases List.mem_or_eq_of_mem_set hex with hex | hex
          · exact absurd (h.exited hex).2 (h.depth_ne_zero hpop)
          · cases hex
        · rw [h.joiner]
          exact (congrArg (· = true) hflag).to_iff.symm
  | @body i t hi =>
      obtain ⟨rest, hold, hnew⟩ := hands_set hi .waiting
      refine ⟨⟨q, hq⟩, by simpa using h.size, ?_, fun hex => ?_, h.joiner, fun hj => ?_⟩
      · refine h.conserved.trans (List.Perm.append_left _ ?_)
        refine (hold.append_right _).trans (List.Perm.trans ?_ (hnew.symm.append_right _))
        show ([t] ++ rest ++ σ.executed).Perm (rest ++ (σ.executed ++ [t]))
        rw [← List.append_assoc]
        exact (List.perm_append_singleton t _).symm
      · rcases List.mem_or_eq_of_mem_set hex with hex | hex
        · exact h.exited hex
        · cases hex
      · cases h.joined hj _ (List.mem_of_getElem? hi)
  | join hjoin hall =>
      refine ⟨⟨q, hq⟩, h.size, h.conserved, h.exited, ?_, fun _ => hall⟩
      rw [← h.joiner, hjoin]
      simp

theorem step (h : Sound workers maxQueued σ) (hs : Step σ τ) : Sound workers maxQueued τ := by
  obtain ⟨q, hq⟩ := h.scheduler
  cases hs with
  | turn hturn => exact h.turn hturn
  | submit t =>
      obtain ⟨q', -, hq'⟩ := hq.submit t
      have hflag := σ.scheduler.submit_shuttingDown t
      cases hsub : σ.scheduler.submit t with
      | mk accepted s =>
      rw [hsub] at hq' hflag
      cases accepted with
      | false =>
          obtain rfl := Scheduler.submit_false hsub
          exact h
      | true =>
          refine ⟨⟨q', hq'⟩, h.size, ?_, fun hex => ?_, ?_, h.joined⟩
          · refine (List.perm_append_singleton t _).trans ((h.conserved.cons t).trans ?_)
            exact (Scheduler.submit_tasks hsub).symm.append_right _
          · have := (h.exited hex).1
            unfold Scheduler.submit at hsub
            rw [if_pos this] at hsub
            cases hsub
          · rw [h.joiner]
            exact (congrArg (· = true) hflag).to_iff.symm
  | shutdown hflag =>
      obtain ⟨q', -, hq'⟩ := hq.step .stop
      refine ⟨⟨q', hq'⟩, h.size, h.conserved, fun hex => ?_, by simp, fun hj => by cases hj⟩
      rw [(h.exited hex).1] at hflag
      cases hflag
  | shutdownAgain hflag => exact h

theorem run (h : Reaches workers maxQueued σ) : Sound workers maxQueued σ := by
  induction h with
  | refl => exact start workers maxQueued
  | tail _ hs ih => exact ih.step hs

end Sound

/-! Progress. -/

def weight : Worker → Nat
  | .waiting => 1
  | .running _ => 2
  | .exited => 0

/-- What is left to do if nothing more is submitted. -/
def workLeft (σ : Crew) : Nat :=
  3 * σ.scheduler.queueDepth + (σ.workers.map weight).sum + if σ.joiner = .joining then 1 else 0

theorem weight_set {ws : List Worker} {i : Nat} {a : Worker} (h : ws[i]? = some a) (b : Worker) :
    ((ws.set i b).map weight).sum + weight a = (ws.map weight).sum + weight b := by
  obtain ⟨rest, hold, hnew⟩ := set_perm h b
  have hold := (hold.map weight).sum_eq
  have hnew := (hnew.map weight).sum_eq
  simp only [List.map_cons, List.sum_cons] at hold hnew
  omega

theorem Sound.workLeft_lt (h : Sound workers maxQueued σ) (hs : Turn σ τ) :
    τ.workLeft < σ.workLeft := by
  obtain ⟨q, hq⟩ := h.scheduler
  unfold workLeft
  cases hs with
  | @head i w s hi hturn =>
      have hweight := weight_set hi w
      rcases hq.workerTurn hturn with ⟨rfl, rfl, hleave⟩ | ⟨t, rfl, hpop⟩
      · simp only [weight] at hweight
        dsimp only
        omega
      · obtain ⟨q', hserves, hq'⟩ := hq.pop
        have hperm := (Scheduler.pop_tasks hpop).length_eq
        have hq' : s.Represents maxQueued q' := by rwa [hpop] at hq'
        rw [hq.tasks_perm.length_eq, List.length_cons, hq'.tasks_perm.length_eq, ← hq.depth,
          ← hq'.depth] at hperm
        simp only [weight] at hweight
        dsimp only
        omega
  | @body i t hi =>
      have hweight := weight_set hi .waiting
      simp only [weight] at hweight
      dsimp only
      omega
  | join hjoin hall =>
      rw [if_pos hjoin, if_neg (by simp)]
      dsimp only
      omega

/-- Nobody can go on only if everything accepted has been executed and the joining call, if
there is one, has returned. -/
theorem Sound.done_of_stuck (h : Sound workers maxQueued σ) (hw : 1 ≤ workers)
    (hstuck : ∀ τ, ¬ Turn σ τ) :
    σ.accepted.Perm σ.executed ∧ (σ.scheduler.shuttingDown = true → σ.joiner = .returned) := by
  have hidle : ∀ w ∈ σ.workers, inHand w = [] := by
    intro w hmem
    obtain ⟨i, hi⟩ := List.mem_iff_getElem?.mp hmem
    cases w with
    | running t => exact absurd (.body hi) (hstuck _)
    | waiting | exited => rfl
  have hexecuted : σ.scheduler.queueDepth = 0 → σ.accepted.Perm σ.executed := fun h0 => by
    have hconserved := h.conserved
    rwa [h.tasks_eq_nil h0, running, List.flatMap_eq_nil_iff.mpr hidle] at hconserved
  by_cases hwaits : .waiting ∈ σ.workers
  · obtain ⟨i, hi⟩ := List.mem_iff_getElem?.mp hwaits
    cases hturn : σ.scheduler.workerTurn with
    | some p => exact absurd (.head hi hturn) (hstuck _)
    | none =>
        obtain ⟨hflag, hdepth⟩ := Scheduler.workerTurn_none hturn
        refine ⟨hexecuted hdepth, fun h => ?_⟩
        rw [hflag] at h
        cases h
  · have hall : ∀ w ∈ σ.workers, w = .exited := by
      intro w hmem
      cases w with
      | exited => rfl
      | waiting => exact absurd hmem hwaits
      | running t => cases hidle _ hmem
    obtain ⟨w, hmem⟩ := List.exists_mem_of_length_pos (l := σ.workers) (by rw [h.size]; omega)
    obtain ⟨hflag, hdepth⟩ := h.exited (hall w hmem ▸ hmem)
    refine ⟨hexecuted hdepth, fun _ => ?_⟩
    have hjoiner := h.joiner.mpr hflag
    cases hj : σ.joiner with
    | absent => exact absurd hj hjoiner
    | joining => exact absurd (.join hj hall) (hstuck _)
    | returned => rfl

theorem step_after_flag (hs : Step σ τ) (hflag : σ.scheduler.shuttingDown = true)
    (h : Sound workers maxQueued σ) :
    τ.scheduler.shuttingDown = true ∧ τ.accepted = σ.accepted := by
  obtain ⟨q, hq⟩ := h.scheduler
  cases hs with
  | turn hturn =>
      cases hturn with
      | head hi hturn =>
          rcases hq.workerTurn hturn with ⟨-, rfl, -⟩ | ⟨t, -, hpop⟩
          · exact ⟨hflag, rfl⟩
          · have hpopped := σ.scheduler.pop_shuttingDown
            rw [hpop] at hpopped
            exact ⟨hpopped.trans hflag, rfl⟩
      | body hi => exact ⟨hflag, rfl⟩
      | join hjoin hall => exact ⟨hflag, rfl⟩
  | submit t =>
      have hrefused : σ.scheduler.submit t = (false, σ.scheduler) := by
        rw [Scheduler.submit, if_pos hflag]
      simp only [hrefused]
      exact ⟨hflag, rfl⟩
  | shutdown hopen =>
      rw [hflag] at hopen
      cases hopen
  | shutdownAgain => exact ⟨hflag, rfl⟩

theorem Sound.drained_of_exit (h : Sound workers maxQueued σ) (hs : Step σ τ) {i : Nat}
    (hbefore : σ.workers[i]? ≠ some .exited) (hafter : τ.workers[i]? = some .exited) :
    σ.scheduler.shuttingDown = true ∧ σ.scheduler.tasks = [] := by
  obtain ⟨q, hq⟩ := h.scheduler
  -- the worker that changed is the one that left
  have hset : ∀ {j : Nat} {w : Worker}, (σ.workers.set j w)[i]? = some .exited → w = .exited := by
    intro j w hw
    rw [List.getElem?_set] at hw
    split_ifs at hw
    · exact Option.some.inj hw
    · exact absurd hw hbefore
  cases hs with
  | turn hturn =>
      cases hturn with
      | head hi hturn =>
          obtain rfl := hset hafter
          rcases hq.workerTurn hturn with ⟨-, -, hflag, hdepth⟩ | ⟨t, hrunning, -⟩
          · exact ⟨hflag, h.tasks_eq_nil hdepth⟩
          · cases hrunning
      | body hi => cases hset hafter
      | join hjoin hall => exact absurd hafter hbefore
  | submit t => exact absurd hafter hbefore
  | shutdown hopen => exact absurd hafter hbefore
  | shutdownAgain hflag => exact absurd hafter hbefore

/-- In every state the scheduler and its workers reach: every accepted task is queued, in the
hands of one worker or executed, and that once; after the flag is set nothing is accepted any
more; a worker leaves only when the flag is set and nothing is queued; when the joining call
has returned nothing is queued or in hand, so that everything accepted has been executed; and
however the workers and the joining call go on, they come to an end with everything executed
and the joining call returned. -/
theorem shutdown_drains_exactly (hw : 1 ≤ workers) (h : Reaches workers maxQueued σ) :
    σ.accepted.Perm (σ.scheduler.tasks ++ (σ.running ++ σ.executed)) ∧
      (σ.scheduler.shuttingDown = true → ∀ τ, ReflTransGen Step σ τ → τ.accepted = σ.accepted) ∧
      (∀ (τ : Crew) (i : Nat), Step σ τ → σ.workers[i]? ≠ some .exited →
        τ.workers[i]? = some .exited →
        σ.scheduler.shuttingDown = true ∧ σ.scheduler.tasks = []) ∧
      (σ.joiner = .returned →
        σ.scheduler.tasks = [] ∧ σ.running = [] ∧ σ.accepted.Perm σ.executed) ∧
      Inevitable Turn (fun τ => τ.accepted.Perm τ.executed ∧
        (τ.scheduler.shuttingDown = true → τ.joiner = .returned)) σ := by
  have hsound := Sound.run h
  refine ⟨hsound.conserved, fun hflag τ hrun => ?_, fun τ i hs hbefore hafter => ?_, fun hj => ?_, ?_⟩
  · suffices hall : τ.scheduler.shuttingDown = true ∧ τ.accepted = σ.accepted from hall.2
    induction hrun with
    | refl => exact ⟨hflag, rfl⟩
    | tail hrun hs ih =>
        obtain ⟨hflag', haccepted⟩ := step_after_flag hs ih.1 (Sound.run (h.trans hrun))
        exact ⟨hflag', haccepted.trans ih.2⟩
  · exact hsound.drained_of_exit hs hbefore hafter
  · have hall := hsound.joined hj
    obtain ⟨w, hmem⟩ := List.exists_mem_of_length_pos (l := σ.workers) (by rw [hsound.size]; omega)
    obtain ⟨-, hdepth⟩ := hsound.exited (hall w hmem ▸ hmem)
    have htasks := hsound.tasks_eq_nil hdepth
    have hrunning : σ.running = [] :=
      List.flatMap_eq_nil_iff.mpr fun w hmem => by rw [hall w hmem]; rfl
    have hconserved := hsound.conserved
    rw [htasks, hrunning] at hconserved
    exact ⟨htasks, hrunning, hconserved⟩
  · exact Inevitable.of_measure workLeft (fun _ _ h hs => ⟨h.turn hs, h.workLeft_lt hs⟩)
      (fun _ h hstuck => h.done_of_stuck hw hstuck) hsound

/-- One worker; a task is submitted and taken, the flag is set, the task ends, the worker leaves
and is joined. -/
theorem one_task_drained : ∃ σ : Crew, Reaches 1 8 σ ∧ σ.joiner = .returned ∧
    σ.executed = [{ ref := 0 }] ∧ σ.accepted.Perm σ.executed := by
  have h : Reaches 1 8 _ := .tail (.tail (.tail (.tail (.tail (.tail .refl
    (.submit { ref := 0 })) (.turn (.head (i := 0) rfl rfl))) (.shutdown rfl))
    (.turn (.body (i := 0) rfl))) (.turn (.head (i := 0) rfl rfl)))
    (.turn (.join rfl (by decide)))
  exact ⟨_, h, rfl, rfl, ((shutdown_drains_exactly (Nat.le_refl 1) h).2.2.2.1 rfl).2.2⟩

end Crew

end TransferFabric
