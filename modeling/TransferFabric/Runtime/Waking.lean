import TransferFabric.Foundation.Monitor
import TransferFabric.Runtime.Settling
import TransferFabric.Runtime.WorkerLoop

/-!
The condition variables of the runtime. A record has one, on which `wait` and
dependent submissions sleep, and the scheduler has one, on which its workers
sleep. Elsewhere these waits are atomic: they are over when their condition holds.
Here threads fall asleep and are woken by the calls of `notify_all` in the source
and by nothing else but chance: `set_terminal` on a record that had not ended,
`submit` when it accepts a task, and every `Scheduler::shutdown`.

No wake-up is lost, so the atomic waits were a faithful picture: nothing happens
that cannot happen there, everything that can happen there can happen here, and
what was shown to be inevitable stays so. Joining a worker thread is not a wait on
a condition variable and remains atomic.
-/

namespace TransferFabric

open Interaction Relation Transition

namespace Runtime

variable {rt : Runtime} {σ σ' : System} {i : Tid} {r : Ref}

/-! Records. -/

/-- `set_terminal` notifies those who wait on the record, unless the record has ended before. -/
def Notified (σ : System) : Actor → Actor → Prop
  | .thread i, .thread j => ∃ r s e next, σ.threads[i]? = some (.call (.setTerminal r s e) next) ∧
      (σ.world.heap r).state.isTerminal = false ∧ waitsFor σ j = some r
  | _, _ => False

/-- A thread that waits for a record whose condition does not hold. -/
def Held (σ : System) : Actor → Prop
  | .thread i => ∃ r, waitsFor σ i = some r ∧ (σ.world.heap r).settled = false
  | _ => False

def records (rt : Runtime) : Monitor System Actor where
  step := rt.Turn
  Blocked a σ := Held σ a
  wakes a σ _ b := Notified σ a b

theorem waitsFor_of_thread {σ' : System} (h : σ'.threads[i]? = σ.threads[i]?) :
    waitsFor σ' i = waitsFor σ i := by
  unfold waitsFor
  rw [h]

theorem Reaches.waited (h : rt.Reaches σ) (hwait : waitsFor σ i = some r) :
    i < σ.threads.length ∧ r < σ.world.next := by
  obtain ⟨l, ⟨-, -, htruth, -⟩, hpermits, -⟩ := h.known
  obtain ⟨next, hi⟩ := exists_of_waitsFor hwait
  obtain ⟨hlt, id, hfound⟩ := hpermits i _ _ hi
  exact ⟨hlt, (htruth.found i hlt id r hfound).1⟩

theorem Reaches.settled_iff (h : rt.Reaches σ) (hr : r < σ.world.next) :
    (σ.world.heap r).settled = (σ.world.heap r).state.isTerminal := by
  obtain ⟨l, ⟨-, -, htruth, -⟩, -, -⟩ := h.known
  simp [Transfer.settled, (htruth.sound r hr).notified]

theorem waits_for_answer (h : Held σ (.thread i)) {c : RtCall}
    {next : RtAnswer c → Prog RtSig Result} (hi : σ.threads[i]? = some (.call c next))
    (x : RtAnswer c) : ¬ σ.world.Answers c x := by
  obtain ⟨r, hwait, hopen⟩ := h
  obtain ⟨next', hi'⟩ := exists_of_waitsFor hwait
  cases hi.symm.trans hi'
  rintro ⟨ch, hx⟩
  have hx : (if (σ.world.heap r).settled then some (σ.world.heap r).state else none) = some x := hx
  rw [hopen] at hx
  cases hx

theorem records_notify (rt : Runtime) : rt.records.Notifies rt.Reaches where
  keeps h hs := h.tail (turn_iff_step.mp ⟨_, hs⟩)
  waits {σ σ' a} h hheld hs := by
    have hs : rt.Turn a σ σ' := hs
    cases hs with
    | act hi hx => exact waits_for_answer hheld hi _ hx
    | task => exact hheld
    | call => exact hheld
  wakes {σ σ' a b} h hheld hs := by
    cases a with
    | worker => exact hheld.elim
    | client => exact hheld.elim
    | thread i =>
        have hheld' := hheld
        obtain ⟨r, hwait, hopen⟩ := hheld
        obtain ⟨hlt, hr⟩ := h.waited hwait
        have hreach : rt.Reaches σ' := h.tail (turn_iff_step.mp ⟨_, hs⟩)
        have hs : rt.Turn b σ σ' := hs
        cases hs with
        | @act _ j c next x hj hx =>
            have hne : j ≠ i := by
              rintro rfl
              exact waits_for_answer hheld' hj x hx
            have hstill : waitsFor ⟨σ.world.after j c x, σ.threads.set j (next x)⟩ i =
                waitsFor σ i := waitsFor_of_thread (List.getElem?_set_ne hne)
            have hnext : r < (σ.world.after j c x).next :=
              Nat.lt_of_lt_of_le hr (h.next_le (turn_iff_step.mp ⟨_, .act hj hx⟩))
            rw [h.settled_iff hr] at hopen
            cases hend : ((σ.world.after j c x).heap r).state.isTerminal with
            | false => exact Or.inl ⟨r, hstill.trans hwait, (hreach.settled_iff hnext).trans hend⟩
            | true =>
                obtain ⟨s, e, rfl⟩ := h.ended_by hj hx hr hopen hend
                exact Or.inr ⟨r, s, e, next, hj, hopen, hwait⟩
        | task | call =>
            refine Or.inl ⟨r, (waitsFor_of_thread ?_).trans hwait, hopen⟩
            exact List.getElem?_append_left hlt

theorem held_finite (h : rt.Reaches σ) : { a | rt.records.Blocked a σ }.Finite := by
  refine ((Finset.range σ.threads.length).image Actor.thread).finite_toSet.subset fun a ha => ?_
  cases a with
  | thread i =>
      obtain ⟨r, hwait, -⟩ := ha
      exact Finset.mem_coe.mpr
        (Finset.mem_image_of_mem _ (Finset.mem_range.mpr (h.waited hwait).1))
  | worker => exact ha.elim
  | client => exact ha.elim

/-- Waiting for transfers through their condition variables: no wake-up is lost, everything
that can happen still can, and the runtime comes to rest with everybody who waits asleep. -/
theorem record_waits_lose_no_wakeup {y : Sleepy System Actor}
    (h : ReflTransGen rt.records.Step ⟨rt.start, ∅⟩ y) :
    rt.Reaches y.state ∧
      (∀ i, .thread i ∈ y.asleep → ∃ r < y.state.world.next, waitsFor y.state i = some r ∧
        (y.state.world.heap r).state.isTerminal = false) ∧
      (∀ σ, rt.Step y.state σ → ∃ z, rt.records.Step y z ∧ z.state = σ) ∧
      Inevitable (rt.records.Patient (· ≠ .client))
        (fun z => Rests z.state ∧ ∀ i r, waitsFor z.state i = some r → .thread i ∈ z.asleep) y := by
  have hnotify := rt.records_notify
  obtain ⟨hreach, hpunctual⟩ := hnotify.punctual (.refl : rt.Reaches rt.start) h
  refine ⟨hreach, fun i hi => ?_, fun σ hs => ?_, ?_⟩
  · obtain ⟨r, hwait, hopen⟩ := hpunctual _ hi
    obtain ⟨-, hr⟩ := hreach.waited hwait
    exact ⟨r, hr, hwait, hreach.settled_iff hr ▸ hopen⟩
  · obtain ⟨a, ha⟩ := turn_iff_step.mpr hs
    exact ⟨_, hnotify.possible hreach hpunctual ha, rfl⟩
  · refine (hnotify.settles (fun _ => held_finite) hreach.inevitable hreach hpunctual rfl).mono
      fun z hz => ?_
    obtain ⟨⟨hz, hrests⟩, hall⟩ := hz
    refine ⟨hrests, fun i r hwait => hall (.thread i) ⟨r, hwait, ?_⟩⟩
    obtain ⟨hlt, hr⟩ := hz.waited hwait
    rw [hz.settled_iff hr]
    rcases hrests.calls i hlt with hret | ⟨r', -, hwait', hlive⟩
    · obtain ⟨next, hcall⟩ := exists_of_waitsFor hwait
      rw [not_returned hcall] at hret
      cases hret
    · cases hwait.symm.trans hwait'
      exact hlive

/-- Thread 3 waits for a transfer that is queued. -/
def oneWaiter : List Move := oneTransfer ++ Move.whole 3 1 (.wait { hi := 0, lo := 7 }) 0

theorem oneWaiter_asleep : ∃ y : Sleepy System Actor, .thread 3 ∈ y.asleep ∧
    (∃ r < y.state.world.next, waitsFor y.state 3 = some r ∧
      (y.state.world.heap r).state.isTerminal = false) ∧
    Inevitable (loopback.records.Patient (· ≠ .client))
      (fun z => Rests z.state ∧ ∀ i r, waitsFor z.state i = some r → .thread i ∈ z.asleep) y := by
  have hrun : ReflTransGen loopback.records.Moves loopback.start (loopback.play oneWaiter) :=
    ReflTransGen.mono (fun _ _ => turn_iff_step.mpr) _ _ (loopback.play_reaches oneWaiter)
  have hheld : Held (loopback.play oneWaiter) (.thread 3) :=
    ⟨0, by decide +kernel, by decide +kernel⟩
  generalize loopback.play oneWaiter = σ at hrun hheld
  have h := (Monitor.awake hrun).tail (.doze (Set.notMem_empty (Actor.thread 3)) hheld)
  obtain ⟨-, hasleep, -, hrest⟩ := record_waits_lose_no_wakeup h
  have hmem : Actor.thread 3 ∈ insert (Actor.thread 3) (∅ : Set Actor) := Set.mem_insert _ _
  exact ⟨_, hmem, hasleep 3 hmem, hrest⟩

end Runtime

/-! The workers of the scheduler. -/

namespace Crew

variable {workers maxQueued : Nat} {σ τ : Crew}

inductive Hand where
  | worker (i : Nat)
  /-- The call that joins the workers. -/
  | joiner
  | submit (t : Task)
  | shutdown

/-- The steps of the crew with those who take them. -/
inductive Act : Hand → Crew → Crew → Prop
  | head {σ : Crew} {i : Nat} {w : Worker} {s : Scheduler} (hi : σ.workers[i]? = some .waiting)
      (hturn : σ.scheduler.workerTurn = some (w, s)) :
      Act (.worker i) σ { σ with scheduler := s, workers := σ.workers.set i w }
  | body {σ : Crew} {i : Nat} {t : Task} (hi : σ.workers[i]? = some (.running t)) :
      Act (.worker i) σ
        { σ with workers := σ.workers.set i .waiting, executed := σ.executed ++ [t] }
  | join {σ : Crew} (hjoin : σ.joiner = .joining) (hall : ∀ w ∈ σ.workers, w = .exited) :
      Act .joiner σ { σ with joiner := .returned }
  | submit {σ : Crew} (t : Task) :
      Act (.submit t) σ { σ with
        scheduler := (σ.scheduler.submit t).2
        accepted := if (σ.scheduler.submit t).1 then σ.accepted ++ [t] else σ.accepted }
  | shutdown {σ : Crew} (hflag : σ.scheduler.shuttingDown = false) :
      Act .shutdown σ
        { σ with scheduler := { σ.scheduler with shuttingDown := true }, joiner := .joining }
  | shutdownAgain {σ : Crew} (hflag : σ.scheduler.shuttingDown = true) : Act .shutdown σ σ

/-- The workers, whose wait ends with a task or with the flag. -/
def monitor : Monitor Crew Hand where
  step := Act
  Blocked h σ := ∃ i, h = .worker i ∧ σ.workers[i]? = some .waiting ∧ σ.scheduler.workerTurn = none
  wakes h σ _ _ := h = .shutdown ∨ ∃ t, h = .submit t ∧ (σ.scheduler.submit t).1 = true

theorem act_iff_step : monitor.Moves σ τ ↔ Step σ τ := by
  constructor
  · rintro ⟨h, hs⟩
    cases hs with
    | head hi hturn => exact .turn (.head hi hturn)
    | body hi => exact .turn (.body hi)
    | join hjoin hall => exact .turn (.join hjoin hall)
    | submit t => exact .submit t
    | shutdown hflag => exact .shutdown hflag
    | shutdownAgain hflag => exact .shutdownAgain hflag
  · intro hs
    cases hs with
    | turn hs =>
        cases hs with
        | head hi hturn => exact ⟨_, .head hi hturn⟩
        | body hi => exact ⟨_, .body hi⟩
        | join hjoin hall => exact ⟨_, .join hjoin hall⟩
    | submit t => exact ⟨_, .submit t⟩
    | shutdown hflag => exact ⟨_, .shutdown hflag⟩
    | shutdownAgain hflag => exact ⟨_, .shutdownAgain hflag⟩

/-- Those who go on without new calls. -/
def Hand.inside : Hand → Prop
  | .worker _ | .joiner => True
  | _ => False

theorem act_iff_turn : (∃ h, Hand.inside h ∧ Act h σ τ) ↔ Turn σ τ := by
  constructor
  · rintro ⟨h, hin, hs⟩
    cases hs with
    | head hi hturn => exact .head hi hturn
    | body hi => exact .body hi
    | join hjoin hall => exact .join hjoin hall
    | submit t => exact hin.elim
    | shutdown hflag => exact hin.elim
    | shutdownAgain hflag => exact hin.elim
  · intro hs
    cases hs with
    | @head i w s hi hturn => exact ⟨.worker i, trivial, .head hi hturn⟩
    | @body i t hi => exact ⟨.worker i, trivial, .body hi⟩
    | join hjoin hall => exact ⟨.joiner, trivial, .join hjoin hall⟩

/-- A refused task leaves the queue as it was. -/
theorem submit_refused {s : Scheduler} {t : Task} (h : (s.submit t).1 = false) :
    (s.submit t).2 = s :=
  Scheduler.submit_false (Prod.ext h rfl)

theorem monitor_notifies (workers maxQueued : Nat) :
    monitor.Notifies (Reaches workers maxQueued) where
  keeps h hs := h.tail (act_iff_step.mp ⟨_, hs⟩)
  waits {σ τ u} _ hblocked hs := by
    obtain ⟨i, rfl, hi, hnone⟩ := hblocked
    have hs : Act (.worker i) σ τ := hs
    cases hs with
    | head hi' hturn =>
        rw [hnone] at hturn
        cases hturn
    | body hi' => cases hi.symm.trans hi'
  wakes {σ τ u v} _ hblocked hs := by
    obtain ⟨i, rfl, hi, hnone⟩ := hblocked
    have hs : Act v σ τ := hs
    cases hs with
    | head hi' hturn =>
        rw [hnone] at hturn
        cases hturn
    | @body _ j t hj =>
        have hne : j ≠ i := by
          rintro rfl
          cases hi.symm.trans hj
        exact Or.inl ⟨i, rfl, (List.getElem?_set_ne hne).trans hi, hnone⟩
    | join hjoin hall => exact Or.inl ⟨i, rfl, hi, hnone⟩
    | submit t =>
        cases htaken : (σ.scheduler.submit t).1 with
        | true => exact Or.inr (Or.inr ⟨t, rfl, htaken⟩)
        | false =>
            refine Or.inl ⟨i, rfl, hi, ?_⟩
            rw [submit_refused htaken]
            exact hnone
    | shutdown hflag => exact Or.inr (Or.inl rfl)
    | shutdownAgain hflag => exact Or.inl ⟨i, rfl, hi, hnone⟩

theorem blocked_finite (σ : Crew) : { h | monitor.Blocked h σ }.Finite := by
  refine ((Set.finite_lt_nat σ.workers.length).image Hand.worker).subset fun h hh => ?_
  obtain ⟨i, rfl, hi, -⟩ := hh
  exact ⟨i, (List.getElem?_eq_some_iff.mp hi).1, rfl⟩

/-- Workers that sleep on the queue: no wake-up is lost, everything that can happen still can,
and without new submissions everything accepted is executed and the joining call returns. -/
theorem worker_waits_lose_no_wakeup (hw : 1 ≤ workers) {y : Sleepy Crew Hand}
    (h : ReflTransGen monitor.Step ⟨start workers maxQueued, ∅⟩ y) :
    Reaches workers maxQueued y.state ∧
      (∀ i, .worker i ∈ y.asleep → y.state.workers[i]? = some .waiting ∧
        y.state.scheduler.shuttingDown = false ∧ y.state.scheduler.tasks = []) ∧
      (∀ τ, Step y.state τ → ∃ z, monitor.Step y z ∧ z.state = τ) ∧
      Inevitable (monitor.Patient Hand.inside) (fun z => z.state.accepted.Perm z.state.executed ∧
        (z.state.scheduler.shuttingDown = true → z.state.joiner = .returned)) y := by
  have hnotify := monitor_notifies workers maxQueued
  obtain ⟨hreach, hpunctual⟩ := hnotify.punctual (.refl : Reaches workers maxQueued _) h
  have hsound := Sound.run hreach
  refine ⟨hreach, fun i hi => ?_, fun τ hs => ?_, ?_⟩
  · obtain ⟨j, hj, hwaiting, hnone⟩ := hpunctual _ hi
    cases hj
    obtain ⟨hflag, hdepth⟩ := Scheduler.workerTurn_none hnone
    exact ⟨hwaiting, hflag, hsound.tasks_eq_nil hdepth⟩
  · obtain ⟨u, hu⟩ := act_iff_step.mpr hs
    exact ⟨_, hnotify.possible hreach hpunctual hu, rfl⟩
  · have hrest : Inevitable (fun σ τ => ∃ u, Hand.inside u ∧ monitor.step u σ τ)
        (fun τ => τ.accepted.Perm τ.executed ∧
          (τ.scheduler.shuttingDown = true → τ.joiner = .returned)) y.state := by
      rw [show (fun σ τ => ∃ u, Hand.inside u ∧ monitor.step u σ τ) = Turn from
        funext fun σ => funext fun τ => propext act_iff_turn]
      exact Inevitable.of_measure workLeft (fun _ _ h hs => ⟨h.turn hs, h.workLeft_lt hs⟩)
        (fun _ h hstuck => h.done_of_stuck hw hstuck) hsound
    exact (hnotify.settles (fun σ _ => blocked_finite σ) hrest hreach hpunctual rfl).mono
      fun z hz => hz.1

/-- A worker falls asleep on the empty queue, and a task is submitted. -/
theorem one_worker_woken : ∃ y : Sleepy Crew Hand, y.state.accepted = [{ ref := 0 }] ∧
    y.asleep = ∅ ∧
    Inevitable (monitor.Patient Hand.inside) (fun z => z.state.accepted.Perm z.state.executed ∧
      (z.state.scheduler.shuttingDown = true → z.state.joiner = .returned)) y := by
  have hasleep : ReflTransGen monitor.Step ⟨start 1 8, ∅⟩ ⟨start 1 8, {.worker 0}⟩ := by
    have hdoze : monitor.Step ⟨start 1 8, ∅⟩ ⟨start 1 8, insert (.worker 0) ∅⟩ :=
      .doze (Set.notMem_empty _) ⟨0, rfl, rfl, rfl⟩
    rw [insert_empty_eq] at hdoze
    exact .single hdoze
  have hsubmit : monitor.step (.submit { ref := 0 }) (start 1 8) _ := Act.submit { ref := 0 }
  have hwoken := hasleep.tail (.move (fun h => by cases h) hsubmit)
  obtain ⟨-, -, -, hrest⟩ := worker_waits_lose_no_wakeup (Nat.le_refl 1) hwoken
  refine ⟨_, rfl, ?_, hrest⟩
  refine Set.eq_empty_iff_forall_notMem.mpr fun u hu => ?_
  exact hu.2 (Or.inr ⟨_, rfl, rfl⟩)

end Crew

end TransferFabric
