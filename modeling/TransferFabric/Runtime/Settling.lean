import TransferFabric.Foundation.Descent
import TransferFabric.Runtime.Outcomes
import TransferFabric.Runtime.Shutdown
import TransferFabric.Runtime.Submission

/-!
The runtime comes to rest. If clients make no new calls, the calls under way and
the tasks that are queued are worked off in finitely many steps, whoever goes next
and whatever backends, streams and the operating system answer. There is no bound
on their number: a submission hands work to a worker, and how long that works
depends on what it is answered. Threads therefore descend in an order on
collections, in which a submission is above the task it queues and a task above
the worker that takes it.

At rest nothing is queued, no worker is inside a task, and shutdowns have
returned. Whoever has not returned waits for a transfer that has not ended, and a
transfer that has not ended is either still in the hands of such a submission or
was given up for an unknown dependency. It is not claimed that deadlines are met
or that the calls are served in any order.
-/

namespace TransferFabric

open Interaction Relation

/-- A submission offers the record it has made. -/
theorem Script.offers {opts : TransferOptions} {l : List Mark} {r r' : Ref} {b taken : Bool}
    (h : Script (.submit opts) l) (hmade : .made r b ∈ l) (hoffered : .offered r' taken ∈ l) :
    r' = r := by
  rcases h with rfl | ⟨r₀, rfl | rfl | ⟨was, rfl | rfl⟩⟩
  · cases hmade
  · simp at hoffered
  · simp only [List.mem_cons, Mark.made.injEq, Mark.offered.injEq, reduceCtorEq, false_or,
      List.not_mem_nil, or_false] at hmade hoffered
    rw [hmade.1, hoffered.1]
  · cases was <;> simp [ending] at hoffered
  · cases was <;> simp [ending] at hoffered hmade <;> rw [hmade.1, hoffered.1]

/-! Who has to wait. -/

/-- The calls that may have to wait. -/
def RtCall.waits : RtCall → Bool
  | .awaitTerminal _ | .joinWorkers => true
  | _ => false

theorem World.answers_of_ready (w : World) {c : RtCall} (hc : c.waits = false) :
    ∃ x, w.Answers c x := by
  cases c with
  | awaitTerminal r => cases hc
  | joinWorkers => cases hc
  | exec r ec => cases ec <;> exact ⟨_, fair 0, rfl⟩
  | _ => exact ⟨_, fair 0, rfl⟩

namespace Runtime

variable {rt : Runtime} {σ σ' : System} {i : Tid} {r : Ref}

inductive Actor where
  | thread (i : Tid)
  /-- A free worker takes a task. -/
  | worker
  /-- A client makes a new call. -/
  | client
  deriving DecidableEq

/-- The steps of the runtime with those who take them. -/
inductive Turn (rt : Runtime) : Actor → System → System → Prop
  | act {σ : System} {i : Tid} {c : RtCall} {next : RtAnswer c → Prog RtSig Result}
      {x : RtAnswer c} (hi : σ.threads[i]? = some (.call c next)) (hx : σ.world.Answers c x) :
      Turn rt (.thread i) σ ⟨σ.world.after i c x, σ.threads.set i (next x)⟩
  | task {σ : System} {t : Task} {queue : Scheduler} (hdepth : 0 < σ.world.scheduler.queueDepth)
      (hbusy : σ.world.busy < rt.workers) (hpop : σ.world.scheduler.pop = (some t, queue)) :
      Turn rt .worker σ
        ⟨{ σ.world with scheduler := queue, busy := σ.world.busy + 1,
                        calls := σ.world.calls ++ [.work t] },
          σ.threads ++ [rt.program (.work t)]⟩
  | call {σ : System} (op : Op) (hop : ∀ t, op ≠ .work t) :
      Turn rt .client σ
        ⟨{ σ.world with calls := σ.world.calls ++ [op] }, σ.threads ++ [rt.program op]⟩

theorem turn_iff_step : (∃ a, rt.Turn a σ σ') ↔ rt.Step σ σ' := by
  constructor
  · rintro ⟨a, hs⟩
    cases hs with
    | act hi hx => exact .act hi ⟨hx, rfl⟩
    | task hdepth hbusy hpop => exact .start (.task σ.world hdepth hbusy hpop)
    | call op hop => exact .start (.call σ.world op hop)
  · intro hs
    cases hs with
    | act hi he =>
        obtain ⟨hx, rfl⟩ := he
        exact ⟨_, .act hi hx⟩
    | start hs =>
        cases hs with
        | call op hop => exact ⟨_, .call op hop⟩
        | task hdepth hbusy hpop => exact ⟨_, .task hdepth hbusy hpop⟩

/-- A step that is not a new call of a client. -/
def Onward (rt : Runtime) (σ σ' : System) : Prop := ∃ a, a ≠ .client ∧ rt.Turn a σ σ'

theorem Onward.step (h : rt.Onward σ σ') : rt.Step σ σ' :=
  turn_iff_step.mp (h.imp fun _ ha => ha.2)

/-! The descent. -/

/-- A client is above a queued task, and that is above a worker. -/
def rank (op : Op) : Nat := if op.isWork then 0 else 2

def queuedTask : Nat × Prog RtSig Result := (1, .done .worked)

def entries (σ : System) : List (Nat × Prog RtSig Result) :=
  List.zipWith (fun op p => (rank op, p)) σ.world.calls σ.threads

/-- What there is still to do. -/
def workload (σ : System) : Multiset (Nat × Prog RtSig Result) :=
  ↑(entries σ) + Multiset.replicate σ.world.scheduler.tasks.length queuedTask

def Below : Nat × Prog RtSig Result → Nat × Prog RtSig Result → Prop :=
  Prod.Lex (· < ·) Interaction.Continues

theorem below_wellFounded : WellFounded Below :=
  WellFounded.prod_lex Nat.lt_wfRel.wf continues_wellFounded

theorem entries_getElem {op : Op} {p : Prog RtSig Result} (hop : σ.world.calls[i]? = some op)
    (hp : σ.threads[i]? = some p) : (entries σ)[i]? = some (rank op, p) := by
  unfold entries
  rw [List.getElem?_zipWith, hop, hp]

theorem entries_act {w : World} {op : Op} {p : Prog RtSig Result}
    (hop : σ.world.calls[i]? = some op) (hcalls : w.calls = σ.world.calls) :
    entries ⟨w, σ.threads.set i p⟩ = (entries σ).set i (rank op, p) := by
  unfold entries
  rw [hcalls]
  refine List.ext_getElem? fun j => ?_
  rw [List.getElem?_set, List.getElem?_zipWith, List.getElem?_set]
  split_ifs with hij hlt hlt' hlt'
  · subst hij
    rw [hop]
  · rw [List.length_zipWith] at hlt'
    have := (List.getElem?_eq_some_iff.mp hop).1
    omega
  · rw [List.length_zipWith] at hlt'
    omega
  · cases σ.world.calls[j]? <;> rfl
  · rw [List.getElem?_zipWith]

theorem entries_start {w : World} {op : Op} {p : Prog RtSig Result}
    (hlength : σ.world.calls.length = σ.threads.length) (hcalls : w.calls = σ.world.calls ++ [op]) :
    entries ⟨w, σ.threads ++ [p]⟩ = entries σ ++ [(rank op, p)] := by
  unfold entries
  rw [hcalls, List.zipWith_append hlength]
  rfl

/-- A call queues at most one task, and only a submission queues any. -/
theorem tasks_act {op : Op} {c : RtCall} {x : RtAnswer c} (hmay : op.may c = true)
    (hx : σ.world.Answers c x) :
    ∃ k, (σ.world.after i c x).scheduler.tasks.length = σ.world.scheduler.tasks.length + k ∧
      (k ≠ 0 → rank op = 2) := by
  by_cases hsubmit : ∃ t, c = .schedule t
  · obtain ⟨t, rfl⟩ := hsubmit
    have hrank : rank op = 2 := by
      cases op with
      | work t => cases hmay
      | _ => rfl
    have hafter : (σ.world.after i (.schedule t) x).scheduler = (σ.world.scheduler.submit t).2 :=
      rfl
    rw [hafter]
    cases hs : σ.world.scheduler.submit t with
    | mk taken queue =>
    cases taken with
    | true =>
        refine ⟨1, ?_, fun _ => hrank⟩
        have hlength := (Scheduler.submit_tasks hs).length_eq
        rwa [List.length_cons] at hlength
    | false =>
        have hlength := congrArg (fun s => s.tasks.length) (Scheduler.submit_false hs)
        exact ⟨0, hlength, fun _ => hrank⟩
  · have hsame := (σ.world.after_changes i c x).tasks (not_exists.mp hsubmit)
    exact ⟨0, congrArg List.length hsame, fun h => absurd rfl h⟩

theorem Onward.descends (h : rt.Reaches σ) (hs : rt.Onward σ σ') :
    CutExpand Below (workload σ') (workload σ) := by
  obtain ⟨a, ha, hs⟩ := hs
  unfold workload
  cases hs with
  | call => exact absurd rfl ha
  | @act _ i c next x hi hx =>
      obtain ⟨op, hop⟩ := h.called hi
      obtain ⟨k, htasks, hk⟩ := tasks_act (i := i) (((h.may hop).2 _ hi).1) hx
      rw [entries_act hop (σ.world.after_changes i c x).calls, htasks, Multiset.replicate_add]
      refine cutExpand_set (entries_getElem hop hi) ?_ fun y hy => ?_
      · exact Prod.Lex.right _ ⟨c, next, x, rfl, rfl⟩
      · -- a task that was queued
        obtain ⟨hpos, rfl⟩ := Multiset.mem_replicate.mp hy
        refine Prod.Lex.left _ _ ?_
        rw [hk hpos]
        exact Nat.one_lt_two
  | @task _ t queue hdepth hbusy hpop =>
      have hlength := (Scheduler.pop_tasks hpop).length_eq
      rw [entries_start h.calls_length rfl, hlength, List.length_cons, Multiset.replicate_succ,
        ← Multiset.coe_add]
      refine ⟨{(rank (.work t), rt.program (.work t))}, queuedTask, fun y hy => ?_, ?_⟩
      · rw [Multiset.mem_singleton.mp hy]
        exact Prod.Lex.left _ _ Nat.one_pos
      · rw [Multiset.coe_singleton, ← Multiset.singleton_add]
        abel

/-! A state in which nothing goes on. -/

theorem exists_of_waitsFor (h : waitsFor σ i = some r) :
    ∃ next, σ.threads[i]? = some (.call (.awaitTerminal r) next) := by
  unfold waitsFor at h
  split at h
  · rename_i r' next hi
    obtain rfl := Option.some.inj h
    exact ⟨next, hi⟩
  · cases h

/-- Nothing is queued, nobody works, and who has not returned waits in vain. -/
structure Rests (σ : System) : Prop where
  queue : σ.world.scheduler.tasks = []
  busy : σ.world.busy = 0
  workers : ∀ i task, σ.world.calls[i]? = some (.work task) →
    (returned σ i).isSome = true
  shutdowns : ∀ i, σ.world.calls[i]? = some .shutdown → (returned σ i).isSome = true
  /-- A call that has not returned waits for a transfer that has not ended. -/
  calls : ∀ i < σ.threads.length, (returned σ i).isSome = true ∨
    ∃ r < σ.world.next, waitsFor σ i = some r ∧ (σ.world.heap r).state.isTerminal = false
  /-- The submission of a transfer that has not ended waits, or has given it up. -/
  transfers : ∀ r < σ.world.next, (σ.world.heap r).state.isTerminal = false →
    (∃ d, waitsFor σ (σ.world.heap r).maker = some d) ∨
      ∃ err out, returned σ (σ.world.heap r).maker = some (.submitted err out) ∧
        err.ok = false ∧ ∃ id, (id, none) ∈ lookups (σ.world.past (σ.world.heap r).maker)

section Stuck

variable (h : rt.Reaches σ) (hstuck : ∀ τ, ¬ rt.Onward σ τ)

include hstuck in
/-- A thread that has not returned has to wait. -/
theorem stuck_waits {c : RtCall} {next : RtAnswer c → Prog RtSig Result}
    (hi : σ.threads[i]? = some (.call c next)) :
    c.waits = true ∧ ∀ x, ¬ σ.world.Answers c x := by
  have hnone : ∀ x, ¬ σ.world.Answers c x := fun x hx => hstuck _ ⟨_, by simp, .act hi hx⟩
  refine ⟨?_, hnone⟩
  cases hwaits : c.waits with
  | true => rfl
  | false =>
      obtain ⟨x, hx⟩ := σ.world.answers_of_ready hwaits
      exact absurd hx (hnone x)

include h hstuck in
theorem stuck_workers {task : Task} (hop : σ.world.calls[i]? = some (.work task)) :
    ∃ res, σ.threads[i]? = some (.done res) := by
  obtain ⟨q, hq⟩ := h.thread hop
  cases q with
  | done res => exact ⟨res, hq⟩
  | call c next =>
      have hmay := ((h.may hop).2 _ hq).1
      have hwaits := (stuck_waits hstuck hq).1
      cases c with
      | awaitTerminal r => cases hmay
      | joinWorkers => cases hmay
      | _ => cases hwaits

/-- A worker that has returned is back at its queue. -/
theorem Reaches.came_back (h : rt.Reaches σ) {task : Task} {res : Result}
    (hop : σ.world.calls[i]? = some (.work task)) (hret : σ.threads[i]? = some (.done res)) :
    (⟨.workerReturns, ()⟩ : RtEvent) ∈ σ.world.past i := by
  have hruns : Runs (rt.work task) res (σ.world.past i) := follows_done (h.follows hop hret)
  obtain ⟨-, t₁, t₂, ht, -, hlast⟩ := (runs_bind _ _ _ _).mp hruns
  obtain ⟨x, rest, hrest, -⟩ := hlast
  rw [ht, hrest]
  exact List.mem_append_right _ List.mem_cons_self

include h hstuck in
theorem stuck_busy : σ.world.busy = 0 := by
  rw [h.busy, tally, List.countP_eq_zero]
  intro i hi
  simp only [atWork, World.account, Bool.and_eq_true, Bool.not_eq_true', not_and,
    Bool.not_eq_false]
  intro hwork
  obtain ⟨op, hop, hisWork⟩ := (Option.any_eq_true _ _).mp hwork
  cases op with
  | work task =>
      obtain ⟨res, hret⟩ := stuck_workers h hstuck hop
      exact List.any_eq_true.mpr ⟨_, h.came_back hop hret, rfl⟩
  | _ => cases hisWork

theorem workers_pos (rt : Runtime) : 0 < rt.workers := by
  unfold workers
  split_ifs <;> omega

include h hstuck in
theorem stuck_depth : σ.world.scheduler.queueDepth = 0 := by
  by_contra hdepth
  obtain ⟨q, hq⟩ := h.queue
  obtain ⟨q', hserves, -⟩ := hq.pop
  cases hpop : σ.world.scheduler.pop with
  | mk task queue =>
  rw [hpop] at hserves
  cases hserves with
  | serve served =>
      have hbusy : σ.world.busy < rt.workers := by
        rw [stuck_busy h hstuck]
        exact rt.workers_pos
      exact hstuck _ ⟨_, by simp, .task (Nat.pos_of_ne_zero hdepth) hbusy hpop⟩
  | idle empty =>
      rw [hq.depth, empty] at hdepth
      exact hdepth rfl

include h hstuck in
/-- A call that has not returned waits for a transfer. -/
theorem stuck_calls (hi : i < σ.threads.length) : (∃ res, σ.threads[i]? = some (.done res)) ∨
    ∃ r < σ.world.next, waitsFor σ i = some r ∧ (σ.world.heap r).state.isTerminal = false := by
  obtain ⟨l, ⟨-, -, htruth, -⟩, hpermits, -⟩ := h.known
  have hq := List.getElem?_eq_getElem hi
  cases hprog : σ.threads[i] with
  | done res => exact Or.inl ⟨res, hprog ▸ hq⟩
  | call c next =>
      rw [hprog] at hq
      obtain ⟨hwaits, hnone⟩ := stuck_waits hstuck hq
      cases c with
      | awaitTerminal r =>
          obtain ⟨hlt, id, hfound⟩ := hpermits i _ _ hq
          obtain ⟨hr, -⟩ := htruth.found i hlt id r hfound
          refine Or.inr ⟨r, hr, ?_, ?_⟩
          · unfold waitsFor
            rw [hq]
          · by_contra hterm
            have hterm := Bool.eq_true_of_not_eq_false hterm
            have hsettled : (σ.world.heap r).settled = true := by
              simp [Transfer.settled, (htruth.sound r hr).notified, hterm]
            exact hnone (σ.world.heap r).state ⟨fair 0, if_pos hsettled⟩
      | joinWorkers =>
          exact absurd ⟨fair 0, if_pos ⟨stuck_busy h hstuck, stuck_depth h hstuck⟩⟩ (hnone ())
      | _ => cases hwaits

include h hstuck in
/-- A transfer the scheduler took has been run to its end. -/
theorem stuck_taken (htaken : r ∈ σ.world.scheduler.tasks.map Task.ref ++ σ.world.workRefs) :
    (σ.world.heap r).state.isTerminal = true := by
  rw [h.no_tasks (stuck_depth h hstuck), List.map_nil, List.nil_append] at htaken
  obtain ⟨j, hworks⟩ := World.mem_workRefs.mp htaken
  obtain ⟨p, hop⟩ := World.works_iff.mp hworks
  obtain ⟨res, hret⟩ := stuck_workers h hstuck hop
  obtain ⟨e, hran, -⟩ := h.worked hop hret
  have hstate : (σ.world.heap r).state = terminalFor e := hran.state
  rw [hstate]
  unfold terminalFor
  split_ifs <;> rfl

/-- A submission that has returned with its record saw it to one of its ends. -/
theorem Reaches.saw_end (h : rt.Reaches σ) {opts : TransferOptions} {res : Result} {b : Bool}
    (hop : σ.world.calls[i]? = some (.submit opts)) (hret : σ.threads[i]? = some (.done res))
    (hmade : .made r b ∈ σ.world.marks i) : ∃ ev ∈ σ.world.past i, EndsIn ev := by
  have hnotes : Notes turn (.done res) _ _ :=
    (shows_submit opts).split.2.follows (h.follows hop hret)
  have hends : (σ.world.past i).filterMap turn = [] ∨ true ∈ (σ.world.past i).filterMap turn :=
    hnotes
  rcases hends with hnone | hmem
  · obtain ⟨⟨c, x⟩, hev, hmark⟩ := List.mem_filterMap.mp hmade
    have hturn := List.filterMap_eq_nil_iff.mp hnone _ hev
    cases c with
    | insert t => cases hturn
    | count op => cases op <;> cases hmark
    | _ => cases hmark
  · obtain ⟨ev, hev, hturn⟩ := List.mem_filterMap.mp hmem
    exact ⟨ev, hev, endsIn_of_turn hturn⟩

include h hstuck in
/-- A submission that has returned either saw its transfer end or gave it up. -/
theorem stuck_maker (hr : r < σ.world.next) {res : Result}
    (hret : σ.threads[(σ.world.heap r).maker]? = some (.done res)) :
    (σ.world.heap r).state.isTerminal = true ∨
      ∃ err out, res = .submitted err out ∧ err.ok = false ∧
        ∃ id, (id, none) ∈ lookups (σ.world.past (σ.world.heap r).maker) := by
  obtain ⟨l, hl⟩ := h.audited
  obtain ⟨hcoupled, -, hclosings, -, -⟩ := hl.1
  obtain ⟨hi, hmade⟩ := hcoupled.records.maker r hr
  have hlooked := hcoupled.history.looked _ hi
  have hop := hcoupled.history.op _ hi
  have hsubmit := hcoupled.records.submitted _ hi r _ hmade
  obtain ⟨b, hmark⟩ := h.flow.maker r hr
  have hended := (hl.returned hret).1.1
  rw [hsubmit] at hop
  generalize hmaker : (σ.world.heap r).maker = i at *
  rw [Function.comp_apply] at hmade hlooked hsubmit
  have hmine : ∀ t, (l i).1.own = some (r, t) → t.state = .failed →
      (σ.world.heap r).state.isTerminal = true := by
    intro t hown hstate
    rw [(hcoupled.records.own i hi r t hown).2, hstate]
    rfl
  have haside : ¬ (l i).1.Aside := fun haside => by
    have hother := haside.other
    rw [hsubmit] at hother
    cases hother
  cases res with
  | submitted err out =>
      cases hended.2 with
      | rejected idle =>
          rw [idle.made] at hmade
          cases hmade
      | @queued r' id made own created handed closed counted awaited looked =>
          refine Or.inl (stuck_taken h hstuck ((h.flow.taken r).mpr ⟨hr, ?_⟩))
          rw [hmaker]
          obtain ⟨ev, hev, hends⟩ := h.saw_end hop hret hmark
          cases hends with
          | taken t =>
              have hoffered := List.mem_filterMap.mpr ⟨_, hev, (by rfl : mark _ = some _)⟩
              rwa [(h.script hop).elim fun _ hs => hs.offers (List.mem_append_left _ hmark)
                (List.mem_append_left _ hoffered)] at hoffered
          | closed r' s e =>
              have hclosed := (hclosings.past i hi r' s e hev).1
              rw [Function.comp_apply, closed] at hclosed
              cases hclosed
          | unknown id =>
              have hmem : (id, none) ∈ lookups (σ.world.past i) :=
                List.mem_filterMap.mpr ⟨_, hev, rfl⟩
              have hfound := looked _ (hlooked ▸ hmem)
              cases hfound
      | @failed r' id t made own state =>
          obtain rfl := (Prod.mk.inj (Option.some.inj (made.symm.trans hmade))).1
          exact Or.inl (hmine t own state)
      | @dependencyFailed r' id out t err made own state =>
          obtain rfl := (Prod.mk.inj (Option.some.inj (made.symm.trans hmade))).1
          exact Or.inl (hmine t own state)
      | unknownDependency made own state created handed closed counted awaited looked err_bad =>
          obtain ⟨⟨id, found⟩, hmem, hfound⟩ := looked
          obtain rfl : found = none := hfound
          exact Or.inr ⟨err, out, rfl, err_bad, id, hlooked ▸ hmem⟩
  | worked =>
      have hwork : (l i).1.op.isWork = true := hended.work
      rw [hsubmit] at hwork
      cases hwork
  | cancelled err => exact absurd hended.1 haside
  | _ => exact absurd hended haside

include h hstuck in
theorem stuck_rests : Rests σ where
  queue := h.no_tasks (stuck_depth h hstuck)
  busy := stuck_busy h hstuck
  workers i task hop := by
    obtain ⟨res, hret⟩ := stuck_workers h hstuck hop
    exact returned_of_done hret
  shutdowns i hop := by
    obtain ⟨q, hq⟩ := h.thread hop
    rcases stuck_calls h hstuck (List.getElem?_eq_some_iff.mp hq).1 with
      ⟨res, hret⟩ | ⟨r, hr, hwait, -⟩
    · exact returned_of_done hret
    · -- a shutdown does not wait for a transfer
      obtain ⟨next, hi⟩ := exists_of_waitsFor hwait
      have hmay := ((h.may hop).2 _ hi).1
      cases hmay
  calls i hi := by
    rcases stuck_calls h hstuck hi with ⟨res, hret⟩ | hwait
    · exact Or.inl (returned_of_done hret)
    · exact Or.inr hwait
  transfers r hr hlive := by
    obtain ⟨l, ⟨-, hrecords, -, -⟩, -, -⟩ := h.known
    rcases stuck_calls h hstuck (hrecords.maker r hr).1 with ⟨res, hret⟩ | ⟨d, -, hwait, -⟩
    · rcases stuck_maker h hstuck hr hret with hterm | ⟨err, out, rfl, hbad, hunknown⟩
      · rw [hterm] at hlive
        cases hlive
      · refine Or.inr ⟨err, out, ?_, hbad, hunknown⟩
        unfold returned
        rw [hret]
    · exact Or.inl ⟨d, hwait⟩

end Stuck

/-- Without submissions that wait for each other, and with every dependency known, all calls
have returned at rest and all transfers have ended. -/
theorem Rests.all_ended (h : rt.Reaches σ) (hrest : Rests σ) (hdead : ∀ S, ¬ Deadlocked σ S)
    (hknown : ∀ r < σ.world.next, ∀ id, (id, none) ∉ resolved σ r) :
    (∀ i < σ.threads.length, (returned σ i).isSome = true) ∧
      ∀ r < σ.world.next, (σ.world.heap r).state.isTerminal = true := by
  obtain ⟨l, ⟨hhistory, hrecords, -, -⟩, -, -⟩ := h.known
  -- the makers of the transfers that have not ended wait for each other
  let S : Set Tid := { i | ∃ r < σ.world.next, (σ.world.heap r).maker = i ∧
    (σ.world.heap r).state.isTerminal = false }
  have hended : ∀ r < σ.world.next, (σ.world.heap r).state.isTerminal = true := by
    intro r hr
    by_contra hlive
    have hlive := Bool.eq_false_of_not_eq_true hlive
    refine hdead S ⟨⟨_, r, hr, rfl, hlive⟩, ?_, ?_⟩
    · rintro i ⟨r', hr', rfl, -⟩
      obtain ⟨hi, hmade⟩ := hrecords.maker r' hr'
      rw [hhistory.op _ hi, hrecords.submitted _ hi r' _ hmade]
      rfl
    · rintro i ⟨r', hr', rfl, hlive'⟩
      rcases hrest.transfers r' hr' hlive' with ⟨d, hwait⟩ | ⟨-, -, -, -, id, hunknown⟩
      · obtain ⟨hi, -⟩ := hrecords.maker r' hr'
        rcases hrest.calls _ hi with hret | ⟨r₁, hr₁, hwait₁, hlive₁⟩
        · obtain ⟨next, hcall⟩ := exists_of_waitsFor hwait
          rw [not_returned hcall] at hret
          cases hret
        · refine ⟨r₁, hwait₁, ?_, r₁, hr₁, rfl, hlive₁⟩
          simp [Transfer.settled, hlive₁]
      · exact absurd hunknown (hknown r' hr' id)
  refine ⟨fun i hi => ?_, hended⟩
  rcases hrest.calls i hi with hret | ⟨r, hr, -, hlive⟩
  · exact hret
  · rw [hended r hr] at hlive
    cases hlive

/-- What goes on comes to an end, and it ends at rest. -/
theorem Reaches.inevitable (h : rt.Reaches σ) :
    Transition.Inevitable rt.Onward (fun τ => rt.Reaches τ ∧ Rests τ) σ :=
  .of_wellFounded (I := rt.Reaches) (InvImage.wf workload below_wellFounded.cutExpand)
    (fun _ _ hσ hs => ⟨hσ.tail hs.step, hs.descends hσ⟩)
    (fun _ hτ hstuck => ⟨hτ, stuck_rests hτ hstuck⟩) h

/-- If clients make no new calls, the runtime comes to rest, whatever happens. -/
theorem runtime_comes_to_rest (h : rt.Reaches σ) :
    Transition.Inevitable rt.Onward (fun τ => Rests τ ∧
      ((∀ S, ¬ Deadlocked τ S) → (∀ r < τ.world.next, ∀ id, (id, none) ∉ resolved τ r) →
        (∀ i < τ.threads.length, (returned τ i).isSome = true) ∧
          ∀ r < τ.world.next, (τ.world.heap r).state.isTerminal = true)) σ :=
  h.inevitable.mono fun _ hτ => ⟨hτ.2, hτ.2.all_ended hτ.1⟩

/-- With a transfer that is queued and not yet taken. -/
theorem oneTransfer_comes_to_rest :
    (loopback.play oneTransfer).world.scheduler.tasks.length = 1 ∧
      Transition.Inevitable loopback.Onward (fun τ => Rests τ ∧
        ((∀ S, ¬ Deadlocked τ S) → (∀ r < τ.world.next, ∀ id, (id, none) ∉ resolved τ r) →
          (∀ i < τ.threads.length, (returned τ i).isSome = true) ∧
            ∀ r < τ.world.next, (τ.world.heap r).state.isTerminal = true))
        (loopback.play oneTransfer) :=
  ⟨by decide +kernel, runtime_comes_to_rest (loopback.play_reaches oneTransfer)⟩

end Runtime

end TransferFabric
