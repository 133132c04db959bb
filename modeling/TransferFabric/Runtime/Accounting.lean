import TransferFabric.Runtime.Submission
import Mathlib.Algebra.Order.BigOperators.Group.Finset

/-!
The books of a runtime at rest. When no submission is under way and no task is
queued or running, every record is accounted for by the threads that have
ended: it was handed to a worker, or its submission ended it, or its submission
left it because of a dependency that is not registered. The counters follow the
records except in two places, and the result says exactly by how much.
-/

namespace TransferFabric

open Interaction

/-! The threads of a runtime at rest. -/

namespace View

variable {m : View}

/-- A submission that waited for a dependency and saw it end otherwise than completed. -/
def sawFailure (m : View) : Bool :=
  m.op.isSubmit && m.awaited.any fun p => decide (p.2 ≠ .completed)

/-- A submission that looked up a dependency that is not registered. -/
def sawUnknown (m : View) : Bool := m.op.isSubmit && m.looked.any fun p => p.2.isNone

/-- The submission ended its own record. -/
def endedOwn (m : View) : Bool := m.op.isSubmit && m.closed.isSome

/-- What a thread of a runtime at rest contributes to the books. -/
structure AtRest (m : View) : Prop where
  created : m.created = m.made.isSome
  /-- A record was taken by the scheduler, ended by its submission, or left alone. -/
  made : m.made.isSome.toNat = m.handed.toNat + (m.endedOwn.toNat + m.sawUnknown.toNat)
  closed : m.closed.isSome.toNat = m.op.isWork.toNat + m.endedOwn.toNat
  outcome : ∀ s, s = .completed ∨ s = .cancelled → (m.closed = some s ↔ m.counted = some s)
  failed : (decide (m.closed = some .failed)).toNat =
    (decide (m.counted = some .failed)).toNat + m.sawFailure.toNat
  terminal : ∀ s, m.closed = some s → s = .completed ∨ s = .cancelled ∨ s = .failed

theorem Aside.atRest (h : m.Aside) : m.AtRest := by
  have hother := h.other
  refine ⟨?_, ?_, ?_, ?_, ?_, ?_⟩ <;>
    simp [h.made, h.created, h.handed, h.closed, h.counted, h.client, endedOwn, sawUnknown,
      sawFailure, hother]

theorem WorkEnd.atRest (h : m.WorkEnd) : m.AtRest := by
  have hother : m.op.isSubmit = false := by
    have hwork := h.work
    cases hop : m.op <;> simp_all [Op.isSubmit, Op.isWork]
  obtain ⟨s, hclosed, hs⟩ := h.closed
  refine ⟨?_, ?_, ?_, ?_, ?_, ?_⟩
  · simp [h.made, h.created]
  · simp [h.made, h.handed, endedOwn, sawUnknown, hother]
  · simp [hclosed, h.work, endedOwn, hother]
  · intro s' _
    rw [h.counted]
  · simp [h.counted, sawFailure, hother]
  · rintro s' hs'
    obtain rfl := Option.some.inj (hclosed.symm.trans hs')
    exact hs

theorem SubmitEnd.atRest {err : Error} {out : TransferId} (h : m.SubmitEnd err out)
    (hop : m.op.isSubmit = true) : m.AtRest := by
  have hclient : m.op.isWork = false := by
    cases hm : m.op <;> simp_all [Op.isSubmit, Op.isWork]
  -- the two flags are read off what the submission looked up and waited for
  have hunknown : (∀ p ∈ m.looked, p.2.isSome = true) → m.sawUnknown = false := fun hall => by
    simp only [sawUnknown, hop, Bool.true_and, List.any_eq_false]
    intro p hp
    simp [Option.isSome_iff_ne_none.mp (hall p hp)]
  have hfailure : (∀ p ∈ m.awaited, p.2 = .completed) → m.sawFailure = false := fun hall => by
    simp only [sawFailure, hop, Bool.true_and, List.any_eq_false]
    intro p hp
    simp [hall p hp]
  cases h with
  | rejected idle looked awaited err_bad =>
      have hunknown := hunknown (by simp [looked])
      have hfailure := hfailure (by simp [awaited])
      refine ⟨?_, ?_, ?_, ?_, ?_, ?_⟩ <;>
        simp [idle.made, idle.created, idle.handed, idle.closed, idle.counted, hclient, endedOwn,
          hunknown, hfailure]
  | queued made own created handed closed counted awaited looked =>
      have hunknown := hunknown looked
      have hfailure := hfailure awaited
      refine ⟨?_, ?_, ?_, ?_, ?_, ?_⟩ <;>
        simp [made, created, handed, closed, counted, hclient, endedOwn, hunknown, hfailure]
  | failed made own state created handed closed counted awaited looked =>
      have hunknown := hunknown looked
      have hfailure := hfailure awaited
      refine ⟨?_, ?_, ?_, ?_, ?_, ?_⟩ <;>
        simp [made, created, handed, closed, counted, hclient, endedOwn, hunknown, hfailure, hop]
  | dependencyFailed made own state created handed closed counted awaited looked err_bad =>
      have hunknown := hunknown looked
      have hfailure : m.sawFailure = true := by
        obtain ⟨p, hp, hne⟩ := awaited
        simp only [sawFailure, hop, Bool.true_and, List.any_eq_true]
        exact ⟨p, hp, by simp [hne]⟩
      refine ⟨?_, ?_, ?_, ?_, ?_, ?_⟩
      · simp [made, created]
      · simp [made, handed, endedOwn, hop, closed, hunknown]
      · simp [closed, hclient, endedOwn, hop]
      · rintro s (rfl | rfl) <;> simp [closed, counted]
      · simp [closed, counted, hfailure]
      · simp [closed]
  | unknownDependency made own state created handed closed counted awaited looked err_bad =>
      have hfailure := hfailure awaited
      have hunknown : m.sawUnknown = true := by
        obtain ⟨p, hp, hnone⟩ := looked
        simp only [sawUnknown, hop, Bool.true_and, List.any_eq_true]
        exact ⟨p, hp, by simp [hnone]⟩
      refine ⟨?_, ?_, ?_, ?_, ?_, ?_⟩ <;>
        simp [made, created, handed, closed, counted, hclient, endedOwn, hunknown, hfailure]

theorem Ended.atRest {res : Result} (h : Ended res m) : m.AtRest := by
  cases res with
  | submitted err out =>
      obtain ⟨⟨opts, hopts⟩, hend⟩ := h
      exact hend.atRest (by rw [hopts]; rfl)
  | worked => exact WorkEnd.atRest h
  | cancelled err => exact h.1.atRest
  | reported | inspected | waited | registered | unregistered | stopped => exact Aside.atRest h

end View

namespace Runtime

variable {rt : Runtime} {σ : System}

/-- No submission is in progress and no task is queued or running. -/
structure Quiescent (σ : System) : Prop where
  drained : σ.world.scheduler.tasks = []
  ended : ∀ i op, σ.world.calls[i]? = some op → op.isSubmit = true ∨ op.isWork = true →
    (returned σ i).isSome = true

/-- Every task the scheduler accepted has been run to its end. -/
structure Finished (σ : System) : Prop where
  drained : σ.world.scheduler.tasks = []
  ended : ∀ i task, σ.world.calls[i]? = some (.work task) → (returned σ i).isSome = true

theorem Quiescent.finished (h : Quiescent σ) : Finished σ :=
  ⟨h.drained, fun i _ hop => h.ended i _ hop (Or.inr rfl)⟩

/-- How many submissions waited for a dependency that ended otherwise than completed. -/
def failedDependencies (σ : System) : Nat :=
  (List.range σ.world.calls.length).countP fun i =>
    (σ.world.calls[i]?).any Op.isSubmit &&
      (waits (σ.world.past i)).any fun p => decide (p.2 ≠ .completed)

/-- How many submissions looked up a dependency that was not registered. -/
def unknownDependencies (σ : System) : Nat :=
  (List.range σ.world.calls.length).countP fun i =>
    (σ.world.calls[i]?).any Op.isSubmit && (lookups (σ.world.past i)).any fun p => p.2.isNone

/-- How many transfers are in a state. -/
def inState (σ : System) (s : TransferState) : Nat :=
  (List.range σ.world.next).countP fun r => (σ.world.heap r).state = s

/-- How many registered records are in a state. -/
def registeredIn (σ : System) (s : TransferState) : Nat :=
  (List.range σ.world.next).countP fun r =>
    decide (σ.world.transfers (σ.world.heap r).id = some r ∧ (σ.world.heap r).state = s)

/-- No two records have the same id. -/
def DistinctIds (σ : System) : Prop :=
  ∀ r < σ.world.next, ∀ r' < σ.world.next, (σ.world.heap r).id = (σ.world.heap r').id → r = r'

theorem Quiescent.atRest (h : rt.Reaches σ) (hq : Quiescent σ) :
    ∃ l, Coupled rt σ.world l σ.threads.length ∧ ∀ i < σ.threads.length, (l i).AtRest := by
  obtain ⟨l, hl, -, hreturned⟩ := h.known
  refine ⟨l, hl, fun i hi => ?_⟩
  have hop := hl.history.op i hi
  by_cases hends : (l i).op.isSubmit = true ∨ (l i).op.isWork = true
  · obtain ⟨res, hres⟩ := Option.isSome_iff_exists.mp (hq.ended i _ hop hends)
    exact (hreturned i res (returned_eq hres)).2.atRest
  · obtain ⟨hsubmit, hwork⟩ := not_or.mp hends
    rw [Bool.not_eq_true] at hsubmit hwork
    exact View.Aside.atRest ⟨hl.ledger.aside i hi hsubmit hwork, hsubmit⟩

theorem registeredIn_eq (h : rt.Reaches σ) (hids : DistinctIds σ) (s : TransferState) :
    registeredIn σ s = inState σ s := by
  obtain ⟨l, hl, -, -⟩ := h.known
  refine List.countP_congr fun r hr => ?_
  obtain ⟨r', hge, hto⟩ := hl.records.covered r (List.mem_range.mp hr)
  obtain ⟨hr', hid⟩ := hl.records.registered _ r' hto
  obtain rfl := hids r' hr' r (List.mem_range.mp hr) hid
  simp [hto]

/-- The books of a runtime at rest, in numbers. -/
theorem Quiescent.books (h : rt.Reaches σ) (hq : Quiescent σ) :
    ∃ counted : Nat, σ.world.telemetry.created = UInt64.ofNat σ.world.next ∧
      σ.world.telemetry.completed = UInt64.ofNat (inState σ .completed) ∧
      σ.world.telemetry.cancelled = UInt64.ofNat (inState σ .cancelled) ∧
      σ.world.telemetry.failed = UInt64.ofNat counted ∧
      inState σ .failed = counted + failedDependencies σ ∧
      σ.world.next = inState σ .completed + inState σ .cancelled +
        inState σ .failed + unknownDependencies σ := by
  obtain ⟨l, ⟨hhistory, -, -, hledger⟩, hrest⟩ := Quiescent.atRest h hq
  have hclosed : ∀ s, TransferState.isTerminal s = true → inState σ s =
      tally (fun m : View => decide (m.closed = some s)) l σ.threads.length := hledger.closed
  have houtcome : ∀ s, s = .completed ∨ s = .cancelled → TransferState.isTerminal s = true →
      σ.world.telemetry.outcome s = UInt64.ofNat (inState σ s) := by
    intro s hs hterm
    rw [hledger.outcome s, hclosed s hterm]
    exact congrArg _ (tally_congr fun i hi => decide_eq_decide.mpr ((hrest i hi).outcome s hs).symm)
  have hfailures : failedDependencies σ = tally View.sawFailure l σ.threads.length := by
    unfold failedDependencies
    rw [hhistory.length]
    refine List.countP_congr fun i hi => ?_
    have hi := List.mem_range.mp hi
    rw [hhistory.op i hi, ← hhistory.awaited i hi]
    rfl
  have hunknown : unknownDependencies σ = tally View.sawUnknown l σ.threads.length := by
    unfold unknownDependencies
    rw [hhistory.length]
    refine List.countP_congr fun i hi => ?_
    have hi := List.mem_range.mp hi
    rw [hhistory.op i hi, ← hhistory.looked i hi]
    rfl
  have hcreated : σ.world.telemetry.created = UInt64.ofNat σ.world.next := by
    rw [hledger.created, hledger.made]
    exact congrArg _ (tally_congr fun i hi => (hrest i hi).created)
  -- thread by thread: a record was taken by the scheduler, ended by its submission or left alone
  have hmade : σ.world.next = tally View.handed l σ.threads.length +
      (tally View.endedOwn l σ.threads.length + tally View.sawUnknown l σ.threads.length) := by
    rw [hledger.made]
    simp only [tally_eq_sum, ← Finset.sum_add_distrib]
    exact Finset.sum_congr rfl fun i hi => (hrest i (Finset.mem_range.mp hi)).made
  have hended : tally (fun m : View => m.closed.isSome) l σ.threads.length =
      tally (fun m : View => m.op.isWork) l σ.threads.length +
        tally View.endedOwn l σ.threads.length := by
    simp only [tally_eq_sum, ← Finset.sum_add_distrib]
    exact Finset.sum_congr rfl fun i hi => (hrest i (Finset.mem_range.mp hi)).closed
  have hstates : tally (fun m : View => m.closed.isSome) l σ.threads.length =
      inState σ .completed + inState σ .cancelled + inState σ .failed := by
    rw [hclosed _ rfl, hclosed _ rfl, hclosed _ rfl]
    simp only [tally_eq_sum, ← Finset.sum_add_distrib]
    refine Finset.sum_congr rfl fun i hi => ?_
    cases hc : (l i).closed with
    | none => rfl
    | some s =>
        rcases (hrest i (Finset.mem_range.mp hi)).terminal s hc with rfl | rfl | rfl <;> rfl
  have hfailed : inState σ .failed =
      tally (fun m : View => decide (m.counted = some .failed)) l σ.threads.length +
        failedDependencies σ := by
    rw [hclosed _ rfl, hfailures]
    simp only [tally_eq_sum, ← Finset.sum_add_distrib]
    exact Finset.sum_congr rfl fun i hi => (hrest i (Finset.mem_range.mp hi)).failed
  have hhands := hledger.hands
  rw [hq.drained, List.length_nil] at hhands
  refine ⟨_, hcreated, houtcome .completed (Or.inl rfl) rfl, houtcome .cancelled (Or.inr rfl) rfl,
    hledger.outcome .failed, hfailed, ?_⟩
  rw [hunknown, ← hstates, hended, hmade, hhands, Nat.zero_add, Nat.add_assoc]

/-- At rest, every transfer has ended, unless a submission left one because of an unknown
dependency. -/
theorem Quiescent.all_ended (h : rt.Reaches σ) (hq : Quiescent σ)
    (hknown : unknownDependencies σ = 0) {r : Ref} (hr : r < σ.world.next) :
    (σ.world.heap r).state.isTerminal = true := by
  obtain ⟨-, -, -, -, -, -, hnext⟩ := hq.books h
  have hcount : ∀ s, inState σ s = ∑ r ∈ Finset.range σ.world.next,
      (decide ((σ.world.heap r).state = s)).toNat := fun s =>
    tally_eq_sum (fun t : Transfer => decide (t.state = s)) σ.world.heap σ.world.next
  rw [hknown, Nat.add_zero, hcount, hcount, hcount, ← Finset.sum_add_distrib,
    ← Finset.sum_add_distrib] at hnext
  -- each record contributes one at most, and together they contribute one each
  have hle : ∀ r ∈ Finset.range σ.world.next,
      (decide ((σ.world.heap r).state = .completed)).toNat +
        (decide ((σ.world.heap r).state = .cancelled)).toNat +
        (decide ((σ.world.heap r).state = .failed)).toNat ≤ 1 := by
    intro r _
    cases (σ.world.heap r).state <;> decide
  have hones : σ.world.next = ∑ _r ∈ Finset.range σ.world.next, 1 := by
    rw [Finset.sum_const, Finset.card_range, Nat.nsmul_eq_mul, Nat.mul_one]
  have hone := (Finset.sum_eq_sum_iff_of_le hle).mp (hnext.symm.trans hones) r
    (Finset.mem_range.mpr hr)
  revert hone
  cases (σ.world.heap r).state <;> decide

/-- Counters that wrap at `2 ^ 64` agree with the numbers they stand for. -/
private theorem books_close {completed cancelled failed counted left unknown next : Nat}
    (hfailed : failed = counted + left) (hnext : next = completed + cancelled + failed + unknown) :
    (next % 2 ^ 64 = completed % 2 ^ 64 + counted % 2 ^ 64 + cancelled % 2 ^ 64 ∧
      completed % 2 ^ 64 = completed ∧ counted % 2 ^ 64 = failed ∧
      cancelled % 2 ^ 64 = cancelled) ↔
    left = 0 ∧ 2 ^ 64 ∣ unknown ∧ next - unknown < 2 ^ 64 := by
  omega

/-- In every state of rest of a runtime whose transfers have distinct ids, the counter of
created transfers is the sum of the counters of the three outcomes, and each of these is the
number of registered records in its state, exactly if no submission saw a dependency end
otherwise than completed, none looked up an unknown one (up to the wrap of the counters), and
the records that ended are fewer than the counters can count. -/
theorem accounting_closes_iff (h : rt.Reaches σ) (hq : Quiescent σ) (hids : DistinctIds σ) :
    (σ.world.telemetry.created.toNat = σ.world.telemetry.completed.toNat +
        σ.world.telemetry.failed.toNat + σ.world.telemetry.cancelled.toNat ∧
      σ.world.telemetry.completed.toNat = registeredIn σ .completed ∧
      σ.world.telemetry.failed.toNat = registeredIn σ .failed ∧
      σ.world.telemetry.cancelled.toNat = registeredIn σ .cancelled) ↔
    failedDependencies σ = 0 ∧ 2 ^ 64 ∣ unknownDependencies σ ∧
      σ.world.next - unknownDependencies σ < 2 ^ 64 := by
  obtain ⟨counted, hcreated, hcompleted, hcancelled, hfailed, hstate, hnext⟩ :=
    Quiescent.books h hq
  rw [hcreated, hcompleted, hcancelled, hfailed]
  simp only [UInt64.toNat_ofNat', registeredIn_eq h hids]
  exact books_close hstate hnext

/-- The finitely many calls and records of a state, checked one by one. -/
theorem quiescent_of_check (hdrained : σ.world.scheduler.tasks = [])
    (hcheck : ∀ i < σ.world.calls.length, (σ.world.calls[i]?).any Op.isSubmit = true ∨
      (σ.world.calls[i]?).any Op.isWork = true → (returned σ i).isSome = true) : Quiescent σ := by
  refine ⟨hdrained, fun i op hop hends => hcheck i (List.getElem?_eq_some_iff.mp hop).1 ?_⟩
  rw [hop]
  exact hends

/-- One transfer that has been completed. -/
def oneCompleted : List Move := oneTransfer ++ .task :: List.replicate 40 (.act 3 (fair 0))

theorem oneCompleted_accounted :
    registeredIn (loopback.play oneCompleted) .completed = 1 ∧
      (loopback.play oneCompleted).world.telemetry.completed.toNat =
        registeredIn (loopback.play oneCompleted) .completed :=
  ⟨by decide +kernel, ((accounting_closes_iff (loopback.play_reaches oneCompleted)
    (quiescent_of_check (by decide +kernel) (by decide +kernel))
    (by unfold DistinctIds; decide +kernel)).mpr (by decide +kernel)).2.1⟩

/-- A submission whose dependency was cancelled is created and ends failed, and no outcome is
counted for it. -/
theorem failed_dependency_unaccounted :
    ∃ σ : System, loopback.Reaches σ ∧ Quiescent σ ∧ DistinctIds σ ∧
      σ.world.telemetry.created = 2 ∧ σ.world.telemetry.completed = 0 ∧
      σ.world.telemetry.failed = 0 ∧ σ.world.telemetry.cancelled = 1 ∧
      registeredIn σ .failed = 1 :=
  ⟨loopback.play dependsOnCancelled, loopback.play_reaches _,
    quiescent_of_check (by decide +kernel) (by decide +kernel),
    by unfold DistinctIds; decide +kernel, by decide +kernel, by decide +kernel,
    by decide +kernel, by decide +kernel, by decide +kernel⟩

end Runtime

end TransferFabric
