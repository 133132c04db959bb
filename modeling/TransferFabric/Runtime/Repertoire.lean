import TransferFabric.Foundation.Scripts
import TransferFabric.Runtime.Operations

/-!
Which calls each operation of the runtime can make, however its calls are
answered. Nothing is said here about their order; what later modules need to know
about an operation that makes no call of some kind is read off the one table.
-/

namespace TransferFabric

open Interaction

/-- The counters of the bytes a transfer has moved. -/
def TelemetryOp.tallies : TelemetryOp → Bool
  | .addBytesMoved _ | .addBytesVerified _ | .addDirectPathBytes _ | .addStagedPathBytes _
  | .addRouteClassBytes .. | .addRouteBytes .. => true
  | _ => false

namespace RtCall

/-- To reserve the staging buffers of a record and to give them back. -/
def prepares (r : Ref) : RtCall → Bool
  | .load r' | .setStaging r' _ | .pushStaging r' .. | .allocate r' .. | .release r' .. => r' = r
  | .count (.addBytesStaged _) | .count (.stagingPoolHit _) => true
  | _ => false

/-- To wait for the dependencies of a record. -/
def awaits (r : Ref) : RtCall → Bool
  | .find _ | .awaitTerminal _ => true
  | .setTerminal r' s _ => r' = r ∧ s = .failed
  | _ => false

/-- What a submission does; it completes no transfer and counts no moved bytes. -/
def submits : RtCall → Bool
  | .loadShutdown | .getEndpoint _ | .generate | .insert _ | .find _ | .load _ | .awaitTerminal _
  | .setState .. | .exchangeStarted _ | .setStaging .. | .pushStaging .. | .allocate ..
  | .release .. | .schedule _ => true
  | .setTerminal _ s _ => s ≠ .completed
  | .count op => !op.tallies
  | _ => false

/-- What a submission does for the record it has entered. -/
def queues : RtCall → Bool
  | .loadShutdown | .getEndpoint _ | .generate | .insert _ => false
  | c => c.submits

/-- What a worker does for its record. -/
def serves : RtCall → Bool
  | .load _ | .setState .. | .setTerminal .. | .storeStarted _ | .exchangeStarted _
  | .setStaging .. | .pushStaging .. | .allocate .. | .release .. | .count _ | .exec .. => true
  | _ => false

/-- To look at a transfer, to cancel it, to give an endpoint up. -/
def asks : RtCall → Bool
  | .find _ | .load _ | .stateOf _ | .awaitTerminal _ | .storeCancel _ | .removeEndpoint _ => true
  | _ => false

def registers : RtCall → Bool
  | .loadShutdown | .allocateEndpoint _ => true
  | _ => false

def closes : RtCall → Bool
  | .exchangeShutdown | .stopScheduler | .joinWorkers | .drain _ | .clearEndpoints => true
  | _ => false

end RtCall

/-- The calls an operation can make. -/
def Op.may : Op → RtCall → Bool
  | .submit _, c => c.submits
  | .registerEndpoint _, c => c.registers
  | .shutdown, c => c.closes
  | .work _, .workerReturns => true
  | .work _, c => c.serves
  | .cancel _, c | .status _, c | .inspect _, c | .wait _, c | .unregisterEndpoint _, c => c.asks

/-- The program makes no other calls. -/
abbrev Makes {α : Type} (test : RtCall → Bool) (p : Prog RtSig α) : Prop :=
  Calls (fun c : RtCall => test c = true) p

variable {rt : Runtime} {r : Ref} {P : RtCall → Prop}

theorem calls_ask {c : RtCall} (hc : P c) : Calls P (ask c) := calls_request hc

theorem calls_countAll {ops : List TelemetryOp} (h : ∀ op ∈ ops, P (.count op)) :
    Calls P (countAll ops) := by
  induction ops with
  | nil => exact calls_pure ()
  | cons op ops ih =>
      exact calls_bind (calls_ask (h op List.mem_cons_self)) fun _ =>
        ih fun op hop => h op (List.mem_cons_of_mem _ hop)

/-! Staging. -/

theorem calls_releaseBufs (k : PoolKind) (bufs : List StagingBuffer) :
    Makes (RtCall.prepares r) (releaseBufs r k bufs) := by
  induction bufs with
  | nil => exact calls_pure ()
  | cons b bufs ih => exact calls_bind (calls_ask (by simp [RtCall.prepares])) fun _ => ih

theorem calls_releaseNodes (t : Transfer) (count start : Nat) :
    Makes (RtCall.prepares r) (releaseNodes r t count start) :=
  calls_forLoop (fun _ _ => calls_bind (calls_releaseBufs _ _) fun _ => calls_pure _) _ _ _

theorem calls_releaseStaging : Makes (RtCall.prepares r) (releaseStaging r) := by
  refine calls_bind (calls_ask (by simp [RtCall.prepares])) fun t => ?_
  split_ifs
  · exact calls_pure ()
  · exact calls_bind (calls_releaseNodes _ _ _) fun _ => calls_ask (by simp [RtCall.prepares])

theorem calls_reserveRing (k : PoolKind) (bytes : ByteCount) (j depth : Nat) :
    Makes (RtCall.prepares r) (reserveRing r k bytes j depth) := by
  induction depth with
  | zero => exact calls_pure true
  | succ depth ih =>
      refine calls_bind (calls_ask (by simp [RtCall.prepares])) fun b => ?_
      cases b with
      | none => exact calls_pure false
      | some b =>
          exact calls_bind (calls_ask (by simp [RtCall.prepares])) fun _ =>
            calls_bind (calls_ask rfl) fun _ => calls_bind (calls_ask rfl) fun _ => ih

theorem calls_undoReservation (j : Nat) : Makes (RtCall.prepares r) (undoReservation r j) :=
  calls_bind (calls_ask (by simp [RtCall.prepares])) fun _ =>
    calls_bind (calls_releaseNodes _ _ _) fun _ =>
      calls_bind (calls_releaseNodes _ _ _) fun _ => calls_ask (by simp [RtCall.prepares])

theorem calls_reserveStaging (depth : Nat) :
    Makes (RtCall.prepares r) (reserveStaging depth r) := by
  refine calls_bind (calls_ask (by simp [RtCall.prepares])) fun t => ?_
  dsimp only
  split_ifs
  · exact calls_pure _
  · refine calls_bind (calls_ask (by simp [RtCall.prepares])) fun _ =>
      calls_forLoop (fun j e => ?_) _ _ _
    refine calls_bind (calls_reserveRing _ _ _ _) fun done => ?_
    split_ifs
    · exact calls_pure _
    · exact calls_bind (calls_undoReservation _) fun _ => calls_pure _

/-! The end of a transfer. -/

theorem outcomeOps_untallied (t : Transfer) {e : Error} (he : e.ok = false) :
    ∀ op ∈ t.outcomeOps e, op.tallies = false := by
  unfold Transfer.outcomeOps
  rw [if_neg (by simp [he])]
  split_ifs
  · simp [TelemetryOp.tallies]
  · split <;> simp [TelemetryOp.tallies]

theorem calls_finalize {e : Error} (hprepares : ∀ c, c.prepares r = true → P c)
    (hend : P (.setTerminal r (terminalFor e) e)) (hexchange : P (.exchangeStarted r))
    (hdone : P (.count .transferDone))
    (hops : ∀ t : Transfer, ∀ op ∈ t.outcomeOps e, P (.count op)) : Calls P (finalize r e) := by
  have hrest : Calls P (do
      let t : Transfer ← ask (.load r)
      countAll (t.outcomeOps e)
      releaseStaging r) :=
    calls_bind (calls_ask (hprepares _ (by simp [RtCall.prepares]))) fun t =>
      calls_bind (calls_countAll (hops t)) fun _ => calls_releaseStaging.mono hprepares
  refine calls_bind (calls_ask hend) fun _ => calls_bind (calls_ask hexchange) fun started => ?_
  cases started with
  | false => exact hrest
  | true => exact calls_bind (calls_ask hdone) fun _ => hrest

/-! Submission. -/

theorem queues_submits {c : RtCall} (hc : c.queues = true) : c.submits = true := by
  cases c with
  | _ => first | rfl | exact hc

theorem prepares_queues {c : RtCall} (hc : c.prepares r = true) : c.queues = true := by
  cases c with
  | count op => cases op <;> first | rfl | cases hc
  | _ => first | rfl | cases hc

/-- Ending a transfer that has not succeeded. -/
theorem calls_giveUp {e : Error} (he : e.ok = false) :
    Makes RtCall.queues (finalize r e) := by
  refine calls_finalize (fun _ => prepares_queues) ?_ rfl rfl fun t op hop => ?_
  · unfold RtCall.queues RtCall.submits terminalFor
    rw [if_neg (by simp [he])]
    split_ifs <;> rfl
  · simp [RtCall.queues, RtCall.submits, outcomeOps_untallied t he op hop]

theorem calls_awaitDependencies (deps : List TransferId) :
    Makes (RtCall.awaits r) (awaitDependencies r deps) := by
  induction deps with
  | nil => exact calls_pure _
  | cons d deps ih =>
      refine calls_bind (calls_ask rfl) fun dep => ?_
      cases dep with
      | none => exact calls_pure _
      | some dep =>
          refine calls_bind (calls_ask rfl) fun s => ?_
          dsimp only
          split_ifs
          · exact ih
          · exact calls_bind (calls_ask (by simp [RtCall.awaits])) fun _ => calls_pure _

theorem awaits_queues {c : RtCall} (hc : c.awaits r = true) : c.queues = true := by
  cases c with
  | setTerminal r' s e =>
      simp only [RtCall.awaits, decide_eq_true_eq] at hc
      simp [RtCall.queues, RtCall.submits, hc.2]
  | _ => first | rfl | cases hc

theorem calls_queueTransfer (depth : Nat) :
    Makes RtCall.queues (queueTransfer depth r) := by
  refine calls_bind ((calls_reserveStaging depth).mono fun _ => prepares_queues) fun reserve => ?_
  split_ifs with hok
  · refine calls_bind (calls_ask rfl) fun _ => calls_bind (calls_ask rfl) fun _ =>
      calls_bind (calls_ask rfl) fun _ => calls_bind (calls_ask rfl) fun _ =>
      calls_bind (calls_ask rfl) fun t => calls_bind (calls_ask rfl) fun accepted => ?_
    cases accepted with
    | true => exact calls_pure ()
    | false => exact calls_bind (calls_ask rfl) fun _ => calls_giveUp rfl
  · exact calls_giveUp (by simpa using hok)

/-- A record is entered first, and no other after it. -/
theorem calls_admitAs {P : RtCall → Prop} {opts : TransferOptions} {id : TransferId}
    {bytes : ByteCount} {body : TransferRecord}
    (hinsert : P (.insert (Runtime.newTransfer id opts bytes body)))
    (hqueues : ∀ c, c.queues = true → P c) : Calls P (rt.admitAs opts id bytes body) := by
  refine calls_bind (calls_ask hinsert) fun r => ?_
  refine Calls.mono (P := fun c : RtCall => c.queues = true) ?_ hqueues
  refine calls_bind (calls_ask rfl) fun _ => calls_bind (calls_ask rfl) fun _ =>
    calls_bind (calls_ask rfl) fun _ => calls_bind (calls_ask rfl) fun _ =>
    calls_bind ((calls_awaitDependencies _).mono fun _ => awaits_queues) fun err => ?_
  split_ifs
  · exact calls_bind (calls_queueTransfer _) fun _ => calls_pure _
  · exact calls_pure _

theorem calls_submit {P : RtCall → Prop} (opts : TransferOptions)
    (hinsert : ∀ id bytes body, P (.insert (Runtime.newTransfer id opts bytes body)))
    (hother : ∀ c : RtCall, c.submits = true → (∀ t, c ≠ .insert t) → P c) :
    Calls P (rt.submit opts) := by
  have hask : ∀ c : RtCall, c.submits = true → (∀ t, c ≠ .insert t) → Calls P (ask c) :=
    fun c hc hne => calls_ask (hother c hc hne)
  have hqueues : ∀ c : RtCall, c.queues = true → P c := fun c hc =>
    hother c (queues_submits hc) (by rintro t rfl; cases hc)
  refine calls_bind (hask _ rfl fun _ h => by cases h) fun down => ?_
  cases down with
  | true => exact calls_pure _
  | false =>
  by_cases hvalid : ¬ opts.source.valid = true ∨ ¬ opts.destination.valid = true
  · simp only [if_pos hvalid]
    exact calls_pure _
  simp only [if_neg hvalid]
  refine calls_bind (hask _ rfl fun _ h => by cases h) fun se =>
    calls_bind (hask _ rfl fun _ h => by cases h) fun de => ?_
  cases se with
  | none => exact calls_pure _
  | some se =>
  cases de with
  | none => exact calls_pure _
  | some de =>
  dsimp only
  cases rt.planTransfer opts se de with
  | error e => exact calls_pure _
  | ok p =>
      dsimp only
      split_ifs
      · exact calls_admitAs (hinsert _ _ _) hqueues
      · exact calls_bind (hask _ rfl fun _ h => by cases h) fun id =>
          calls_admitAs (hinsert _ _ _) hqueues

/-! The other operations. -/

theorem prepares_serves {c : RtCall} (hc : c.prepares r = true) : c.serves = true := by
  cases c with
  | _ => first | rfl | cases hc

/-- The executor is run for the worker's own record. -/
theorem calls_runDriver {P : RtCall → Prop} (hexec : ∀ c, P (.exec r c))
    (hother : ∀ c : RtCall, c.serves = true → (∀ r c', c ≠ .exec r c') → P c) :
    Calls P (rt.runDriver r) := by
  have hask : ∀ c : RtCall, c.serves = true → (∀ r c', c ≠ .exec r c') → Calls P (ask c) :=
    fun c hc hne => calls_ask (hother c hc hne)
  refine calls_bind (hask _ rfl fun _ _ h => by cases h) fun _ =>
    calls_bind (hask _ rfl fun _ _ h => by cases h) fun _ =>
    calls_bind (hask _ rfl fun _ _ h => by cases h) fun _ =>
    calls_bind (hask _ rfl fun _ _ h => by cases h) fun _ =>
    calls_bind (hask _ rfl fun _ _ h => by cases h) fun t =>
    calls_bind (calls_embed (calls_all hexec _)) fun e => ?_
  refine calls_finalize (fun c hc => hother c (prepares_serves hc) ?_) ?_ ?_ ?_ fun _ _ _ => ?_
  · rintro r' c' rfl
    cases hc
  all_goals exact hother _ rfl fun _ _ h => by cases h

theorem calls_shutdown : Makes RtCall.closes shutdown := by
  have hrest : Makes RtCall.closes (do
      let _ ← ask (.drain .host)
      let _ ← ask (.drain .hostPinned)
      let _ ← ask .clearEndpoints
      pure Result.stopped) :=
    calls_bind (calls_ask rfl) fun _ => calls_bind (calls_ask rfl) fun _ =>
      calls_bind (calls_ask rfl) fun _ => calls_pure _
  refine calls_bind (calls_ask rfl) fun already => ?_
  dsimp only
  split_ifs
  · exact calls_pure _
  · refine calls_bind (calls_ask rfl) fun join => ?_
    cases join with
    | false => exact hrest
    | true => exact calls_bind (calls_ask rfl) fun _ => hrest

theorem calls_program (op : Op) : Makes op.may (rt.program op) := by
  cases op with
  | submit opts => exact calls_submit opts (fun _ _ _ => rfl) fun _ hc _ => hc
  | shutdown => exact calls_shutdown
  | work task =>
      refine calls_bind (calls_runDriver (fun _ => rfl) fun c hc _ => ?_) fun _ =>
        calls_bind (calls_ask rfl) fun _ => calls_pure _
      cases c with
      | workerReturns => rfl
      | _ => exact hc
  | cancel id =>
      refine calls_bind (calls_ask rfl) fun found => ?_
      cases found with
      | none => exact calls_pure _
      | some r =>
          refine calls_bind (calls_ask rfl) fun s => ?_
          split_ifs
          · exact calls_pure _
          · exact calls_bind (calls_ask rfl) fun _ => calls_pure _
  | status id | inspect id | wait id =>
      refine calls_bind (calls_ask rfl) fun found => ?_
      cases found with
      | none => exact calls_pure _
      | some r => exact calls_bind (calls_ask rfl) fun _ => calls_pure _
  | registerEndpoint desc =>
      refine calls_bind (calls_ask rfl) fun down => ?_
      cases rt.os.registerEndpoint down desc with
      | error e => exact calls_pure _
      | ok ep => exact calls_bind (calls_ask rfl) fun _ => calls_pure _
  | unregisterEndpoint h => exact calls_bind (calls_ask rfl) fun _ => calls_pure _

end TransferFabric
