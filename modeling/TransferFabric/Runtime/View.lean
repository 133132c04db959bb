import TransferFabric.Runtime.Operations

/-!
What one thread knows while it runs, and what it may do knowing it. A record is
in the hands of at most one thread: of the submission that made it until the
scheduler accepts it, then of nobody while it is queued, then of the worker that
runs it. The thread that has it knows its contents. Everything else a thread
knows is what it has been told: which records its lookups found and in which
terminal state it saw them.

The permissions say which calls a thread with such knowledge may make. That the
programs of the runtime only make permitted calls is the business of the
next module; here are the terms in which it is stated.
-/

namespace TransferFabric

open Interaction

/-! What a record says about its run. -/

namespace RunContext

/-- A copy of chunk `ci` by leg `li` was accepted. -/
def Passed (ctx : RunContext) (t : ExecTrace) (li ci : Nat) : Prop :=
  ∃ e : Error, e.ok = true ∧
    ((⟨.copy (ctx.leg li).backend (ctx.legSpec li (ctx.plan.chunkOf ci)), e⟩ : ExecEvent) ∈ t ∨
      ∃ k, (⟨.asyncCopy (ctx.leg li).backend (ctx.legSpec li (ctx.plan.chunkOf ci)) k, e⟩ :
        ExecEvent) ∈ t)

end RunContext

/-- The answers to the executor's cancellation checks, in order. -/
def cancelChecks (t : ExecTrace) : List Bool :=
  t.filterMap fun
    | ⟨.loadCancel, x⟩ => some x
    | _ => none

/-- The executor announces the verification. -/
def ExecEvent.isVerifying : ExecEvent → Bool
  | ⟨.status .verifying, _⟩ => true
  | _ => false

/-- A backend or a stream that answers does not use the cancellation category. -/
def ExecEvent.honest : ExecEvent → Bool
  | ⟨.copy .., e⟩ => Error.category e ≠ .cancellation
  | ⟨.asyncCopy .., e⟩ => Error.category e ≠ .cancellation
  | ⟨.sync .., e⟩ => Error.category e ≠ .cancellation
  | _ => true

def Honest (t : ExecTrace) : Prop := t.Only ExecEvent.honest

instance (t : ExecTrace) : Decidable (Honest t) :=
  inferInstanceAs (Decidable (∀ ev ∈ t, ExecEvent.honest ev = true))

def liveBufs (k : PoolKind) (bufs : List StagingBuffer) : List (PoolKind × StagingBuffer) :=
  (bufs.filter fun b => ¬ b.null).map fun b => (k, b)

namespace Transfer

variable (rt : Runtime) (t : Transfer)

/-- The request that `run_transfer` answers without moving anything. -/
def Empty : Prop := t.body.route.legs = [] ∨ t.body.chunkPlan.plan.chunkCount = 0

instance : Decidable t.Empty := inferInstanceAs (Decidable (_ ∨ _))

/-- All scheduled bytes are reported, and every chunk went through every leg. The
staging buffers a leg used are given back before the transfer ends, so they are
only known to have existed. -/
def Delivered : Prop :=
  t.status.bytesCompleted = t.status.bytesScheduled ∧
    ∃ bufs, let ctx := rt.context { t.body with stagingBufs := bufs }
      ∀ ci < ctx.count, ∀ li < ctx.nlegs, ctx.Passed t.done li ci

/-- The last check of the cancellation flag found it raised. -/
def Asked : Prop := Honest t.done → (cancelChecks t.done).getLast? = some true

/-- Ending the transfer in state `s` says the truth about it. The table forbids it
for one kind of transfer only. -/
structure Ends (s : TransferState) : Prop where
  terminal : s = .completed ∨ s = .cancelled ∨ s = .failed
  delivered : s = .completed → t.Delivered rt
  asked : s = .cancelled → t.Asked
  listed : t.state.allowed s = true ↔ ¬ (t.Empty ∧ t.state = .active)

/-- A record as its submission makes it. -/
structure Fresh : Prop where
  created : t.state = .created
  silent : t.notified = false
  scheduled : t.status.bytesScheduled = t.body.chunkPlan.plan.total
  unstaged : t.body.stagingBufs = []
  idle : t.done = []

/-- A record the scheduler may have. -/
structure Ready : Prop where
  queued : t.state = .queued
  silent : t.notified = false
  scheduled : t.status.bytesScheduled = t.body.chunkPlan.plan.total
  idle : t.done = []

/-- The transfer is being run, and `c` is a call `run_transfer` may make for it. -/
structure Running (c : ExecCall) : Prop where
  live : t.state = .active ∨ t.state = .verifying
  silent : t.notified = false
  verifying : c = .status .verifying → t.state = .active ∧ ¬ t.Empty

/-- A record that is at rest in a terminal state means it. -/
structure Sound : Prop where
  completed : t.state = .completed → t.Delivered rt
  cancelled : t.state = .cancelled → t.Asked
  notified : t.notified = t.state.isTerminal

/-- The staging buffers of node `j`, with their pool. A null buffer is none. -/
def stagedAt (j : Nat) : List (PoolKind × StagingBuffer) :=
  liveBufs (poolFor (t.body.route.nodes.getD j .unknown)) (t.body.stagingBufs.getD j [])

def stagedIn (count start : Nat) : List (PoolKind × StagingBuffer) :=
  (List.range' start count).flatMap t.stagedAt

/-- The staging buffers of all nodes between the source and the destination. -/
def staged : List (PoolKind × StagingBuffer) := t.stagedIn (t.body.route.nodes.length - 2) 1

end Transfer

/-! What a thread has been told. -/

def lookups (t : RtTrace) : List (TransferId × Option Ref) :=
  t.filterMap fun
    | ⟨.find id, x⟩ => some (id, x)
    | _ => none

def waits (t : RtTrace) : List (Ref × TransferState) :=
  t.filterMap fun
    | ⟨.awaitTerminal r, s⟩ => some (r, s)
    | _ => none

def raises (t : RtTrace) : List Ref :=
  t.filterMap fun
    | ⟨.storeCancel r, _⟩ => some r
    | _ => none

structure View where
  me : Tid
  op : Op
  /-- The record this thread made, under its id. -/
  made : Option (Ref × TransferId) := none
  /-- The record in this thread's hands. -/
  own : Option (Ref × Transfer) := none
  looked : List (TransferId × Option Ref) := []
  awaited : List (Ref × TransferState) := []
  raised : List Ref := []
  created : Bool := false
  /-- The scheduler took the record. -/
  handed : Bool := false
  /-- The terminal state this thread gave its record. -/
  closed : Option TransferState := none
  /-- The outcome this thread counted. -/
  counted : Option TransferState := none
  bufs : List (PoolKind × StagingBuffer) := []

/-- The outcome a counter stands for. -/
def TelemetryOp.outcome : TelemetryOp → Option TransferState
  | .transferCompleted => some .completed
  | .transferFailed => some .failed
  | .transferCancelled => some .cancelled
  | _ => none

namespace View

/-- The change a call makes to the record in hand. -/
def edit (m : View) (c : RtCall) (x : RtAnswer c) : View :=
  { m with own := m.own.map fun p => if c.edits = some p.1 then (p.1, c.edit p.2 x) else p }

theorem edit_own {m : View} {r : Ref} {t : Transfer} {c : RtCall} (x : RtAnswer c)
    (hown : m.own = some (r, t)) (hc : c.edits = some r) :
    m.edit c x = { m with own := some (r, c.edit t x) } := by
  simp [edit, hown, hc]

theorem edit_none {m : View} {c : RtCall} (x : RtAnswer c) (hc : c.edits = none) :
    m.edit c x = m := by
  simp [edit, hc]

def takeBuf (m : View) (k : PoolKind) (b : StagingBuffer) : View :=
  if b.null then m else { m with bufs := m.bufs ++ [(k, b)] }

def dropBuf (m : View) (k : PoolKind) (b : StagingBuffer) : View :=
  if b.null then m else { m with bufs := m.bufs.erase (k, b) }

def noteLookup (m : View) (id : TransferId) (x : Option Ref) : View :=
  { m with looked := m.looked ++ [(id, x)] }

def noteWait (m : View) (r : Ref) (s : TransferState) : View :=
  { m with awaited := m.awaited ++ [(r, s)] }

def noteSchedule (m : View) (accepted : Bool) : View :=
  if accepted then { m with handed := true, own := none } else m

def noteBuf (m : View) (k : PoolKind) : Option StagingBuffer → View
  | none => m
  | some b => m.takeBuf k b

def noteCount (m : View) (op : TelemetryOp) : View :=
  if op = .transferCreated then { m with created := true }
  else if op.outcome.isSome then { m with counted := op.outcome } else m

/-- What a call adds to the knowledge beside the record in hand. -/
def learn (m : View) : (c : RtCall) → RtAnswer c → View
  | .insert t, r => { m with made := some (r, t.id), own := some (r, { t with maker := m.me }) }
  | .find id, x => m.noteLookup id x
  | .awaitTerminal r, s => m.noteWait r s
  | .storeCancel r, _ => { m with raised := m.raised ++ [r] }
  | .setTerminal _ s _, _ => { m with closed := some s }
  | .count op, _ => m.noteCount op
  | .schedule _, x => m.noteSchedule x
  | .allocate _ k _, x => m.noteBuf k x
  | .release _ k b, _ => m.dropBuf k b
  | .exec _ (.release k b), _ => m.dropBuf k b
  | _, _ => m

def after (m : View) (c : RtCall) (x : RtAnswer c) : View := (m.edit c x).learn c x

/-- The answers that do not come as a surprise. -/
def Sees (m : View) : (c : RtCall) → RtAnswer c → Prop
  | .load r, x => ∀ t, m.own = some (r, t) → x = t
  | .awaitTerminal _, s => TransferState.isTerminal s = true
  | _, _ => True

/-- The thread's lookups have found this record. -/
def Found (m : View) (r : Ref) : Prop := ∃ id, (id, some r) ∈ m.looked

/-- All dependencies of the record were looked up and seen completed. -/
def Cleared (m : View) (t : Transfer) : Prop :=
  m.looked.map Prod.fst = t.opts.dependencies ∧
    ∀ p ∈ m.looked, ∃ r, p.2 = some r ∧ (r, TransferState.completed) ∈ m.awaited

/-- The thread has touched no record. -/
structure Idle (m : View) : Prop where
  made : m.made = none
  own : m.own = none
  created : m.created = false
  handed : m.handed = false
  closed : m.closed = none
  counted : m.counted = none
  client : m.op.isWork = false

/-- The thread neither submits nor works. -/
structure Aside (m : View) : Prop extends m.Idle where
  other : m.op.isSubmit = false

/-- Which calls a thread may make. With `careful` set, a buffer is only given back
by the thread that holds it. -/
def Permits (rt : Runtime) (careful : Prop) (m : View) : RtCall → Prop
  | .insert t =>
      m.Idle ∧ t.Fresh ∧ m.op = .submit t.opts ∧ m.looked = [] ∧ m.awaited = [] ∧ m.bufs = []
  | .find _ =>
      m.handed = false ∧ m.op.isWork = false ∧ ∀ r t, m.own = some (r, t) → t.state = .planned
  | .load r => (∃ t, m.own = some (r, t)) ∨ m.Found r
  | .stateOf r | .awaitTerminal r => m.Found r
  | .storeCancel r => m.Found r ∧ ∃ id, m.op = .cancel id
  | .setState r s =>
      (∃ t, m.own = some (r, t) ∧ t.state ≠ .active ∧ (s = .queued → m.Cleared t)) ∧
        s.isTerminal = false
  | .setTerminal r s _ =>
      (∃ t, m.own = some (r, t) ∧ t.state.isTerminal = false ∧ t.Ends rt s) ∧ m.closed = none
  | .storeStarted r | .exchangeStarted r | .setStaging r _ | .pushStaging r .. =>
      ∃ t, m.own = some (r, t)
  | .allocate r .. => ∃ t, m.own = some (r, t)
  | .release r k b =>
      (∃ t, m.own = some (r, t)) ∧
        (careful → ¬ b.null → (k, b) ∈ m.bufs)
  | .count op =>
      if op = .transferCreated then m.made.isSome ∧ m.created = false
      else op.outcome.isSome → m.counted = none ∧ m.closed = op.outcome
  | .schedule t =>
      ∃ r, m.own = some (t.ref, r) ∧ r.Ready ∧ m.Cleared r ∧ m.handed = false ∧
        m.closed = none ∧ m.op.isWork = false ∧ (careful → List.Perm m.bufs r.staged)
  | .exec r c =>
      ∃ t, m.own = some (r, t) ∧ t.Running c ∧ m.op.isWork = true ∧
        (careful → ∀ k b, c ≠ .release k b)
  | .drain _ => ¬ careful
  | _ => True

/-- How a submission can end. -/
inductive SubmitEnd (m : View) : Error → TransferId → Prop
  | rejected {err : Error} (idle : m.Idle) (looked : m.looked = []) (awaited : m.awaited = [])
      (err_bad : err.ok = false) (out : TransferId) : SubmitEnd m err out
  | queued {r : Ref} {id : TransferId} (made : m.made = some (r, id)) (own : m.own = none)
      (created : m.created = true) (handed : m.handed = true) (closed : m.closed = none)
      (counted : m.counted = none) (awaited : ∀ p ∈ m.awaited, p.2 = .completed)
      (looked : ∀ p ∈ m.looked, p.2.isSome = true) : SubmitEnd m {} id
  | failed {r : Ref} {id : TransferId} {t : Transfer} (made : m.made = some (r, id))
      (own : m.own = some (r, t)) (state : t.state = .failed)
      (created : m.created = true) (handed : m.handed = false) (closed : m.closed = some .failed)
      (counted : m.counted = some .failed) (awaited : ∀ p ∈ m.awaited, p.2 = .completed)
      (looked : ∀ p ∈ m.looked, p.2.isSome = true) : SubmitEnd m {} id
  | dependencyFailed {r : Ref} {id out : TransferId} {t : Transfer} {err : Error}
      (made : m.made = some (r, id)) (own : m.own = some (r, t)) (state : t.state = .failed)
      (created : m.created = true) (handed : m.handed = false) (closed : m.closed = some .failed)
      (counted : m.counted = none) (awaited : ∃ p ∈ m.awaited, p.2 ≠ .completed)
      (looked : ∀ p ∈ m.looked, p.2.isSome = true) (err_bad : err.ok = false) :
      SubmitEnd m err out
  | unknownDependency {r : Ref} {id out : TransferId} {t : Transfer} {err : Error}
      (made : m.made = some (r, id)) (own : m.own = some (r, t)) (state : t.state = .planned)
      (created : m.created = true) (handed : m.handed = false) (closed : m.closed = none)
      (counted : m.counted = none) (awaited : ∀ p ∈ m.awaited, p.2 = .completed)
      (looked : ∃ p ∈ m.looked, p.2 = none) (err_bad : err.ok = false) : SubmitEnd m err out

/-- What a worker leaves. -/
structure WorkEnd (m : View) : Prop where
  made : m.made = none
  created : m.created = false
  handed : m.handed = false
  closed : ∃ s, m.closed = some s ∧ (s = .completed ∨ s = .cancelled ∨ s = .failed)
  counted : m.counted = m.closed
  work : m.op.isWork = true

/-- What a thread knows when it returns. -/
def Ended : Result → View → Prop
  | .submitted err out, m => (∃ opts, m.op = .submit opts) ∧ m.SubmitEnd err out
  | .cancelled err, m => m.Aside ∧ (err.ok = false → m.raised = [])
  | .worked, m => m.WorkEnd
  | _, m => m.Aside

/-- A careful thread holds no buffers for the record it has at the end. -/
def Post (careful : Prop) (res : Result) (m : View) : Prop :=
  Ended res m ∧ (careful → ∀ p, m.own = some p → m.bufs = [])

theorem Ended.handless {careful : Prop} {m : View} {res : Result} (h : Ended res m)
    (hown : m.own = none) : Post careful res m :=
  ⟨h, fun _ p hp => by rw [hown] at hp; cases hp⟩

theorem Aside.post {careful : Prop} {m : View} {res : Result} (h : m.Aside)
    (hres : m.Aside → Ended res m) : Post careful res m := (hres h).handless h.own

/-- The change of knowledge along a call. -/
def step : Effect RtSig View := fun m c x m' => m.Sees c x ∧ m' = m.after c x

end View

end TransferFabric
