import TransferFabric.Core.Planner
import TransferFabric.Foundation.Threads
import TransferFabric.Runtime.ExecutorTrace
import TransferFabric.Runtime.Registry
import TransferFabric.Runtime.Scheduler
import TransferFabric.Runtime.Telemetry

/-!
What the threads of a runtime share, and the atomic steps they take on it: one
call per critical section, per atomic operation and per access to a record that
only one thread uses at a time.

The world carries three pieces of history that the source does not store: who
made a record, what `run_transfer` has done for it, and what each thread has
asked and been answered. A fourth is the ledger of staging buffers that were
obtained and not yet given back.
-/

namespace TransferFabric

open Interaction

/-- Threads are numbered in the order in which they start. A call of the facade
is a thread, and so is a task while a worker runs it. -/
abbrev Tid := Nat

structure TransferOptions where
  source : EndpointHandle := {}
  destination : EndpointHandle := {}
  sourceRange : ByteRange := {}
  destinationRange : ByteRange := {}
  policy : TransferPolicy := {}
  priority : UInt8 := 4
  nameSpace : String := ""
  principal : String := ""
  explicitId : TransferId := {}
  dependencies : List TransferId := []
  verificationOverride : Bool := false
  verificationMode : VerificationMode := .none
  deriving DecidableEq

instance : Inhabited BuiltPlan := ⟨{ plan := {}, built := Or.inl rfl }⟩

/-- A transfer record. `body` is the part the executor reads; the cancellation
flag, which any thread may raise, is kept beside the records. -/
structure Transfer where
  id : TransferId := {}
  opts : TransferOptions := {}
  body : TransferRecord := { chunkPlan := default }
  status : TransferStatus := {}
  notified : Bool := false
  started : Bool := false
  /-- The thread whose submission made the record. -/
  maker : Tid := 0
  /-- What `run_transfer` has done for the record. -/
  done : ExecTrace := []

instance : Inhabited Transfer := ⟨{}⟩

namespace Transfer

variable (t : Transfer)

def state : TransferState := t.status.state

/-- The condition `wait` and a dependent submission wait for. -/
def settled : Bool := t.notified ∧ t.state.isTerminal

/-- `set_state`: a change the table does not list is ignored. -/
def setState (s : TransferState) : Transfer :=
  if t.state.allowed s then { t with status := { t.status with state := s } } else t

/-- `set_terminal`: the first terminal state stays. -/
def setTerminal (s : TransferState) (e : Error) : Transfer :=
  if t.state.isTerminal then t
  else { t with status := { t.status with state := s, error := e }, notified := true }

def setStaging (bufs : List (List StagingBuffer)) : Transfer :=
  { t with body := { t.body with stagingBufs := bufs } }

def pushStaging (j : Nat) (b : StagingBuffer) : Transfer :=
  t.setStaging (t.body.stagingBufs.modify j (· ++ [b]))

/-- One call of `run_transfer` on behalf of the record. -/
def ran (ev : ExecEvent) : Transfer :=
  match ev with
  | ⟨.status u, _⟩ => { t with status := u.apply t.status, done := t.done ++ [ev] }
  | _ => { t with done := t.done ++ [ev] }

end Transfer

/-- A call of the facade, or a task in the hands of a worker. -/
inductive Op where
  | submit (opts : TransferOptions)
  | cancel (id : TransferId)
  | status (id : TransferId)
  | inspect (id : TransferId)
  | wait (id : TransferId)
  | registerEndpoint (desc : EndpointDescriptor)
  | unregisterEndpoint (h : EndpointHandle)
  | shutdown
  | work (t : Task)
  deriving DecidableEq

def Op.isWork : Op → Bool
  | .work _ => true
  | _ => false

def Op.isSubmit : Op → Bool
  | .submit _ => true
  | _ => false

inductive RtCall where
  | loadShutdown
  | exchangeShutdown
  | getEndpoint (h : EndpointHandle)
  | allocateEndpoint (ep : EndpointRecord)
  | removeEndpoint (h : EndpointHandle)
  | clearEndpoints
  | generate
  /-- The record is made and entered in the transfer registry. -/
  | insert (t : Transfer)
  | find (id : TransferId)
  | load (r : Ref)
  | stateOf (r : Ref)
  | awaitTerminal (r : Ref)
  | setState (r : Ref) (s : TransferState)
  | setTerminal (r : Ref) (s : TransferState) (e : Error)
  | storeCancel (r : Ref)
  | storeStarted (r : Ref)
  | exchangeStarted (r : Ref)
  | setStaging (r : Ref) (bufs : List (List StagingBuffer))
  | pushStaging (r : Ref) (j : Nat) (b : StagingBuffer)
  | allocate (r : Ref) (pool : PoolKind) (bytes : ByteCount)
  | release (r : Ref) (pool : PoolKind) (b : StagingBuffer)
  | count (op : TelemetryOp)
  | schedule (t : Task)
  | stopScheduler
  | joinWorkers
  | drain (pool : PoolKind)
  /-- A worker is back at its queue. -/
  | workerReturns
  | exec (r : Ref) (c : ExecCall)

abbrev RtAnswer : RtCall → Type
  | .loadShutdown | .exchangeShutdown | .exchangeStarted _ | .schedule _ | .stopScheduler => Bool
  | .getEndpoint _ => Option EndpointRecord
  | .allocateEndpoint _ => EndpointHandle
  | .removeEndpoint _ => Error
  | .generate => TransferId
  | .insert _ => Ref
  | .find _ => Option Ref
  | .load _ => Transfer
  | .stateOf _ | .awaitTerminal _ => TransferState
  | .allocate .. => Option StagingBuffer
  | .exec _ c => ExecAnswer c
  | .clearEndpoints | .setState .. | .setTerminal .. | .storeCancel _ | .storeStarted _
  | .setStaging .. | .pushStaging .. | .release .. | .count _ | .joinWorkers | .drain _
  | .workerReturns => Unit

abbrev RtSig : Signature := { Call := RtCall, Answer := RtAnswer }

abbrev RtEvent := Event RtSig
abbrev RtTrace := Trace RtSig

/-- The record a call writes to, and how. -/
def RtCall.edits : RtCall → Option Ref
  | .setState r _ | .setTerminal r .. | .storeStarted r | .exchangeStarted r | .setStaging r _
  | .pushStaging r .. | .exec r _ => some r
  | _ => none

def RtCall.edit (t : Transfer) : (c : RtCall) → RtAnswer c → Transfer
  | .setState _ s, _ => t.setState s
  | .setTerminal _ s e, _ => t.setTerminal s e
  | .storeStarted _, _ => { t with started := true }
  | .exchangeStarted _, _ => { t with started := false }
  | .setStaging _ bufs, _ => t.setStaging bufs
  | .pushStaging _ j b, _ => t.pushStaging j b
  | .exec _ c, x => t.ran ⟨c, x⟩
  | _, _ => t

/-- A staging buffer a transfer has obtained and not given back. -/
structure Hold where
  ref : Ref
  pool : PoolKind
  buf : StagingBuffer
  deriving DecidableEq, Repr

structure World where
  shutdown : Bool := false
  endpoints : EndpointRegistry := {}
  transfers : TransferId → Option Ref := fun _ => none
  heap : Ref → Transfer := fun _ => default
  /-- How many records have been made. -/
  next : Ref := 0
  cancel : Ref → Bool := fun _ => false
  hostPool : StagingPool := {}
  pinnedPool : StagingPool := {}
  scheduler : Scheduler
  telemetry : Telemetry := {}
  /-- Workers inside a task. -/
  busy : Nat := 0
  calls : List Op := []
  past : Tid → RtTrace := fun _ => []
  obtained : List Hold := []
  held : List Hold := []
  returned : List Hold := []

/-- The parameters of a runtime: its configuration, its backends, its planner
and the platform it runs on. -/
structure Runtime where
  workerThreads : Nat := 4
  hostStagingCapacity : ByteCount := 256 * 1024 * 1024
  pinnedStagingCapacity : ByteCount := 256 * 1024 * 1024
  maxQueuedTransfers : Nat := 256
  pipelineDepth : Nat := 2
  backends : Backends
  backendNames : List String
  planner : RoutePlanner
  os : Platform

namespace Runtime

variable (rt : Runtime)

def workers : Nat := if rt.workerThreads = 0 then 4 else rt.workerThreads
def maxQueued : Nat := if rt.maxQueuedTransfers = 0 then 1 else rt.maxQueuedTransfers
def depth : Nat := if rt.pipelineDepth > 0 then rt.pipelineDepth else 2

/-- What `run_driver` hands to the executor. -/
def context (body : TransferRecord) : RunContext :=
  { record := body, backends := rt.backends, pipelineDepth := rt.pipelineDepth }

def initial : World :=
  { hostPool := { capacityBytes := rt.hostStagingCapacity }
    pinnedPool := { capacityBytes := rt.pinnedStagingCapacity }
    scheduler := { maxQueued := rt.maxQueued } }

end Runtime

/-- What the environment contributes to one step: the allocator's answer, a
generated id, and how a backend, a stream or the operating system responds. -/
structure Chance where
  allocated : Option Address := none
  generated : TransferId := {}
  respond : (c : ExecCall) → ExecAnswer c

namespace World

variable (w : World)

def pool (k : PoolKind) : StagingPool := if k = .hostPinned then w.pinnedPool else w.hostPool

def setPool (k : PoolKind) (p : StagingPool) : World :=
  if k = .hostPinned then { w with pinnedPool := p } else { w with hostPool := p }

/-- A null allocation is a failed one. -/
def allocation (ch : Chance) : Option Address := ch.allocated.filter (· ≠ 0)

/-- The answer to a call; `none` while the caller has to wait. -/
def answer (ch : Chance) : (c : RtCall) → Option (RtAnswer c)
  | .loadShutdown => some w.shutdown
  | .exchangeShutdown => some w.shutdown
  | .getEndpoint h => some (w.endpoints.get h)
  | .allocateEndpoint ep => some (w.endpoints.allocate ep).1
  | .removeEndpoint h => some (w.endpoints.remove h).1
  | .generate => some ch.generated
  | .insert _ => some w.next
  | .find id => some (w.transfers id)
  | .load r => some (w.heap r)
  | .stateOf r => some (w.heap r).state
  | .awaitTerminal r => if (w.heap r).settled then some (w.heap r).state else none
  | .exchangeStarted r => some (w.heap r).started
  | .allocate _ k bytes => some ((w.pool k).allocate bytes (allocation ch)).1
  | .schedule t => some (w.scheduler.submit t).1
  | .stopScheduler => some (!w.scheduler.shuttingDown)
  | .joinWorkers => if w.busy = 0 ∧ w.scheduler.queueDepth = 0 then some () else none
  | .exec r .loadCancel => some (w.cancel r)
  | .exec _ c => some (ch.respond c)
  | .clearEndpoints | .setState .. | .setTerminal .. | .storeCancel _ | .storeStarted _
  | .setStaging .. | .pushStaging .. | .release .. | .count _ | .drain _ | .workerReturns => some ()

/-- A buffer a record obtained enters the ledger. -/
def takeHold (r : Ref) (k : PoolKind) (b : StagingBuffer) : World :=
  if b.data = 0 ∨ b.size = 0 then w
  else { w with obtained := w.obtained ++ [⟨r, k, b⟩], held := w.held ++ [⟨r, k, b⟩] }

/-- A buffer goes back to its pool. -/
def giveBack (r : Ref) (k : PoolKind) (b : StagingBuffer) : World :=
  let w := w.setPool k ((w.pool k).release b)
  if b.data = 0 ∨ b.size = 0 then w
  else { w with held := w.held.erase ⟨r, k, b⟩, returned := w.returned ++ [⟨r, k, b⟩] }

/-- The effect of an answered call on everything but the records. -/
def share (i : Tid) : (c : RtCall) → RtAnswer c → World
  | .exchangeShutdown, _ => { w with shutdown := true }
  | .allocateEndpoint ep, _ => { w with endpoints := (w.endpoints.allocate ep).2 }
  | .removeEndpoint h, _ => { w with endpoints := (w.endpoints.remove h).2 }
  | .clearEndpoints, _ => { w with endpoints := w.endpoints.clear }
  | .insert t, _ =>
      { w with
        heap := Function.update w.heap w.next { t with maker := i }
        transfers := Function.update w.transfers t.id (some w.next)
        next := w.next + 1 }
  | .storeCancel r, _ => { w with cancel := Function.update w.cancel r true }
  | .allocate r k bytes, x =>
      match x with
      | none => w
      | some b =>
          (w.setPool k ((w.pool k).allocate bytes (some b.data)).2).takeHold r k b
  | .release r k b, _ => w.giveBack r k b
  | .count op, _ => { w with telemetry := w.telemetry.apply op }
  | .schedule t, _ => { w with scheduler := (w.scheduler.submit t).2 }
  | .stopScheduler, _ => { w with scheduler := { w.scheduler with shuttingDown := true } }
  | .drain k, _ => w.setPool k (w.pool k).drain
  | .workerReturns, _ => { w with busy := w.busy - 1 }
  | .exec r (.release k b), _ => w.giveBack r k b
  | .exec _ (.stagingPoolHit hit), _ =>
      { w with telemetry := w.telemetry.apply (.stagingPoolHit hit) }
  | _, _ => w

/-- The effect of an answered call on the record it writes to. -/
def rewrite (c : RtCall) (x : RtAnswer c) : World :=
  match c.edits with
  | some r => { w with heap := Function.update w.heap r (c.edit (w.heap r) x) }
  | none => w

def log (i : Tid) (ev : RtEvent) : World :=
  { w with past := Function.update w.past i (w.past i ++ [ev]) }

/-- The world after thread `i` made a call and got its answer. -/
def after (i : Tid) (c : RtCall) (x : RtAnswer c) : World :=
  ((w.share i c x).rewrite c x).log i ⟨c, x⟩

end World

/-- One atomic step of a thread. -/
def effect (i : Tid) : Effect RtSig World := fun w c x w' =>
  (∃ ch, w.answer ch c = some x) ∧ w' = w.after i c x

end TransferFabric
