import TransferFabric.Runtime.World

/-!
The calls of the runtime's facade and the task a worker runs, as programs over
the shared world, and the system they form: clients start calls at any time, and
a worker that is free takes the next task of the queue.

Two parts of the source are left out. `resolve_dependents`, which `finalize` ends
with, looks the transfer up in a table that nothing ever fills, and returns.
`execute_sync` is never called. Clock readings are left out as well.
-/

namespace TransferFabric

open Interaction Relation

structure TransferInfo where
  handle : TransferId := {}
  state : TransferState := .created
  route : Route := {}
  chunkPlan : ChunkPlan := {}
  bytes : ByteCount := 0
  completed : ByteCount := 0
  verified : ByteCount := 0
  nameSpace : String := ""
  principal : String := ""
  source : EndpointHandle := {}
  destination : EndpointHandle := {}
  attempt : UInt64 := 0
  error : Error := {}
  dependencies : List TransferId := []
  deriving DecidableEq, Repr

/-- What a call returns. -/
inductive Result where
  | submitted (err : Error) (out : TransferId)
  | cancelled (err : Error)
  | reported (s : TransferStatus)
  | inspected (info : TransferInfo)
  | waited (completed : Bool)
  | registered (err : Error) (h : EndpointHandle)
  | unregistered (err : Error)
  | stopped
  | worked
  deriving DecidableEq, Repr

def ask (c : RtCall) : Prog RtSig (RtAnswer c) := Prog.request (S := RtSig) c

/-! Staging. -/

def releaseBufs (r : Ref) (pool : PoolKind) : List StagingBuffer → Prog RtSig Unit
  | [] => pure ()
  | b :: rest => do
      let _ ← ask (.release r pool b)
      releaseBufs r pool rest

/-- The buffers of nodes `start .. start + count - 1` go back to their pools. -/
def releaseNodes (r : Ref) (t : Transfer) (count start : Nat) : Prog RtSig Unit :=
  forLoop (fun j _ => do
    releaseBufs r (poolFor (t.body.route.nodes.getD j .unknown)) (t.body.stagingBufs.getD j [])
    pure (.next ())) count start ()

/-- The `depth` buffers of one node; false if the pool has no more. -/
def reserveRing (r : Ref) (pool : PoolKind) (bytes : ByteCount) (j : Nat) :
    Nat → Prog RtSig Bool
  | 0 => pure true
  | k + 1 => do
      let b : Option StagingBuffer ← ask (.allocate r pool bytes)
      match b with
      | none => pure false
      | some b => do
          let _ ← ask (.pushStaging r j b)
          let _ ← ask (.count (.addBytesStaged bytes))
          let _ ← ask (.count (.stagingPoolHit true))
          reserveRing r pool bytes j k

/-- What was reserved at node `j` and then at the nodes before it is given back. -/
def undoReservation (r : Ref) (j : Nat) : Prog RtSig Unit := do
  let t ← ask (.load r)
  releaseNodes r t 1 j
  releaseNodes r t (j - 1) 1
  ask (.setStaging r [])

def reserveNode (depth : Nat) (r : Ref) (nodes : List MemoryDomain) (bytes : ByteCount)
    (j : Nat) (_ : Error) : Prog RtSig (Flow Error) := do
  let done ← reserveRing r (poolFor (nodes.getD j .unknown)) bytes j depth
  if done then pure (.next {})
  else do
    undoReservation r j
    pure (.stop { category := .resourceExhausted, message := "staging reservation failed" })

def reserveStaging (depth : Nat) (r : Ref) : Prog RtSig Error := do
  let t ← ask (.load r)
  if t.body.route.legs = [] then pure {}
  else do
    let nodes := t.body.route.nodes
    let _ ← ask (.setStaging r (List.replicate nodes.length []))
    forLoop (reserveNode depth r nodes t.body.chunkPlan.plan.chunkSize) (nodes.length - 2) 1 {}

def releaseStaging (r : Ref) : Prog RtSig Unit := do
  let t ← ask (.load r)
  if t.body.route.legs = [] then pure ()
  else do
    releaseNodes r t (t.body.route.nodes.length - 2) 1
    ask (.setStaging r [])

/-! The end of a transfer. -/

/-- The counters `finalize` moves for a result, in order. -/
def Transfer.outcomeOps (t : Transfer) (e : Error) : List TelemetryOp :=
  let bytes := t.status.bytesCompleted
  if e.ok then
    [.transferCompleted, .addBytesMoved bytes,
      if t.body.route.isDirect then .addDirectPathBytes bytes else .addStagedPathBytes bytes] ++
    t.body.route.legs.map (fun l => .addBackendBytes l.backend bytes) ++
    [.addRouteBytes t.body.route.routeId bytes,
      .addRouteClassBytes t.body.route.routeClass bytes] ++
    (if t.status.bytesVerified ≠ 0 then [.addBytesVerified t.status.bytesVerified] else [])
  else if e.category = .cancellation then [.transferCancelled, .cancellation]
  else
    .transferFailed ::
      match e.category with
      | .integrityFailure => [.integrityFailure]
      | .backendFailure => [.backendFailure]
      | .transientTransport => [.transportFailure]
      | _ => []

def countAll : List TelemetryOp → Prog RtSig Unit
  | [] => pure ()
  | op :: rest => do
      let _ ← ask (.count op)
      countAll rest

def finalize (r : Ref) (e : Error) : Prog RtSig Unit := do
  let _ ← ask (.setTerminal r (terminalFor e) e)
  let started : Bool ← ask (.exchangeStarted r)
  if started then
    let _ ← ask (.count .transferDone)
    pure ()
  let t ← ask (.load r)
  countAll (t.outcomeOps e)
  releaseStaging r

/-! Submission. -/

def queueTransfer (depth : Nat) (r : Ref) : Prog RtSig Unit := do
  let reserve ← reserveStaging depth r
  if reserve.ok then do
    let _ ← ask (.setState r .reserved)
    let _ ← ask (.setState r .queued)
    let _ ← ask (.count .transferQueued)
    let _ ← ask (.count .queuePushed)
    let t ← ask (.load r)
    let accepted : Bool ← ask (.schedule { ref := r, priority := t.opts.priority })
    if accepted then pure ()
    else do
      let _ ← ask (.count .queuePopped)
      finalize r { category := .resourceExhausted, message := "scheduler queue full" }
  else finalize r reserve

/-- Each dependency is looked up and then waited for. -/
def awaitDependencies (r : Ref) : List TransferId → Prog RtSig Error
  | [] => pure {}
  | d :: rest => do
      let dep : Option Ref ← ask (.find d)
      match dep with
      | none => pure { category := .invalidRequest, message := "unknown dependency" }
      | some dep => do
          let s : TransferState ← ask (.awaitTerminal dep)
          if s = .completed then awaitDependencies r rest
          else do
            let err : Error :=
              { category := .permanentFailure, message := "a dependency failed" }
            let _ ← ask (.setTerminal r .failed err)
            pure err

namespace Runtime

variable (rt : Runtime)

def plannerInput (opts : TransferOptions) (se de : EndpointRecord) (bytes : ByteCount) :
    PlannerInput :=
  { src := se.caps, dst := de.caps, bytes, policy := opts.policy
    hostStagingCapacity := rt.hostStagingCapacity
    pinnedStagingCapacity := rt.pinnedStagingCapacity
    remoteAvailable := false, availableBackends := rt.backendNames }

/-- Planning for inspection. -/
def plan (src dst : EndpointHandle) (bytes : ByteCount) (policy : TransferPolicy) :
    Prog RtSig PlanResult := do
  let se : Option EndpointRecord ← ask (.getEndpoint src)
  let de : Option EndpointRecord ← ask (.getEndpoint dst)
  match se, de with
  | some se, some de =>
      if ¬ se.caps.capabilities.has .readable then pure { reason := "source not readable" }
      else if ¬ de.caps.capabilities.has .writable then
        pure { reason := "destination not writable" }
      else pure (rt.planner (rt.plannerInput { policy } se de bytes))
  | _, _ => pure { reason := "invalid endpoint handle" }

/-- The overload for an options object. -/
def planOptions (opts : TransferOptions) : Prog RtSig PlanResult :=
  rt.plan opts.source opts.destination opts.sourceRange.length opts.policy

/-- The chunk plan's input, from the most constrained leg. -/
def chunkInput (policy : TransferPolicy) (ranges : ResolvedRanges) (legs : List Leg) :
    ChunkPlanInput :=
  { total := ranges.bytes, sourceOffset := ranges.src.offset, destOffset := ranges.dst.offset
    minChunk := 4096
    maxChunk := legs.foldl (fun m l => if l.maxChunk < m then l.maxChunk else m)
      policy.maxChunkSize
    preferredChunk := legs.foldl (fun p l => if l.preferredChunk < p then l.preferredChunk else p)
      policy.preferredChunkSize
    alignment := legs.foldl (fun a l => if l.alignment > a then l.alignment else a) 16 }

/-- The checks and the planning of a submission between its lookups and the
creation of its record. -/
def planTransfer (opts : TransferOptions) (se de : EndpointRecord) :
    Except Error (ByteCount × TransferRecord) :=
  match resolveRanges se de opts.sourceRange opts.destinationRange with
  | .error e => .error e
  | .ok ranges =>
      let pr := rt.planner (rt.plannerInput opts se de ranges.bytes)
      if ¬ pr.found then
        .error { category := .unsupportedPath
                 message := if pr.reason = "" then "no route" else pr.reason }
      else
        match h : ChunkPlan.build (chunkInput opts.policy ranges pr.best.legs) with
        | .error _ => .error { category := .invalidRequest, message := "chunk plan failed" }
        | .ok plan =>
            .ok (ranges.bytes,
              { route := pr.best, chunkPlan := { plan, built := Or.inr ⟨_, h⟩ }
                srcEp := se, dstEp := de
                integrityMode := opts.policy.integrityMode
                verificationOverride := opts.verificationOverride
                verificationMode := opts.verificationMode })

/-- The record as it is entered in the registry. -/
def newTransfer (id : TransferId) (opts : TransferOptions) (bytes : ByteCount)
    (body : TransferRecord) : Transfer :=
  { id, opts, body
    status := { bytesScheduled := bytes, chunkCount := body.chunkPlan.plan.chunkCount, attempt := 1 } }

/-- From the creation of the record on. -/
def admitAs (opts : TransferOptions) (id : TransferId) (bytes : ByteCount) (body : TransferRecord) :
    Prog RtSig Result := do
  let r : Ref ← ask (.insert (newTransfer id opts bytes body))
  let _ ← ask (.count .transferCreated)
  let _ ← ask (.count (.addBytesRequested bytes))
  let _ ← ask (.count (.addChunks body.chunkPlan.plan.chunkCount))
  let _ ← ask (.setState r .planned)
  let err ← awaitDependencies r opts.dependencies
  if err.ok then do
    queueTransfer rt.depth r
    pure (.submitted {} id)
  else pure (.submitted err {})

def submit (opts : TransferOptions) : Prog RtSig Result := do
  let shuttingDown : Bool ← ask .loadShutdown
  if shuttingDown then
    pure (.submitted { category := .invalidRequest, message := "runtime shutting down" } {})
  else if ¬ opts.source.valid ∨ ¬ opts.destination.valid then
    pure (.submitted { category := .invalidRequest, message := "invalid endpoint handle" } {})
  else do
    let se : Option EndpointRecord ← ask (.getEndpoint opts.source)
    let de : Option EndpointRecord ← ask (.getEndpoint opts.destination)
    match se, de with
    | some se, some de =>
        match rt.planTransfer opts se de with
        | .error e => pure (.submitted e {})
        | .ok (bytes, body) =>
            if opts.explicitId.valid then rt.admitAs opts opts.explicitId bytes body
            else do
              let id : TransferId ← ask .generate
              rt.admitAs opts id bytes body
    | _, _ =>
        pure (.submitted { category := .staleGeneration, message := "invalid endpoint handle" } {})

end Runtime

/-! The other calls. -/

def unknownTransfer : Error := { category := .staleGeneration, message := "unknown transfer" }

def cancel (id : TransferId) : Prog RtSig Result := do
  let found : Option Ref ← ask (.find id)
  match found with
  | none => pure (.cancelled unknownTransfer)
  | some r => do
      let s : TransferState ← ask (.stateOf r)
      if s.isTerminal then
        pure (.cancelled { category := .invalidRequest, message := "transfer already terminal" })
      else do
        let _ ← ask (.storeCancel r)
        pure (.cancelled {})

def status (id : TransferId) : Prog RtSig Result := do
  let found : Option Ref ← ask (.find id)
  match found with
  | none => pure (.reported { state := .failed, error := unknownTransfer })
  | some r => do
      let t : Transfer ← ask (.load r)
      pure (.reported t.status)

def Transfer.info (t : Transfer) : TransferInfo :=
  { handle := t.id, state := t.state, route := t.body.route, chunkPlan := t.body.chunkPlan.plan
    bytes := t.status.bytesScheduled, completed := t.status.bytesCompleted
    verified := t.status.bytesVerified, nameSpace := t.opts.nameSpace
    principal := t.opts.principal, source := t.opts.source, destination := t.opts.destination
    attempt := t.status.attempt, error := t.status.error, dependencies := t.opts.dependencies }

def inspect (id : TransferId) : Prog RtSig Result := do
  let found : Option Ref ← ask (.find id)
  match found with
  | none => pure (.inspected { handle := id, state := .failed, error := unknownTransfer })
  | some r => do
      let t : Transfer ← ask (.load r)
      pure (.inspected t.info)

def wait (id : TransferId) : Prog RtSig Result := do
  let found : Option Ref ← ask (.find id)
  match found with
  | none => pure (.waited false)
  | some r => do
      let s : TransferState ← ask (.awaitTerminal r)
      pure (.waited (s = .completed))

def unregisterEndpoint (h : EndpointHandle) : Prog RtSig Result := do
  let e : Error ← ask (.removeEndpoint h)
  pure (.unregistered e)

/-- Workers are joined only by the call that stopped the scheduler. -/
def shutdown : Prog RtSig Result := do
  let already : Bool ← ask .exchangeShutdown
  if already then pure .stopped
  else do
    let join : Bool ← ask .stopScheduler
    if join then
      let _ ← ask .joinWorkers
      pure ()
    let _ ← ask (.drain .host)
    let _ ← ask (.drain .hostPinned)
    let _ ← ask .clearEndpoints
    pure .stopped

/-! The worker. -/

def execHom (r : Ref) : ExecSig.Hom RtSig where
  call := RtCall.exec r
  answer := fun _ x => x

namespace Runtime

variable (rt : Runtime)

def registerEndpoint (desc : EndpointDescriptor) : Prog RtSig Result := do
  let shuttingDown : Bool ← ask .loadShutdown
  match rt.os.registerEndpoint shuttingDown desc with
  | .error e => pure (.registered e {})
  | .ok ep => do
      let h : EndpointHandle ← ask (.allocateEndpoint ep)
      pure (.registered {} h)

def runDriver (r : Ref) : Prog RtSig Unit := do
  let _ ← ask (.setState r .active)
  let _ ← ask (.storeStarted r)
  let _ ← ask (.count .transferStarted)
  let _ ← ask (.count .queuePopped)
  let t : Transfer ← ask (.load r)
  let result ← (rt.context t.body).runTransfer.embed (execHom r)
  finalize r result

def work (t : Task) : Prog RtSig Result := do
  rt.runDriver t.ref
  let _ ← ask .workerReturns
  pure .worked

def program : Op → Prog RtSig Result
  | .submit opts => rt.submit opts
  | .cancel id => TransferFabric.cancel id
  | .status id => TransferFabric.status id
  | .inspect id => TransferFabric.inspect id
  | .wait id => TransferFabric.wait id
  | .registerEndpoint desc => rt.registerEndpoint desc
  | .unregisterEndpoint h => TransferFabric.unregisterEndpoint h
  | .shutdown => TransferFabric.shutdown
  | .work t => rt.work t

/-- How threads start: a client calls the facade, or a free worker of the
scheduler takes a task. -/
inductive Starts : World → Prog RtSig Result → World → Prop
  | call (w : World) (op : Op) (hop : ∀ t, op ≠ .work t) :
      Starts w (rt.program op) { w with calls := w.calls ++ [op] }
  | task (w : World) {t : Task} {queue : Scheduler} (hdepth : 0 < w.scheduler.queueDepth)
      (hbusy : w.busy < rt.workers) (hpop : w.scheduler.pop = (some t, queue)) :
      Starts w (rt.program (.work t))
        { w with scheduler := queue, busy := w.busy + 1, calls := w.calls ++ [.work t] }

abbrev System := Pool RtSig World Result

def start : System := { world := rt.initial, threads := [] }

def Step : System → System → Prop := Pool.Step effect rt.Starts

/-- The states the runtime can be in, whatever is called and however its threads
take turns. -/
def Reaches (σ : System) : Prop := ReflTransGen rt.Step rt.start σ

end Runtime

end TransferFabric
