import TransferFabric.Core.Chunking
import TransferFabric.Core.Integrity
import TransferFabric.Core.Endpoint
import TransferFabric.Core.Backend
import TransferFabric.Core.Status
import TransferFabric.Runtime.Staging

/-!
`run_transfer` and `hash_endpoint_region` as programs over the calls they make:
to backends and streams, to the cancellation flag, to the status, to the
staging pools and to the operating system. The answers are unconstrained here;
each property of the executor fixes the environment it needs.

A stream is known by the position of its `create_stream` call. The two places
that synchronise a stream are told apart, as are the two hashed sides; the
source has no such tags, they only name the call's place in the text.
-/

namespace TransferFabric

open Interaction

/-! Hashing a region of an endpoint. -/

inductive Hasher where
  | crc (c : UInt32)
  | sha (s : Sha256)

namespace Hasher

def start (mode : VerificationMode) : Hasher :=
  if mode = .crc32c then .crc Crc32c.initial else .sha Sha256.initial

def update : Hasher → List Byte → Hasher
  | .crc c, data => .crc (Crc32c.update c data)
  | .sha s, data => .sha (s.update data)

/-- The four CRC bytes stand in front of a zeroed digest. -/
def crcDigest (v : UInt32) : List Byte :=
  ((List.range 4).map fun i => ((v >>> UInt32.ofNat (8 * i)) &&& 0xFF).toUInt8) ++
    List.replicate 28 0

def digest : Hasher → List Byte
  | .crc c => crcDigest (Crc32c.value c)
  | .sha s => s.digest

end Hasher

/-- `std::array<std::uint8_t, 32>` filled with zero. -/
def zeroDigest : List Byte := List.replicate 32 0

/-- The digest of a byte string in a mode. -/
def digestOf (mode : VerificationMode) (data : List Byte) : List Byte :=
  if mode = .crc32c then Hasher.crcDigest (Crc32c.compute data) else Sha256.compute data

/-- Hashing in one go is hashing piece by piece. -/
theorem digestOf_eq (mode : VerificationMode) (data : List Byte) :
    digestOf mode data = ((Hasher.start mode).update data).digest := by
  unfold digestOf Hasher.start
  split <;> rfl

/-- `(len - done) > tmp_sz ? tmp_sz : (len - done)`. -/
def pieceSize (tmpSz len done : ByteCount) : ByteCount :=
  if len - done > tmpSz then tmpSz else len - done

structure HashState where
  done : ByteCount := 0
  hasher : Hasher
  failed : Bool := false

def fileTmpSize : ByteCount := 1048576
def deviceTmpSize : ByteCount := 16777216

/-- One iteration of the file branch; `SetFilePointerEx` is not checked. -/
def hashFileStep (ep : EndpointRecord) (offset len : ByteCount) (s : HashState) :
    Prog IoSig (Flow HashState) :=
  if s.done < len then do
    let n := pieceSize fileTmpSize len s.done
    let pos := ep.desc.offset + offset + s.done
    let _ ← Prog.request (S := IoSig) (.seek ep.fileHandle pos)
    match ← Prog.request (S := IoSig) (.readFile ep.fileHandle n pos) with
    | none => pure (.stop { s with failed := true })
    | some data =>
        if data.length = n.toNat then
          pure (.next { s with hasher := s.hasher.update data, done := s.done + n })
        else pure (.stop { s with failed := true })
  else pure (.stop s)

structure DeviceHashState extends HashState where
  buf : List Byte

/-- What a read-back leaves of a buffer whose first `n` bytes it was given. -/
def DeviceRead.into (r : DeviceRead) (n : Nat) (buf : List Byte) : List Byte :=
  r.written.take n ++ buf.drop (r.written.take n).length

/-- One iteration of the device branch; the result of the read-back is dropped. -/
def hashDeviceStep (ep : EndpointRecord) (offset len : ByteCount) (s : DeviceHashState) :
    Prog IoSig (Flow DeviceHashState) :=
  if s.done < len then do
    let n := pieceSize deviceTmpSize len s.done
    let r ← Prog.request (S := IoSig) (.deviceToHost (ep.desc.base + (offset + s.done)) n)
    let buf := r.into n.toNat s.buf
    pure (.next { s with
      buf, hasher := s.hasher.update (buf.take n.toNat), done := s.done + n })
  else pure (.stop s)

/-- A loop advances by at least one byte, so `len` iterations are enough for either branch. -/
def hashEndpointRegion (ep : EndpointRecord) (offset len : ByteCount) (mode : VerificationMode) :
    Prog IoSig (Error × List Byte) :=
  if mode = .none ∨ len = 0 then pure ({}, zeroDigest)
  else if ep.desc.kind = .file then do
    let s ← forLoop (fun _ => hashFileStep ep offset len) len.toNat 0
      { hasher := Hasher.start mode }
    if s.failed then
      pure ({ category := .integrityFailure, message := "hash: short read" }, zeroDigest)
    else pure ({}, s.hasher.digest)
  else if ep.desc.kind = .device then do
    let s ← forLoop (fun _ => hashDeviceStep ep offset len) len.toNat 0
      { hasher := Hasher.start mode, buf := List.replicate deviceTmpSize.toNat 0 }
    pure ({}, s.hasher.digest)
  else do
    let data ← Prog.request (S := IoSig) (.load (ep.desc.base + offset) len)
    pure ({}, digestOf mode data)

/-! The executor. -/

/-- The place of a stream synchronisation: before a ring slot is reused, or in
the final drain. -/
inductive SyncSite where
  | reuse | drain
  deriving DecidableEq, Repr

/-- Who makes an operating-system call. -/
inductive IoSite where
  | hashSource | hashDest | copy
  deriving DecidableEq, Repr

inductive ExecCall where
  | loadCancel
  | createStream (k : Nat)
  | destroyStream (k : Nat)
  | canCopy (backend : String) (spec : CopySpec)
  | copy (backend : String) (spec : CopySpec)
  | asyncCopy (backend : String) (spec : CopySpec) (stream : Nat)
  | sync (site : SyncSite) (stream : Nat)
  | status (u : StatusUpdate)
  | release (pool : PoolKind) (buf : StagingBuffer)
  | stagingPoolHit (hit : Bool)
  | io (site : IoSite) (c : IoCall)
  deriving DecidableEq, Repr

def ExecAnswer : ExecCall → Type
  | .loadCancel | .canCopy .. => Bool
  | .createStream _ | .copy .. | .asyncCopy .. | .sync .. => Error
  | .destroyStream _ | .status _ | .release .. | .stagingPoolHit _ => Unit
  | .io _ c => IoAnswer c

def ExecSig : Signature := { Call := ExecCall, Answer := ExecAnswer }

def ioHom (site : IoSite) : IoSig.Hom ExecSig where
  call := ExecCall.io site
  answer := fun _ x => x

def exec (c : ExecCall) : Prog ExecSig (ExecAnswer c) := Prog.request (S := ExecSig) c

/-- What the executor reads of a transfer record. -/
structure TransferRecord where
  route : Route := {}
  chunkPlan : BuiltPlan
  stagingBufs : List (List StagingBuffer) := []
  srcEp : EndpointRecord := {}
  dstEp : EndpointRecord := {}
  integrityMode : VerificationMode := .none
  verificationOverride : Bool := false
  verificationMode : VerificationMode := .none

structure RunContext where
  record : TransferRecord
  backends : Backends
  /-- Whether a telemetry sink is attached. -/
  telemetry : Bool := true
  pipelineDepth : Nat := 2

structure Loc where
  ptr : Address := 0
  obj : Handle := 0
  off : ByteOffset := 0
  domain : MemoryDomain := .unknown
  device : DeviceId := 0
  kind : EndpointKind := .unknown
  deriving DecidableEq, Repr

structure Ring where
  bufs : List StagingBuffer := []
  size : ByteCount := 0
  domain : MemoryDomain := .hostPageable
  deriving DecidableEq, Repr

def isStorage (k : EndpointKind) : Bool := k = .file

def isMemoryAddr (d : MemoryDomain) : Bool :=
  d = .hostPageable ∨ d = .hostPinned ∨ d = .shared ∨ d = .mmap

def buildSpec (src dst : Loc) (bytes align : ByteCount) : CopySpec :=
  { srcPtr := src.ptr, dstPtr := dst.ptr, bytes := bytes, alignment := align
    srcDomain := src.domain, dstDomain := dst.domain
    srcDevice := src.device, dstDevice := dst.device
    srcKind := src.kind, dstKind := dst.kind
    srcObject := src.obj, dstObject := dst.obj
    srcObjOffset := src.off, dstObjOffset := dst.off }

/-- The location of an endpoint's byte `off`, as the executor addresses it. -/
def endpointLoc (ep : EndpointRecord) (off : ByteOffset) : Loc :=
  let out : Loc :=
    { domain := ep.caps.memoryDomain, device := ep.caps.deviceId, kind := ep.desc.kind }
  if isStorage ep.desc.kind then { out with obj := ep.fileHandle, off := off }
  else { out with ptr := ep.desc.base + off }

namespace RunContext

variable (ctx : RunContext)

def legs : List Leg := ctx.record.route.legs
def nlegs : Nat := ctx.legs.length
def plan : ChunkPlan := ctx.record.chunkPlan.plan
def nodes : List MemoryDomain := ctx.record.route.nodes
def nnodes : Nat := ctx.nodes.length
def depth : Nat := if ctx.pipelineDepth > 0 then ctx.pipelineDepth else 2
def leg (li : Nat) : Leg := ctx.legs.getD li {}
def lastLeg : Leg := ctx.leg (ctx.nlegs - 1)
def count : Nat := ctx.plan.chunkCount.toNat

/-- Node `j` is neither the source nor the destination. -/
def Staged (j : Nat) : Prop := 1 ≤ j ∧ j + 1 < ctx.nnodes

instance (j : Nat) : Decidable (ctx.Staged j) := inferInstanceAs (Decidable (_ ∧ _))

def ring (j : Nat) : Ring :=
  if ctx.Staged j then
    { bufs := ctx.record.stagingBufs.getD j [], size := ctx.plan.chunkSize
      domain := ctx.nodes.getD j .unknown }
  else {}

def slot (c : Chunk) : Nat := c.index.toNat % ctx.depth

def locAt (j : Nat) (c : Chunk) : Loc :=
  if j = 0 then endpointLoc ctx.record.srcEp c.sourceOffset
  else if j + 1 = ctx.nnodes then endpointLoc ctx.record.dstEp c.destOffset
  else
    { ptr := ((ctx.ring j).bufs.getD (ctx.slot c) {}).data, domain := (ctx.ring j).domain
      device := 0, kind := .host }

def legSpec (li : Nat) (c : Chunk) : CopySpec :=
  buildSpec (ctx.locAt li c) (ctx.locAt (li + 1) c) c.length (ctx.leg li).alignment

def runLeg (li : Nat) (c : Chunk) : Prog ExecSig Error :=
  let name := (ctx.leg li).backend
  match ctx.backends name with
  | none => pure { category := .unsupportedPath, message := "unknown backend" }
  | some _ => do
      let spec := ctx.legSpec li c
      let able : Bool ← exec (.canCopy name spec)
      if able then exec (.copy name spec)
      else pure { category := .unsupportedPath, message := "backend cannot copy leg" }

/-- Legs `0 .. nlegs - 2`, stopping at the first error. -/
def runLegs (c : Chunk) : Prog ExecSig Error :=
  forLoop (fun li _ => do
    let e ← ctx.runLeg li c
    if e.ok then pure (.next {}) else pure (.stop e)) (ctx.nlegs - 1) 0 {}

def finalSpec (c : Chunk) : CopySpec :=
  buildSpec (ctx.locAt (ctx.nlegs - 1) c) (ctx.locAt ctx.nlegs c) c.length ctx.lastLeg.alignment

def finalLeg (useAsync : Bool) (si : Nat) (c : Chunk) : Prog ExecSig Error :=
  if useAsync then do
    let name := ctx.lastLeg.backend
    let spec := ctx.finalSpec c
    let able : Bool ← exec (.canCopy name spec)
    if able then exec (.asyncCopy name spec si)
    else pure { category := .unsupportedPath, message := "cannot async copy" }
  else ctx.runLeg (ctx.nlegs - 1) c

structure LoopState where
  failed : Bool := false
  result : Error := {}
  completed : ByteCount := 0

/-- The stream, and the position in `streams`, that iteration `ci` works on. -/
def streamOf (useAsync : Bool) (ci : Nat) : Nat := if useAsync then ci % ctx.depth else 0

/-- Before a ring slot is overwritten its stream is synchronised; the result is dropped. -/
def syncForReuse (useAsync : Bool) (ci : Nat) : Prog ExecSig Unit :=
  if useAsync ∧ ci ≥ ctx.depth then do
    let _ ← exec (.sync .reuse (ctx.streamOf useAsync ci))
    pure ()
  else pure ()

/-- The legs of one chunk and the progress it adds. -/
def moveChunk (useAsync : Bool) (ci : Nat) (c : Chunk) (s : LoopState) :
    Prog ExecSig (Flow LoopState) := do
  let e ← ctx.runLegs c
  if ¬ e.ok then pure (.stop { s with result := e, failed := true })
  else
    let e ← ctx.finalLeg useAsync (ctx.streamOf useAsync ci) c
    if ¬ e.ok then pure (.stop { s with result := e, failed := true })
    else
      let completed := s.completed + c.length
      let _ ← exec (.status (.progress completed (UInt64.ofNat (ci + 1))))
      pure (.next { s with completed := completed })

/-- One iteration of the chunk loop. -/
def chunkStep (useAsync : Bool) (ci : Nat) (s : LoopState) : Prog ExecSig (Flow LoopState) := do
  let cancelled : Bool ← exec .loadCancel
  if cancelled then
    pure (.stop { s with
      result := { category := .cancellation, message := "cancelled during transfer" }
      failed := true })
  else
    let (e, c) := ctx.plan.chunkAt (UInt64.ofNat ci) {}
    if ¬ e.ok then
      pure (.stop { s with
        result := { category := .invalidRequest, message := "chunk_at failed" }, failed := true })
    else
      ctx.syncForReuse useAsync ci
      ctx.moveChunk useAsync ci c s

/-- Whether the final leg may run on streams. -/
def wantsAsync (finalBackend : Backend) : Bool :=
  finalBackend.isStream ∧ ctx.nlegs ≥ 2 ∧
    (isMemoryAddr ctx.lastLeg.sourceDomain ∨ isMemoryAddr ctx.lastLeg.destDomain)

def destroyStreams (n : Nat) : Prog ExecSig Unit :=
  forLoop (fun k _ => do
    let _ ← exec (.destroyStream k)
    pure (.next ())) n 0 ()

/-- A stream that cannot be created sends the transfer to the synchronous path. -/
def openStreams : Prog ExecSig Bool := do
  let s ← forLoop (fun k (s : Bool × Nat) => do
    let e ← exec (.createStream k)
    if e.ok then pure (.next (s.1, s.2 + 1)) else pure (.stop (false, s.2))) ctx.depth 0 (true, 0)
  if s.1 then pure true
  else do
    destroyStreams s.2
    pure false

/-- Streams are opened only for a final leg that may use them. -/
def openIfWanted (finalBackend : Backend) : Prog ExecSig Bool :=
  if ctx.wantsAsync finalBackend then ctx.openStreams else pure false

def drainStep (k : Nat) (s : LoopState) : Prog ExecSig (Flow LoopState) := do
  let e : Error ← exec (.sync .drain k)
  if e.ok then pure (.next s) else pure (.stop { s with result := e, failed := true })

/-- Outstanding copies are drained stream by stream, up to the first error, unless
the loop has already failed. -/
def drain (useAsync : Bool) (s : LoopState) : Prog ExecSig LoopState :=
  if useAsync ∧ ¬ s.failed then forLoop drainStep ctx.depth 0 s else pure s

def releaseOne (pool : PoolKind) (b : StagingBuffer) : Prog ExecSig Unit := do
  let _ ← exec (.release pool b)
  if ctx.telemetry then
    let _ ← exec (.stagingPoolHit false)
    pure ()
  else pure ()

def releaseAll (pool : PoolKind) : List StagingBuffer → Prog ExecSig Unit
  | [] => pure ()
  | b :: rest => do
      ctx.releaseOne pool b
      releaseAll pool rest

def releaseRings : Prog ExecSig Unit :=
  forLoop (fun j _ => do
    ctx.releaseAll (poolFor (ctx.ring j).domain) (ctx.ring j).bufs
    pure (.next ())) ctx.nnodes 0 ()

/-- `integrity_mode` of the policy unless the options override it. -/
def effectiveMode : VerificationMode :=
  if ctx.record.verificationOverride then ctx.record.verificationMode
  else ctx.record.integrityMode

/-- The comparison that closes verification. -/
def compareDigests (es ed : Error) (sd dd : List Byte) : Prog ExecSig Error :=
  if ¬ es.ok then do
    let _ ← exec (.status (.error es))
    pure es
  else if ¬ ed.ok then do
    let _ ← exec (.status (.error ed))
    pure ed
  else if sd ≠ dd then do
    let _ ← exec (.status .mismatch)
    pure { category := .integrityFailure, message := "destination content differs from source" }
  else do
    let _ ← exec (.status (.verified ctx.plan.total))
    pure {}

def verify : Prog ExecSig Error := do
  let _ ← exec (.status .verifying)
  if ctx.effectiveMode ≠ .none ∧ ctx.plan.total > 0 then
    let src ← (hashEndpointRegion ctx.record.srcEp ctx.plan.sourceOffset ctx.plan.total
      ctx.effectiveMode).embed (ioHom .hashSource)
    let dst ← (hashEndpointRegion ctx.record.dstEp ctx.plan.destOffset ctx.plan.total
      ctx.effectiveMode).embed (ioHom .hashDest)
    ctx.compareDigests src.1 dst.1 src.2 dst.2
  else
    let _ ← exec (.status (.unverified ctx.plan.total))
    pure {}

/-- The chunk loop, the drain, and the release of streams and staging. -/
def moveChunks (useAsync : Bool) : Prog ExecSig LoopState := do
  let s ← forLoop (ctx.chunkStep useAsync) ctx.count 0 {}
  let s ← ctx.drain useAsync s
  ctx.releaseRings
  destroyStreams (if useAsync then ctx.depth else 0)
  pure s

/-- Whether some staging node has no buffer at all. -/
def stagingMissing : Bool := (List.range ctx.nnodes).any fun j =>
  ctx.Staged j ∧ (ctx.ring j).bufs.isEmpty

def runTransfer : Prog ExecSig Error :=
  if ctx.record.route.empty ∨ ctx.plan.chunkCount = 0 then do
    let _ ← exec (.status (.emptyDone ctx.plan.total))
    pure {}
  else if ctx.stagingMissing then
    pure { category := .resourceExhausted, message := "staging buffers not reserved" }
  else
    match ctx.backends ctx.lastLeg.backend with
    | none => pure { category := .unsupportedPath, message := "unknown backend" }
    | some finalBackend => do
        let useAsync ← ctx.openIfWanted finalBackend
        let s ← ctx.moveChunks useAsync
        if s.failed then pure s.result else ctx.verify

end RunContext

end TransferFabric
