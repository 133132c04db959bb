import TransferFabric.Core.Chunking
import TransferFabric.Transports.Frame

/-!
The chunk transport over TCP: the server that streams one file region and the
client that pulls it. Both are loops around a blocking `recv`, so each is a
state machine whose turns begin with what one `recv` delivered. Everything the
operating system answers within a turn (further socket calls, opening, reading
and writing files) is an input of the turn.

A file handle has one position. `SetFilePointerEx` takes a signed offset and its
result is ignored on both sides, so a seek to 2^63 or beyond leaves the position
where it was.
-/

namespace TransferFabric

/-- One call of `recv_some`: between 1 and 4096 bytes, or a closed or broken
connection. -/
inductive Received where
  | bytes (data : List Byte)
  | failed (code : UInt64)
  deriving DecidableEq, Repr

def lastSocketError (what : String) (code : UInt64) : Error :=
  { category := .transientTransport, backendCode := code, message := what }

def encodeReqPayload (path : List Byte) : List Byte :=
  put32 (UInt32.ofNat path.length) ++ path

/-- The error and the path; the caller looks at the path only without an error. -/
def decodeReqPayload (pl : List Byte) : Error × List Byte :=
  if pl.length < 4 then
    ({ category := .invalidRequest, message := "transfer_req payload truncated" }, [])
  else if (get32 pl 0).toNat + 4 > pl.length then
    ({ category := .invalidRequest, message := "transfer_req path length invalid" }, [])
  else ({}, (pl.drop 4).take (get32 pl 0).toNat)

/-- A frame without payload, as `encode(h, nullptr, 0, out)` leaves it. -/
def bareFrame (h : FrameHeader) : List Byte := (FrameEncoder.encode h none 0 []).2

/-- `SetFilePointerEx(h, q, nullptr, FILE_BEGIN)`, its result ignored. -/
def seekTo (q : UInt64) (position : Nat) : Nat := setFilePointer q q.toNat position

/-- What a loop learns from one `recv_some` and the `feed` after it. -/
inductive Pulled where
  | broken (code : UInt64)
  | rejected (e : Error)
  | nothing
  | frame (f : DecodedFrame)
  deriving DecidableEq, Repr

def pull (dec : FrameDecoder) : Received → Pulled × FrameDecoder
  | .failed code => (.broken code, dec)
  | .bytes data =>
      match dec.feed data {} with
      | (some f, _, dec) => (.frame f, dec)
      | (none, e, dec) => (if e.ok then .nothing else .rejected e, dec)

/-! The client. -/

structure TransferCall where
  connected : Bool := true
  srcPath : List Byte
  offset : ByteOffset
  length : ByteCount
  dstPath : List Byte
  id : TransferId
  deriving DecidableEq, Repr

inductive ClientPhase where
  | awaitHelloAck
  | receiving
  | returned (result : Error)
  deriving DecidableEq, Repr

structure ClientState where
  phase : ClientPhase
  dec : FrameDecoder := {}
  /-- The position of the destination handle. -/
  position : Nat := 0
  written : ByteCount := 0
  expectedChunk : UInt64 := 0
  deriving DecidableEq, Repr

/-- What a party does to the outside within a turn. -/
inductive PeerEffect where
  | send (data : List Byte)
  | create (path : List Byte)
  | write (position : Nat) (data : List Byte)
  deriving DecidableEq, Repr

/-- The answers of one turn: `recv`, the `send` of the request, the opening of the
destination, and what `WriteFile` takes of a payload. -/
structure ClientAnswers where
  recv : Received
  sendError : Option UInt64 := none
  opened : Bool := true
  write : (payload : List Byte) → Bool × Nat

namespace TransferCall

variable (c : TransferCall)

def helloFrame : List Byte := bareFrame { type := FrameType.hello.code }

def requestFrame : List Byte :=
  let payload := encodeReqPayload c.srcPath
  (FrameEncoder.encode { type := FrameType.transferReq.code, transferId := c.id, offset := c.offset,
                         length := c.length } (some payload) payload.length []).2

def chunkAckFrame (chunkId : UInt64) : List Byte :=
  bareFrame { type := FrameType.chunkAck.code, transferId := c.id, chunkId := chunkId }

def commitAckFrame : List Byte :=
  bareFrame { type := FrameType.commitAck.code, transferId := c.id }

/-- The ordering check of the receive loop. -/
def inOrder (expected : UInt64) (h : FrameHeader) : Bool := h.chunkId = expected

/-- The range check of the receive loop, with the sums at their machine width. -/
def inRange (h : FrameHeader) : Bool :=
  ¬ (h.offset < c.offset ∨ h.offset + h.length > c.offset + c.length)

end TransferCall

namespace ClientState

variable (c : TransferCall)

def start : ClientState × List PeerEffect :=
  if c.connected then ({ phase := .awaitHelloAck }, [.send TransferCall.helloFrame])
  else
    ({ phase := .returned { category := .invalidRequest, message := "not connected" } }, [])

def finish (st : ClientState) (result : Error) : ClientState :=
  { st with phase := .returned result }

/-- Leaving the receive loop by `break`, without a commit. -/
def abandon (st : ClientState) (result : Error) : ClientState :=
  st.finish (if result.ok then
    { category := .transientTransport, message := "connection closed before commit" } else result)

/-- After the handshake: the request goes out and the destination is created. -/
def request (st : ClientState) (a : ClientAnswers) : ClientState × List PeerEffect :=
  match a.sendError with
  | some code => (st.finish (lastSocketError "send" code), [])
  | none =>
      if a.opened then
        ({ st with phase := .receiving, position := 0 },
          [.send c.requestFrame, .create c.dstPath])
      else
        (st.finish { category := .backendFailure, message := "cannot open destination file" },
          [.send c.requestFrame])

/-- The checked part of the chunk branch: seek, write, acknowledge. -/
def store (st : ClientState) (f : DecodedFrame) (a : ClientAnswers) :
    ClientState × List PeerEffect :=
  let start := seekTo f.header.offset st.position
  let (success, wr) := a.write f.payload
  let stored := PeerEffect.write start (f.payload.take wr)
  if ¬ success ∨ wr ≠ f.payload.length then
    (st.abandon { category := .backendFailure, message := "write failed" }, [stored])
  else
    ({ st with
        position := start + wr
        written := st.written + UInt64.ofNat f.payload.length
        expectedChunk := st.expectedChunk + 1 },
      [stored, .send (c.chunkAckFrame f.header.chunkId)])

def onChunk (st : ClientState) (f : DecodedFrame) (a : ClientAnswers) :
    ClientState × List PeerEffect :=
  if ¬ TransferCall.inOrder st.expectedChunk f.header then
    (st.abandon { category := .invalidRequest, message := "out-of-order or duplicate chunk" }, [])
  else if ¬ c.inRange f.header then
    (st.abandon { category := .invalidRequest, message := "chunk outside requested range" }, [])
  else st.store c f a

def onCommit (st : ClientState) : ClientState × List PeerEffect :=
  (st.finish (if st.written ≠ c.length then
      { category := .integrityFailure, message := "received byte count mismatch" } else {}),
    [.send c.commitAckFrame])

def onFrame (st : ClientState) (f : DecodedFrame) (a : ClientAnswers) :
    ClientState × List PeerEffect :=
  if f.header.type = FrameType.chunk.code then st.onChunk c f a
  else if f.header.type = FrameType.commit.code then st.onCommit c
  else if f.header.type = FrameType.error.code then
    (st.abandon { category := .backendFailure
                  message := "peer error: " ++
                    String.ofList (f.payload.map fun b => Char.ofNat b.toNat) }, [])
  else (st, [])

/-- The loop that waits for `hello_ack`. -/
def handshake (st : ClientState) (a : ClientAnswers) : Pulled → ClientState × List PeerEffect
  | .broken code => (st.finish (lastSocketError "recv" code), [])
  | .rejected e => (st.finish e, [])
  | .nothing => (st, [])
  | .frame f => if f.header.type = FrameType.helloAck.code then st.request c a else (st, [])

/-- The receive loop. -/
def receive (st : ClientState) (a : ClientAnswers) : Pulled → ClientState × List PeerEffect
  | .broken code => (st.abandon (lastSocketError "recv" code), [])
  | .rejected e => (st.abandon e, [])
  | .nothing => (st, [])
  | .frame f => st.onFrame c f a

/-- One turn of `transfer`: one iteration of whichever loop it is in. -/
def step (st : ClientState) (a : ClientAnswers) : ClientState × List PeerEffect :=
  let (got, dec) := pull st.dec a.recv
  match st.phase with
  | .returned _ => (st, [])
  | .awaitHelloAck => { st with dec := dec }.handshake c a got
  | .receiving => { st with dec := dec }.receive c a got

end ClientState

/-! The server. -/

inductive ServerPhase where
  | awaitHello
  | awaitRequest
  | awaitChunkAck (i : ByteCount)
  | awaitCommitAck
  | returned (result : Error)
  deriving DecidableEq, Repr

structure ServerState where
  phase : ServerPhase
  dec : FrameDecoder := {}
  ok : Bool := true
  tid : TransferId := {}
  plan : ChunkPlan := {}
  /-- The position of the source handle. -/
  position : Nat := 0
  deriving DecidableEq, Repr

/-- The answers of one turn: `recv`, the opening of the source, what `ReadFile`
gives for a position and a size, and whether the `send` of a chunk succeeded. -/
structure ServerAnswers where
  recv : Received
  opened : (path : List Byte) → Bool
  read : (position size : Nat) → Bool × List Byte
  sent : Bool := true

namespace ServerState

def start (listening : Bool) (acceptError : Option UInt64) : ServerState :=
  if ¬ listening then
    { phase := .returned { category := .invalidRequest, message := "server not listening" } }
  else
    match acceptError with
    | some code => { phase := .returned (lastSocketError "accept" code) }
    | none => { phase := .awaitHello }

def finish (st : ServerState) (result : Error) : ServerState :=
  { st with phase := .returned result }

def aborted : Error := { category := .backendFailure, message := "transfer aborted" }

def planInput (reqOffset : ByteOffset) (reqLen : ByteCount) : ChunkPlanInput where
  total := reqLen
  sourceOffset := 0
  destOffset := reqOffset
  minChunk := 4096
  maxChunk := UInt64.ofNat Protocol.kMaxPayload
  preferredChunk := UInt64.ofNat Protocol.kMaxPayload
  alignment := 4096

def chunkFrame (tid : TransferId) (c : Chunk) (payload : List Byte) : Error × List Byte :=
  FrameEncoder.encode { type := FrameType.chunk.code, transferId := tid, chunkId := c.index,
                        offset := c.sourceOffset, length := c.length }
    (some payload) payload.length []

def commitFrame (tid : TransferId) : List Byte :=
  bareFrame { type := FrameType.commit.code, transferId := tid }

/-- The loop head for chunk `i`: read it and send it, or commit after the last one. -/
def advance (st : ServerState) (i : ByteCount) (a : ServerAnswers) :
    ServerState × List PeerEffect :=
  if i < st.plan.chunkCount then
    let c := (st.plan.chunkAt i {}).2
    let start := seekTo c.sourceOffset st.position
    let (success, data) := a.read start c.length.toNat
    if ¬ success ∨ UInt64.ofNat data.length ≠ c.length then (st.finish aborted, [])
    else
      let st := { st with position := start + data.length }
      let (e, out) := chunkFrame st.tid c data
      if ¬ e.ok then (st.finish aborted, [])
      else if ¬ a.sent then (st.finish aborted, [])
      else ({ st with phase := .awaitChunkAck i }, [.send out])
  else ({ st with phase := .awaitCommitAck }, [.send (commitFrame st.tid)])

def onRequest (st : ServerState) (f : DecodedFrame) (a : ServerAnswers) :
    ServerState × List PeerEffect :=
  let (pe, srcPath) := decodeReqPayload f.payload
  if ¬ pe.ok then (st.finish pe, [])
  else if ¬ a.opened srcPath then
    (st.finish { category := .backendFailure, message := "cannot open source file" }, [])
  else
    match ChunkPlan.build (planInput f.header.offset f.header.length) with
    | .error _ =>
        (st.finish { category := .invalidRequest, message := "invalid chunk plan" }, [])
    | .ok plan =>
        { st with tid := f.header.transferId, plan := plan, position := 0 }.advance 0 a

/-- The loop that waits for `hello`. -/
def greet (st : ServerState) : Pulled → ServerState × List PeerEffect
  | .broken code => (st.finish (lastSocketError "recv" code), [])
  | .rejected e => (st.finish e, [])
  | .nothing => (st, [])
  | .frame f =>
      if f.header.type = FrameType.hello.code then
        ({ st with phase := .awaitRequest },
          [.send (bareFrame { type := FrameType.helloAck.code })])
      else (st, [])

/-- The loop that waits for `transfer_req`. -/
def awaitRequest (st : ServerState) (a : ServerAnswers) : Pulled → ServerState × List PeerEffect
  | .broken code => (st.finish (lastSocketError "recv" code), [])
  | .rejected e => (st.finish e, [])
  | .nothing => (st, [])
  | .frame f => if f.header.type = FrameType.transferReq.code then st.onRequest f a else (st, [])

/-- The loop that waits for the acknowledgement of chunk `i`. Bytes it cannot decode
only spoil the outcome: it goes on waiting. -/
def awaitAck (st : ServerState) (i : ByteCount) (a : ServerAnswers) :
    Pulled → ServerState × List PeerEffect
  | .broken _ => (st.finish aborted, [])
  | .rejected _ => ({ st with ok := false }, [])
  | .nothing => (st, [])
  | .frame f =>
      if f.header.type = FrameType.chunkAck.code then
        if st.ok then st.advance (i + 1) a else (st.finish aborted, [])
      else if f.header.type = FrameType.error.code then (st.finish aborted, [])
      else (st, [])

/-- The loop that waits for `commit_ack`; whatever ends it, the transfer counts as
served. -/
def awaitCommit (st : ServerState) : Pulled → ServerState × List PeerEffect
  | .broken _ => (st.finish {}, [])
  | .rejected _ => (st.finish {}, [])
  | .nothing => (st, [])
  | .frame f =>
      if f.header.type = FrameType.commitAck.code then (st.finish {}, []) else (st, [])

/-- One turn of `serve_once`: one iteration of whichever loop it is in. -/
def step (st : ServerState) (a : ServerAnswers) : ServerState × List PeerEffect :=
  let (got, dec) := pull st.dec a.recv
  match st.phase with
  | .returned _ => (st, [])
  | .awaitHello => { st with dec := dec }.greet got
  | .awaitRequest => { st with dec := dec }.awaitRequest a got
  | .awaitChunkAck i => { st with dec := dec }.awaitAck i a got
  | .awaitCommitAck => { st with dec := dec }.awaitCommit got

end ServerState

end TransferFabric
