import TransferFabric.Transports.TcpDiscipline

/-!
Server and client over an ordered connection that can be cut, with files and
sends that can fail at any point. The connection hands out what is in flight in
segments of its own choosing; when it is cut, any part of what is in flight is
lost and later sends are lost whole. One invariant describes the conversation:
the server waits in one of four loops, and at most one frame, its own or the one
it waits for, has not been consumed. Without a cut this is lockstep without
stalls. With cuts and failures the two results can differ, because the server
takes the end of the connection for a `commit_ack`.
-/

namespace TransferFabric

open Framing Transition

def Received.size : Received → Nat
  | .bytes data => data.length
  | .failed _ => 0

/-- What a `recv` can answer: some of what is in flight, or a failure if the connection
is broken. -/
def Received.From (flight : List Byte) (broken : Prop) : Received → Prop
  | .bytes seg => seg ≠ [] ∧ seg.length ≤ 4096 ∧ seg <+: flight
  | .failed _ => broken

def ClientState.Returned (st : ClientState) : Prop := ∃ r, st.phase = .returned r

def ClientState.Failed (st : ClientState) : Prop := ∃ r, st.phase = .returned r ∧ r.ok = false

namespace ServerState

def Returned (st : ServerState) : Prop := ∃ r, st.phase = .returned r

def Succeeded (st : ServerState) : Prop := ∃ r, st.phase = .returned r ∧ r.ok = true

def Failed (st : ServerState) : Prop := ∃ r, st.phase = .returned r ∧ r.ok = false

end ServerState

structure Link where
  client : ClientState
  server : ServerState
  /-- Bytes sent and not yet received, in order. -/
  toServer : List Byte
  toClient : List Byte := []
  cut : Bool := false

inductive LinkEvent where
  | client (a : ClientAnswers)
  | server (a : ServerAnswers)
  /-- Of what is in flight, this many bytes will still arrive at either side. -/
  | cut (server client : Nat)

namespace Link

variable (c : TransferCall) (s : Link)

def start : Link :=
  let out := ClientState.start c
  { client := out.1, server := ServerState.start true none, toServer := sentBytes out.2 }

def put (flight sent : List Byte) : List Byte := if s.cut then flight else flight ++ sent

def next : LinkEvent → Link
  | .client a =>
      let out := s.client.step c a
      { s with
        client := out.1
        toClient := s.toClient.drop a.recv.size
        toServer := s.put s.toServer (sentBytes out.2) }
  | .server a =>
      let out := s.server.step a
      { s with
        server := out.1
        toServer := s.toServer.drop a.recv.size
        toClient := s.put s.toClient (sentBytes out.2) }
  | .cut k m =>
      { s with toServer := s.toServer.take k, toClient := s.toClient.take m, cut := true }

/-- A party that has not returned receives. Its `recv` fails if the connection was cut,
or if the other side has returned and nothing of what that sent is left: the server
closes the connection, and so may the owner of the client. -/
def Allows : LinkEvent → Prop
  | .client a => ¬ s.client.Returned ∧
      a.recv.From s.toClient (s.cut = true ∨ s.toClient = [] ∧ s.server.Returned)
  | .server a => ¬ s.server.Returned ∧
      a.recv.From s.toServer (s.cut = true ∨ s.toServer = [] ∧ s.client.Returned)
  | .cut _ _ => True

/-- The direction from the client to the server carries `w`. -/
def Up (w : List Byte) : Prop := Carries s.cut s.server.dec.buf s.toServer w

/-- The direction from the server to the client carries `w`. -/
def Down (w : List Byte) : Prop := Carries s.cut s.client.dec.buf s.toClient w

end Link

/-! The conversation. -/

namespace ClientState

def Greeting (st : ClientState) : Prop := st.phase = .awaitHelloAck ∧ st.written = 0

def Storing (n : Nat) (st : ClientState) : Prop :=
  st.phase = .receiving ∧ st.written = UInt64.ofNat n

end ClientState

/-- One loop of the server: the frame sent before it, the frame that ends it, and the
client before it has the first and after it sent the second. -/
structure Round where
  down : List Byte
  up : List Byte
  before : ClientState → Prop
  after : ClientState → Prop

def helloAckMessage : Outgoing := .bare { type := FrameType.helloAck.code }

inductive Serving (c : TransferCall) : ServerState → Round → Prop where
  | hello {st : ServerState} (hp : st.phase = .awaitHello) (hok : st.ok = true) :
      Serving c st
        { down := [], up := TransferCall.helloFrame
          before := fun _ => False, after := ClientState.Greeting }
  | request {st : ServerState} (hp : st.phase = .awaitRequest) (hok : st.ok = true) :
      Serving c st
        { down := helloAckMessage.wire, up := c.requestFrame
          before := ClientState.Greeting, after := ClientState.Storing 0 }
  | chunk {st : ServerState} {i : ByteCount} (m : Outgoing) (hp : st.phase = .awaitChunkAck i)
      (hok : st.ok = true) (hi : i < st.plan.chunkCount)
      (hplan : ChunkPlan.build (ServerState.planInput c.offset c.length) = .ok st.plan)
      (htype : m.header.type = FrameType.chunk.code) (hid : m.header.chunkId = i)
      (hlen : m.payload.length = st.plan.chunkLength i.toNat) :
      Serving c st
        { down := m.wire, up := c.chunkAckFrame i
          before := ClientState.Storing (st.plan.before i.toNat)
          after := ClientState.Storing (st.plan.before (i.toNat + 1)) }
  | commit {st : ServerState} (hp : st.phase = .awaitCommitAck) :
      Serving c st
        { down := (commitMessage st.tid).wire, up := c.commitAckFrame
          before := ClientState.Storing c.length.toNat, after := ClientState.Succeeded }

/-- How far a round has come: its first frame is under way, its second is, or the client
gave up at some point in between. -/
inductive Link.At (s : Link) (rd : Round) : Prop where
  | before (hc : rd.before s.client) (hd : s.Down rd.down) (hu : s.Up [])
  | after (hc : rd.after s.client) (hd : s.Down []) (hu : s.Up rd.up)
  | unheard (hc : s.client.Failed) (hd : s.Down rd.down) (hu : s.Up [])
  | silent (hc : s.client.Failed) (hd : s.Down []) (hu : s.Up [])
  | spoken (hc : s.client.Failed) (hd : s.Down []) (hu : s.Up rd.up)
      (hp : s.server.phase ≠ .awaitCommitAck)

/-- At most one frame has been sent and not consumed. -/
def Link.Single (s : Link) : Prop :=
  ∃ w, (w = [] ∨ ∃ m : Outgoing, w = m.wire) ∧ (s.Down w ∧ s.Up [] ∨ s.Down [] ∧ s.Up w)

inductive Link.Sync (c : TransferCall) (s : Link) : Prop where
  | waiting (rd : Round) (hs : Serving c s.server rd) (hat : s.At rd)
  | committing (hs : s.server.Succeeded) (hc : ClientState.Storing c.length.toNat s.client)
      (hd : s.Down (commitMessage s.server.tid).wire) (hu : s.Up [])
  | settled (hs : s.server.Returned) (hc : s.client.Returned) (hone : s.Single)
  | aborted (hs : s.server.Failed) (hd : s.cut = true ∨ s.Down [] ∧ s.Up [])

/-! What a `recv` gives. -/

/-- Of the one frame that is under way, a segment brings the last part or another part. -/
theorem pull_carried (m : Outgoing) {cut : Bool} {buf flight seg : List Byte}
    (h : Carries cut buf flight m.wire) (hseg : seg <+: flight) :
    (pull { buf := buf } (.bytes seg) = (.frame m.frame, {}) ∧ flight.drop seg.length = []) ∨
      pull { buf := buf } (.bytes seg) = (.nothing, { buf := buf ++ seg }) ∧
        Carries cut (buf ++ seg) (flight.drop seg.length) m.wire := by
  rcases h.recv hseg with ⟨hall, hdrop⟩ | ⟨hmore, t, ht, hwire⟩
  · have hpull := pull_part m (hall ▸ List.append_nil _ : buf ++ seg ++ [] = m.wire)
    rw [if_pos rfl] at hpull
    exact .inl ⟨hpull, hdrop⟩
  · have hpull := pull_part m hwire
    rw [if_neg ht] at hpull
    exact .inr ⟨hpull, hmore⟩

namespace ClientState

variable {c : TransferCall} {st : ClientState} {a : ClientAnswers}

theorem step_broken (hrun : ¬ st.Returned) {code : UInt64} (hr : a.recv = .failed code) :
    ∃ st', st.step c a = (st', []) ∧ st'.Failed ∧ st'.dec = st.dec := by
  have hpull : pull st.dec a.recv = (.broken code, st.dec) := by rw [hr, pull]
  rw [step_running c st (fun r h => hrun ⟨r, h⟩) hpull]
  cases hp : st.phase with
  | returned r => exact absurd ⟨r, hp⟩ hrun
  | awaitHelloAck =>
      simp only [react]
      exact ⟨_, rfl, ⟨_, rfl, rfl⟩, rfl⟩
  | receiving =>
      simp only [react]
      exact ⟨_, rfl, abandon_failed _ _, rfl⟩

theorem step_part (hrun : ¬ st.Returned) {dec : FrameDecoder}
    (hpull : pull st.dec a.recv = (.nothing, dec)) :
    st.step c a = ({ st with dec := dec }, []) := by
  rw [step_running c st (fun r h => hrun ⟨r, h⟩) hpull]
  cases hp : st.phase with
  | returned r => exact absurd ⟨r, hp⟩ hrun
  | awaitHelloAck | receiving => simp only [react, handshake, receive]

theorem Failed.returned (h : st.Failed) : st.Returned := ⟨h.choose, h.choose_spec.1⟩

theorem Succeeded.returned (h : st.Succeeded) : st.Returned := ⟨h.choose, h.choose_spec.1⟩

theorem not_returned {phase : ClientPhase} (hp : st.phase = phase)
    (h : ∀ r, phase ≠ .returned r) : ¬ st.Returned := by
  rintro ⟨r, hr⟩
  exact h r (hp.symm.trans hr)

end ClientState

namespace ServerState

variable {st : ServerState} {a : ServerAnswers}

/-- A failed `recv` is an error in every loop but the last. -/
theorem step_broken (hrun : ¬ st.Returned) {code : UInt64} (hr : a.recv = .failed code) :
    ∃ st', st.step a = (st', []) ∧ st'.dec = st.dec ∧ st'.tid = st.tid ∧
      if st.phase = .awaitCommitAck then st'.Succeeded else st'.Failed := by
  have hpull : pull st.dec a.recv = (.broken code, st.dec) := by rw [hr, pull]
  rw [step_running st (fun r h => hrun ⟨r, h⟩) hpull]
  cases hp : st.phase with
  | returned r => exact absurd ⟨r, hp⟩ hrun
  | awaitHello | awaitRequest | awaitChunkAck i | awaitCommitAck =>
      simp only [react]
      exact ⟨_, rfl, rfl, rfl, _, rfl, rfl⟩

theorem step_part (hrun : ¬ st.Returned) {dec : FrameDecoder}
    (hpull : pull st.dec a.recv = (.nothing, dec)) :
    st.step a = ({ st with dec := dec }, []) := by
  rw [step_running st (fun r h => hrun ⟨r, h⟩) hpull]
  cases hp : st.phase with
  | returned r => exact absurd ⟨r, hp⟩ hrun
  | awaitHello | awaitRequest | awaitChunkAck i | awaitCommitAck =>
      simp only [react, greet, ServerState.awaitRequest, awaitAck, awaitCommit]

theorem Failed.returned (h : st.Failed) : st.Returned := ⟨h.choose, h.choose_spec.1⟩

theorem Succeeded.returned (h : st.Succeeded) : st.Returned := ⟨h.choose, h.choose_spec.1⟩

theorem Failed.not_succeeded (h : st.Failed) : ¬ st.Succeeded := by
  obtain ⟨r, hr, hbad⟩ := h
  rintro ⟨r', hr', hok⟩
  cases hr.symm.trans hr'
  rw [hbad] at hok
  cases hok

end ServerState

/-! Rounds. -/

theorem requestFrame_wire (c : TransferCall)
    (hfits : (encodeReqPayload c.srcPath).length ≤ Protocol.kMaxPayload) :
    ∃ m : Outgoing, c.requestFrame = m.wire ∧ m.header.type = FrameType.transferReq.code ∧
      m.header.length = c.length ∧ m.header.offset = c.offset :=
  ⟨.loaded _ _ hfits, rfl, rfl, rfl, rfl⟩

theorem requestFrame_nil (c : TransferCall)
    (hbig : ¬ (encodeReqPayload c.srcPath).length ≤ Protocol.kMaxPayload) :
    c.requestFrame = [] := by
  simp only [TransferCall.requestFrame, FrameEncoder.encode, gt_iff_lt, Nat.lt_of_not_le hbig,
    if_true]

theorem commitAckFrame_wire (c : TransferCall) : ∃ m : Outgoing, c.commitAckFrame = m.wire :=
  ⟨.bare { type := FrameType.commitAck.code, transferId := c.id }, rfl⟩

namespace Serving

variable {c : TransferCall} {st : ServerState} {rd : Round}

theorem with_dec (h : Serving c st rd) (d : FrameDecoder) : Serving c { st with dec := d } rd := by
  cases h with
  | hello hp hok => exact .hello hp hok
  | request hp hok => exact .request hp hok
  | chunk m hp hok hi hplan htype hid hlen => exact .chunk m hp hok hi hplan htype hid hlen
  | commit hp => exact .commit hp

theorem running (h : Serving c st rd) : ¬ st.Returned := by
  rintro ⟨r, hr⟩
  cases h with
  | hello hp _ | request hp _ | commit hp => cases hp.symm.trans hr
  | chunk m hp => cases hp.symm.trans hr

theorem before_with_dec (h : Serving c st rd) {cl : ClientState} (hb : rd.before cl)
    (d : FrameDecoder) : rd.before { cl with dec := d } := by
  cases h <;> exact hb

/-- A client that has sent its last frame is done; before that it goes on. -/
theorem after_commit (h : Serving c st rd) {cl : ClientState} (ha : rd.after cl) :
    if st.phase = .awaitCommitAck then cl.Succeeded else ¬ cl.Returned := by
  cases h with
  | hello hp _ | request hp _ =>
      rw [if_neg (by rw [hp]; exact fun h => by cases h)]
      exact ClientState.not_returned ha.1 (fun _ h => by cases h)
  | chunk m hp =>
      rw [if_neg (by rw [hp]; exact fun h => by cases h)]
      exact ClientState.not_returned ha.1 (fun _ h => by cases h)
  | commit hp =>
      rw [if_pos hp]
      exact ha

theorem down_cases (h : Serving c st rd) : rd.down = [] ∨ ∃ m : Outgoing, rd.down = m.wire := by
  cases h with
  | hello hp _ => exact .inl rfl
  | request hp _ => exact .inr ⟨_, rfl⟩
  | chunk m hp => exact .inr ⟨m, rfl⟩
  | commit hp => exact .inr ⟨_, rfl⟩

theorem up_cases (h : Serving c st rd) : rd.up = [] ∨ ∃ m : Outgoing, rd.up = m.wire := by
  cases h with
  | hello hp _ => exact .inr ⟨.bare { type := FrameType.hello.code }, rfl⟩
  | request hp _ =>
      by_cases hfits : (encodeReqPayload c.srcPath).length ≤ Protocol.kMaxPayload
      · obtain ⟨m, hm, -⟩ := requestFrame_wire c hfits
        exact .inr ⟨m, hm⟩
      · exact .inl (requestFrame_nil c hfits)
  | @chunk i m hp =>
      exact .inr ⟨.bare { type := FrameType.chunkAck.code, transferId := c.id, chunkId := i }, rfl⟩
  | commit hp => exact .inr (commitAckFrame_wire c)

end Serving

/-- What a client makes of the first frame of a round: it answers with the second one, or
gives up, before or after answering. -/
inductive Heard (st : ServerState) (rd : Round) (out : ClientState × List PeerEffect) : Prop where
  | answered (hc : rd.after out.1) (hsent : sentBytes out.2 = rd.up)
  | gaveUp (hc : out.1.Failed) (hsent : sentBytes out.2 = [])
  | late (hc : out.1.Failed) (hsent : sentBytes out.2 = rd.up) (hp : st.phase ≠ .awaitCommitAck)

namespace ClientState

variable (c : TransferCall) {st : ClientState} (a : ClientAnswers)

theorem heard_helloAck {srv : ServerState} (hp : srv.phase = .awaitRequest) (h : st.Greeting) :
    Heard srv { down := helloAckMessage.wire, up := c.requestFrame
                before := Greeting, after := Storing 0 }
      (st.react c a (.frame helloAckMessage.frame)) := by
  rw [react_helloAck c a h.1 rfl, request]
  split
  · exact .gaveUp ⟨_, rfl, rfl⟩ rfl
  split
  · exact .answered ⟨rfl, h.2⟩ (by simp [sentBytes])
  · exact .late ⟨_, rfl, rfl⟩ (by simp [sentBytes]) (by rw [hp]; exact fun h => by cases h)

theorem heard_chunk {srv : ServerState} {i : ByteCount} {m : Outgoing}
    (htype : m.header.type = FrameType.chunk.code) (hid : m.header.chunkId = i) {n : Nat}
    (h : Storing n st) :
    Heard srv { down := m.wire, up := c.chunkAckFrame i
                before := Storing n, after := Storing (n + m.payload.length) }
      (st.react c a (.frame m.frame)) := by
  rw [react_chunk c a h.1 htype, onChunk]
  split
  · exact .gaveUp (abandon_failed _ _) rfl
  split
  · exact .gaveUp (abandon_failed _ _) rfl
  rw [store]
  dsimp only
  split
  · exact .gaveUp (abandon_failed _ _) rfl
  · refine .answered ⟨h.1, ?_⟩ ?_
    · show st.written + UInt64.ofNat m.payload.length = _
      rw [h.2, UInt64.ofNat_add]
    · have hack : m.frame.header.chunkId = i := hid
      simp only [sentBytes, List.flatMap_cons, List.flatMap_nil, List.nil_append, List.append_nil,
        hack]

theorem react_commit_stored (tid : TransferId) (h : Storing c.length.toNat st) :
    st.react c a (.frame (commitMessage tid).frame) =
      (st.finish {}, [.send c.commitAckFrame]) := by
  have hwritten : st.written = c.length := by rw [h.2, UInt64.ofNat_toNat]
  rw [react_commit c a h.1 rfl, onCommit, if_neg (not_not.mpr hwritten)]

end ClientState

theorem Serving.heard {c : TransferCall} {st : ServerState} {rd : Round} (h : Serving c st rd)
    {cl : ClientState} (hb : rd.before cl) :
    ∃ m : Outgoing, rd.down = m.wire ∧ ∀ a, Heard st rd (cl.react c a (.frame m.frame)) := by
  cases h with
  | hello hp hok => exact absurd hb id
  | request hp hok => exact ⟨_, rfl, fun a => ClientState.heard_helloAck c a hp hb⟩
  | chunk m hp hok hi hplan htype hid hlen =>
      refine ⟨m, rfl, fun a => ?_⟩
      have hbuilt : st.plan.Built := .inr ⟨_, hplan⟩
      have hlt := UInt64.lt_iff_toNat_lt.mp hi
      have hcovers := hbuilt.covers
        (hbuilt.total_ne_zero ((toNat_ne_zero _).mp (Nat.ne_of_gt (Nat.zero_lt_of_lt hlt))))
      rw [hcovers.before_succ hlt, ← hlen]
      exact ClientState.heard_chunk c a htype hid hb
  | commit hp =>
      refine ⟨commitMessage st.tid, rfl, fun a => ?_⟩
      rw [ClientState.react_commit_stored c a st.tid hb]
      exact .answered ⟨_, rfl, rfl⟩ (List.append_nil _)

/-- What a server makes of the second frame of a round: it gives up, begins another round,
or is done. -/
inductive Answered (c : TransferCall) (st : ServerState) (rd : Round)
    (out : ServerState × List PeerEffect) : Prop where
  | gaveUp (hs : out.1.Failed) (hsent : sentBytes out.2 = [])
  | next (rd' : Round) (hs : Serving c out.1 rd') (hsent : sentBytes out.2 = rd'.down)
      (hc : ∀ cl, rd.after cl → rd'.before cl)
  | done (hs : out.1.Succeeded) (hsent : sentBytes out.2 = []) (hp : st.phase = .awaitCommitAck)

namespace Serving

variable {c : TransferCall} {st srv : ServerState} {rd : Round} (a : ServerAnswers)

/-- The loop head begins the round of the next chunk, or the last round. -/
theorem advance {i : ByteCount} (hok : st.ok = true)
    (hplan : ChunkPlan.build (ServerState.planInput c.offset c.length) = .ok st.plan)
    (hi : i ≤ st.plan.chunkCount)
    (hrd : rd.after = ClientState.Storing (st.plan.before i.toNat)) :
    Answered c srv rd (st.advance i a) := by
  have hbuilt : st.plan.Built := .inr ⟨_, hplan⟩
  cases st.advanced i a with
  | chunk m position hgo hlt htype hid hlen hout =>
      have hnat := UInt64.lt_iff_toNat_lt.mp hlt
      have hcovers := hbuilt.covers (hbuilt.total_ne_zero
        ((toNat_ne_zero _).mp (Nat.ne_of_gt (Nat.zero_lt_of_lt hnat))))
      have hchunk := ChunkPlan.chunkAt_eq hcovers hnat {}
      have hsize : st.plan.chunkLength i.toNat < 2 ^ 64 :=
        Nat.lt_of_le_of_lt ChunkPlan.chunkLength_le st.plan.chunkSize.toNat_lt
      rw [UInt64.ofNat_toNat] at hchunk
      rw [hchunk, ChunkPlan.chunkOf, toNat_ofNat_lt _ hsize] at hlen
      rw [hout]
      exact .next _ (.chunk m rfl hok hlt hplan htype hid hlen) (List.append_nil _)
        fun cl hcl => by rwa [hrd] at hcl
  | commit hgo hlt hout =>
      have hlast : i.toNat = st.plan.chunkCount.toNat := by
        have hle := UInt64.le_iff_toNat_le.mp hi
        rw [UInt64.lt_iff_toNat_lt] at hlt
        omega
      have htotal : st.plan.total = c.length := (ChunkPlan.build_ok_inv hplan).2.2.1
      rw [hout]
      refine .next _ (.commit rfl) (List.append_nil _) fun cl hcl => ?_
      rwa [hrd, hlast, hbuilt.before_count, htotal] at hcl
  | gaveUp position hstop hout =>
      rw [hout]
      exact .gaveUp ⟨_, rfl, rfl⟩ rfl

theorem answered_request (hok : st.ok = true) {f : DecodedFrame}
    (hlength : f.header.length = c.length) (hoffset : f.header.offset = c.offset)
    (hrd : rd.after = ClientState.Storing 0) : Answered c srv rd (st.onRequest f a) := by
  unfold ServerState.onRequest
  dsimp only
  split
  · rename_i hbad
    exact .gaveUp ⟨_, rfl, by simpa using hbad⟩ rfl
  split
  · exact .gaveUp ⟨_, rfl, rfl⟩ rfl
  rw [hlength, hoffset]
  split
  · exact .gaveUp ⟨_, rfl, rfl⟩ rfl
  · rename_i plan hplan
    exact advance a hok hplan UInt64.zero_le (hrd.trans (by rw [UInt64.toNat_zero,
      ChunkPlan.before_zero]))

/-- A request that was encoded as nothing never ends its round. -/
theorem answered (h : Serving c st rd) (hup : rd.up ≠ []) :
    ∃ m : Outgoing, rd.up = m.wire ∧ ∀ a, Answered c st rd (st.react a (.frame m.frame)) := by
  cases h with
  | hello hp hok =>
      refine ⟨.bare { type := FrameType.hello.code }, rfl, fun a => ?_⟩
      have hreact : st.react a (.frame (Outgoing.bare { type := FrameType.hello.code }).frame) =
          ({ st with phase := .awaitRequest }, [.send helloAckMessage.wire]) := by
        simp only [ServerState.react, hp, ServerState.greet, Outgoing.frame, Outgoing.bare, if_true]
        rfl
      rw [hreact]
      exact .next _ (.request rfl hok) (List.append_nil _) fun cl hcl => hcl
  | request hp hok =>
      have hfits : (encodeReqPayload c.srcPath).length ≤ Protocol.kMaxPayload := by
        by_contra hbig
        exact hup (requestFrame_nil c hbig)
      obtain ⟨m, hm, htype, hlength, hoffset⟩ := requestFrame_wire c hfits
      refine ⟨m, hm, fun a => ?_⟩
      rw [ServerState.react_request a hp htype]
      exact answered_request a hok hlength hoffset rfl
  | @chunk i m hp hok hi hplan htype hid hlen =>
      refine ⟨.bare { type := FrameType.chunkAck.code, transferId := c.id, chunkId := i }, rfl,
        fun a => ?_⟩
      have hnat := UInt64.lt_iff_toNat_lt.mp hi
      have hsucc := toNat_succ i (Nat.lt_of_le_of_lt hnat st.plan.chunkCount.toNat_lt)
      rw [ServerState.react_ack a hp hok rfl]
      refine advance a hok hplan ?_ (by rw [hsucc])
      rw [UInt64.le_iff_toNat_le, hsucc]
      exact hnat
  | commit hp =>
      refine ⟨.bare { type := FrameType.commitAck.code, transferId := c.id }, rfl, fun a => ?_⟩
      rw [ServerState.react_commitAck a hp rfl]
      exact .done ⟨_, rfl, rfl⟩ rfl hp

end Serving

/-! Steps. -/

namespace Link

variable {c : TransferCall} {s : Link} {rd : Round}

section Client

variable {a : ClientAnswers}

theorem next_client_broken (hrun : ¬ s.client.Returned) {code : UInt64}
    (hr : a.recv = .failed code) :
    ∃ cl, s.next c (.client a) = { s with client := cl } ∧ cl.Failed ∧ cl.dec = s.client.dec := by
  obtain ⟨cl, hstep, hfail, hdec⟩ := ClientState.step_broken (c := c) hrun hr
  refine ⟨cl, ?_, hfail, hdec⟩
  simp only [next, hstep, hr, Received.size, List.drop_zero, put, sentBytes, List.flatMap_nil,
    List.append_nil, ite_self]

theorem next_client_part (hrun : ¬ s.client.Returned) {seg : List Byte} (hr : a.recv = .bytes seg)
    {dec : FrameDecoder} (hpull : pull s.client.dec (.bytes seg) = (.nothing, dec)) :
    s.next c (.client a) =
      { s with client := { s.client with dec := dec }, toClient := s.toClient.drop seg.length } := by
  rw [← hr] at hpull
  simp only [next, ClientState.step_part hrun hpull, hr, Received.size, put, sentBytes,
    List.flatMap_nil, List.append_nil, ite_self]

theorem next_client_whole (hrun : ¬ s.client.Returned) {seg : List Byte} (hr : a.recv = .bytes seg)
    {f : DecodedFrame} (hpull : pull s.client.dec (.bytes seg) = (.frame f, {}))
    {out : ClientState × List PeerEffect}
    (hout : { s.client with dec := {} }.react c a (.frame f) = out) :
    s.next c (.client a) =
      { s with
        client := out.1
        toClient := s.toClient.drop seg.length
        toServer := s.put s.toServer (sentBytes out.2) } := by
  rw [← hr] at hpull
  simp only [next, ClientState.step_running c s.client (fun r h => hrun ⟨r, h⟩) hpull, hout, hr,
    Received.size]

/-- The client's side of a round. -/
theorem At.client_step (hat : s.At rd) (hs : Serving c s.server rd)
    (hallow : s.Allows (.client a)) : (s.next c (.client a)).At rd := by
  obtain ⟨hrun, hfrom⟩ := hallow
  cases hr : a.recv with
  | failed code =>
      obtain ⟨cl, hnext, hcl, hdec⟩ := next_client_broken (c := c) hrun hr
      have hdown : ∀ {w}, s.Down w → ({ s with client := cl } : Link).Down w := by
        intro w h
        rw [Down, hdec]
        exact h
      rw [hnext]
      cases hat with
      | before hc hd hu => exact .unheard hcl (hdown hd) hu
      | after hc hd hu =>
          refine .spoken hcl (hdown hd) hu fun hp => ?_
          have hdone := hs.after_commit hc
          rw [if_pos hp] at hdone
          exact hrun hdone.returned
      | unheard hc | silent hc | spoken hc => exact absurd hc.returned hrun
  | bytes seg =>
      rw [hr] at hfrom
      obtain ⟨hne, -, hseg⟩ := hfrom
      cases hat with
      | before hc hd hu =>
          obtain ⟨m, hm, hheard⟩ := hs.heard (hs.before_with_dec hc {})
          have hcarry : Carries s.cut s.client.dec.buf s.toClient m.wire := hm ▸ hd
          rcases pull_carried m hcarry hseg with ⟨hpull, hdrop⟩ | ⟨hpull, hmore⟩
          · have hdec := ClientState.react_dec c { s.client with dec := {} } a (.frame m.frame)
            have hheard := hheard a
            generalize hout : { s.client with dec := {} }.react c a (.frame m.frame) = out
              at hdec hheard
            rw [next_client_whole hrun hr hpull hout, hdrop]
            have hdown : Carries s.cut out.1.dec.buf [] [] := by rw [hdec]; exact .nil
            have hup := hu.send (sentBytes out.2)
            cases hheard with
            | answered hafter hsent => exact .after hafter hdown (hsent ▸ hup)
            | gaveUp hfail hsent => exact .silent hfail hdown (hsent ▸ hup)
            | late hfail hsent hp => exact .spoken hfail hdown (hsent ▸ hup) hp
          · rw [next_client_part hrun hr hpull]
            refine .before (hs.before_with_dec hc _) ?_ hu
            rw [hm]
            exact hmore
      | after hc hd hu => exact absurd rfl (hd.ne_nil_of_recv hseg hne)
      | unheard hc | silent hc | spoken hc => exact absurd hc.returned hrun

end Client

section Server

variable {a : ServerAnswers}

theorem next_server_broken (hrun : ¬ s.server.Returned) {code : UInt64}
    (hr : a.recv = .failed code) :
    ∃ st, s.next c (.server a) = { s with server := st } ∧ st.dec = s.server.dec ∧
      st.tid = s.server.tid ∧
      if s.server.phase = .awaitCommitAck then st.Succeeded else st.Failed := by
  obtain ⟨st, hstep, hdec, htid, hresult⟩ := ServerState.step_broken hrun hr
  refine ⟨st, ?_, hdec, htid, hresult⟩
  simp only [next, hstep, hr, Received.size, List.drop_zero, put, sentBytes, List.flatMap_nil,
    List.append_nil, ite_self]

theorem next_server_part (hrun : ¬ s.server.Returned) {seg : List Byte} (hr : a.recv = .bytes seg)
    {dec : FrameDecoder} (hpull : pull s.server.dec (.bytes seg) = (.nothing, dec)) :
    s.next c (.server a) =
      { s with server := { s.server with dec := dec }, toServer := s.toServer.drop seg.length } := by
  rw [← hr] at hpull
  simp only [next, ServerState.step_part hrun hpull, hr, Received.size, put, sentBytes,
    List.flatMap_nil, List.append_nil, ite_self]

theorem next_server_whole (hrun : ¬ s.server.Returned) {seg : List Byte} (hr : a.recv = .bytes seg)
    {f : DecodedFrame} (hpull : pull s.server.dec (.bytes seg) = (.frame f, {}))
    {out : ServerState × List PeerEffect}
    (hout : { s.server with dec := {} }.react a (.frame f) = out) :
    s.next c (.server a) =
      { s with
        server := out.1
        toServer := s.toServer.drop seg.length
        toClient := s.put s.toClient (sentBytes out.2) } := by
  rw [← hr] at hpull
  simp only [next, ServerState.step_running s.server (fun r h => hrun ⟨r, h⟩) hpull, hout, hr,
    Received.size]

theorem At.single (hat : s.At rd) (hs : Serving c s.server rd) : s.Single := by
  cases hat with
  | before hc hd hu | unheard hc hd hu => exact ⟨rd.down, hs.down_cases, .inl ⟨hd, hu⟩⟩
  | after hc hd hu | spoken hc hd hu => exact ⟨rd.up, hs.up_cases, .inr ⟨hd, hu⟩⟩
  | silent hc hd hu => exact ⟨[], .inl rfl, .inl ⟨hd, hu⟩⟩

/-- A server that loses the connection in its last loop counts the transfer as served. -/
theorem At.unconfirmed (hat : s.At rd) (hs : Serving c s.server rd)
    (hp : s.server.phase = .awaitCommitAck) {st : ServerState} (hdec : st.dec = s.server.dec)
    (htid : st.tid = s.server.tid) (hst : st.Succeeded) : Sync c { s with server := st } := by
  have hup : ∀ {w}, s.Up w → ({ s with server := st } : Link).Up w := by
    intro w h
    rw [Up, hdec]
    exact h
  have hover : s.client.Returned → Sync c { s with server := st } := by
    intro hc
    obtain ⟨w, hw, hone⟩ := hat.single hs
    exact .settled hst.returned hc
      ⟨w, hw, hone.imp (fun h => ⟨h.1, hup h.2⟩) (fun h => ⟨h.1, hup h.2⟩)⟩
  cases hat with
  | before hc hd hu =>
      cases hs with
      | commit _ => exact .committing hst hc (by rw [htid]; exact hd) (hup hu)
      | hello hp' _ | request hp' _ | chunk m hp' => cases hp'.symm.trans hp
  | after hc hd hu =>
      have hdone := hs.after_commit hc
      rw [if_pos hp] at hdone
      exact hover hdone.returned
  | unheard hc | silent hc | spoken hc => exact hover hc.returned

/-- The server's side of a round when the connection is lost. -/
theorem At.server_broken (hat : s.At rd) (hs : Serving c s.server rd)
    (hallow : s.Allows (.server a)) {code : UInt64} (hr : a.recv = .failed code) :
    Sync c (s.next c (.server a)) := by
  obtain ⟨hrun, hfrom⟩ := hallow
  rw [hr] at hfrom
  obtain ⟨st, hnext, hdec, htid, hresult⟩ := next_server_broken (c := c) hrun hr
  rw [hnext]
  split at hresult
  · rename_i hp
    exact hat.unconfirmed hs hp hdec htid hresult
  · rcases hfrom with hcut | ⟨-, hc⟩
    · exact .aborted hresult (.inl hcut)
    · obtain ⟨w, hw, hone⟩ := hat.single hs
      refine .settled hresult.returned hc ⟨w, hw, ?_⟩
      unfold Down Up
      rw [hdec]
      exact hone

/-- The server's side of a round when bytes arrive. A success then has the client's
before it. -/
theorem At.server_bytes (hat : s.At rd) (hs : Serving c s.server rd)
    (hallow : s.Allows (.server a)) {seg : List Byte} (hr : a.recv = .bytes seg) :
    Sync c (s.next c (.server a)) ∧
      ((s.next c (.server a)).server.Succeeded → s.client.Succeeded) := by
  obtain ⟨hrun, hfrom⟩ := hallow
  rw [hr] at hfrom
  obtain ⟨hne, -, hseg⟩ := hfrom
  -- the client has spoken, and may have given up since
  obtain ⟨hd, hu, hclient⟩ : s.Down [] ∧ s.Up rd.up ∧
      (rd.after s.client ∨ s.client.Failed ∧ s.server.phase ≠ .awaitCommitAck) := by
    cases hat with
    | after hc hd hu => exact ⟨hd, hu, .inl hc⟩
    | spoken hc hd hu hp => exact ⟨hd, hu, .inr ⟨hc, hp⟩⟩
    | before hc hd hu | unheard hc hd hu | silent hc hd hu =>
        exact absurd rfl (hu.ne_nil_of_recv hseg hne)
  obtain ⟨m, hm, hanswer⟩ := (hs.with_dec {}).answered (hu.ne_nil_of_recv hseg hne)
  have hcarry : Carries s.cut s.server.dec.buf s.toServer m.wire := hm ▸ hu
  rcases pull_carried m hcarry hseg with ⟨hpull, hdrop⟩ | ⟨hpull, hmore⟩
  · have hdec := ServerState.react_dec { s.server with dec := {} } a (.frame m.frame)
    have hanswer := hanswer a
    generalize hout : { s.server with dec := {} }.react a (.frame m.frame) = out at hdec hanswer
    rw [next_server_whole hrun hr hpull hout, hdrop]
    have hup : Carries s.cut out.1.dec.buf [] [] := by rw [hdec]; exact .nil
    have hdown := hd.send (sentBytes out.2)
    cases hanswer with
    | gaveUp hfail hsent =>
        exact ⟨.aborted hfail (.inr ⟨hsent ▸ hdown, hup⟩), fun h => absurd h hfail.not_succeeded⟩
    | next rd' hnext hsent hbefore =>
        refine ⟨.waiting rd' hnext ?_, fun h => absurd h.returned hnext.running⟩
        rcases hclient with hc | ⟨hc, -⟩
        · exact .before (hbefore _ hc) (hsent ▸ hdown) hup
        · exact .unheard hc (hsent ▸ hdown) hup
    | done hdone hsent hp =>
        have hc : s.client.Succeeded := by
          have hafter := hs.after_commit (hclient.resolve_right fun h => h.2 hp)
          rwa [if_pos hp] at hafter
        exact ⟨.settled hdone.returned hc.returned ⟨[], .inl rfl, .inl ⟨hsent ▸ hdown, hup⟩⟩,
          fun _ => hc⟩
  · rw [next_server_part hrun hr hpull]
    have hup : Carries s.cut (s.server.dec.buf ++ seg) (s.toServer.drop seg.length) rd.up :=
      hm ▸ hmore
    refine ⟨.waiting rd (hs.with_dec _) ?_, fun h => absurd h.returned hrun⟩
    rcases hclient with hc | ⟨hc, hp⟩
    · exact .after hc hd hup
    · exact .spoken hc hd hup hp

theorem At.server_step (hat : s.At rd) (hs : Serving c s.server rd)
    (hallow : s.Allows (.server a)) : Sync c (s.next c (.server a)) := by
  cases hr : a.recv with
  | failed code => exact hat.server_broken hs hallow hr
  | bytes seg => exact (hat.server_bytes hs hallow hr).1

end Server

/-- The commit is under way to a client that has everything, and the server is gone. -/
theorem commit_step {a : ClientAnswers} (hs : s.server.Succeeded)
    (hc : ClientState.Storing c.length.toNat s.client)
    (hd : s.Down (commitMessage s.server.tid).wire) (hu : s.Up [])
    (hallow : s.Allows (.client a)) :
    Sync c (s.next c (.client a)) ∧
      ((s.next c (.client a)).client.Failed ↔ ∃ code, a.recv = .failed code) := by
  obtain ⟨hrun, hfrom⟩ := hallow
  cases hr : a.recv with
  | failed code =>
      obtain ⟨cl, hnext, hcl, hdec⟩ := next_client_broken (c := c) hrun hr
      have hdown : ({ s with client := cl } : Link).Down (commitMessage s.server.tid).wire := by
        rw [Down, hdec]
        exact hd
      rw [hnext]
      exact ⟨.settled hs.returned hcl.returned ⟨_, .inr ⟨_, rfl⟩, .inl ⟨hdown, hu⟩⟩,
        iff_of_true hcl ⟨code, rfl⟩⟩
  | bytes seg =>
      rw [hr] at hfrom
      obtain ⟨hne, -, hseg⟩ := hfrom
      have hno : ¬ ∃ code, Received.bytes seg = .failed code := by
        rintro ⟨code, hcode⟩
        cases hcode
      rcases pull_carried _ hd hseg with ⟨hpull, hdrop⟩ | ⟨hpull, hmore⟩
      · have hstored : ClientState.Storing c.length.toNat { s.client with dec := {} } := hc
        have hout := ClientState.react_commit_stored c a s.server.tid hstored
        have hup := hu.send c.commitAckFrame
        have hsent : sentBytes [.send c.commitAckFrame] = c.commitAckFrame := List.append_nil _
        rw [next_client_whole hrun hr hpull hout, hdrop, hsent]
        refine ⟨.settled hs.returned ⟨_, rfl⟩
          ⟨c.commitAckFrame, .inr (commitAckFrame_wire c), .inr ⟨.nil, hup⟩⟩, iff_of_false ?_ hno⟩
        rintro ⟨r, hr, hbad⟩
        cases hr
        cases hbad
      · rw [next_client_part hrun hr hpull]
        exact ⟨.committing hs hc hmore hu, iff_of_false (fun h => hrun h.returned) hno⟩

theorem Single.cut (h : s.Single) (k m : Nat) : (s.next c (.cut k m)).Single := by
  obtain ⟨w, hw, hone⟩ := h
  exact ⟨w, hw, hone.imp (fun h => ⟨h.1.lose m, h.2.lose k⟩) (fun h => ⟨h.1.lose m, h.2.lose k⟩)⟩

theorem At.cut (h : s.At rd) (k m : Nat) : (s.next c (.cut k m)).At rd := by
  cases h with
  | before hc hd hu => exact .before hc (hd.lose m) (hu.lose k)
  | after hc hd hu => exact .after hc (hd.lose m) (hu.lose k)
  | unheard hc hd hu => exact .unheard hc (hd.lose m) (hu.lose k)
  | silent hc hd hu => exact .silent hc (hd.lose m) (hu.lose k)
  | spoken hc hd hu hp => exact .spoken hc (hd.lose m) (hu.lose k) hp

theorem Sync.next (h : Sync c s) {ev : LinkEvent} (hallow : s.Allows ev) :
    Sync c (s.next c ev) := by
  cases ev with
  | client a =>
      cases h with
      | waiting rd hs hat => exact .waiting rd hs (hat.client_step hs hallow)
      | committing hs hc hd hu => exact (commit_step hs hc hd hu hallow).1
      | settled hs hc hone => exact absurd hc hallow.1
      | aborted hs hd =>
          rcases hd with hcut | ⟨hd, hu⟩
          · exact .aborted hs (.inl hcut)
          obtain ⟨hrun, hfrom⟩ := hallow
          cases hr : a.recv with
          | failed code =>
              obtain ⟨cl, hnext, -, hdec⟩ := next_client_broken (c := c) hrun hr
              rw [hnext]
              refine .aborted hs (.inr ⟨?_, hu⟩)
              rw [Down, hdec]
              exact hd
          | bytes seg =>
              rw [hr] at hfrom
              exact absurd rfl (hd.ne_nil_of_recv hfrom.2.2 hfrom.1)
  | server a =>
      cases h with
      | waiting rd hs hat => exact hat.server_step hs hallow
      | committing hs | aborted hs => exact absurd hs.returned hallow.1
      | settled hs => exact absurd hs hallow.1
  | cut k m =>
      cases h with
      | waiting rd hs hat => exact .waiting rd hs (hat.cut k m)
      | committing hs hc hd hu => exact .committing hs hc (hd.lose m) (hu.lose k)
      | settled hs hc hone => exact .settled hs hc (hone.cut k m)
      | aborted hs hd => exact .aborted hs (.inl rfl)

theorem sync_start (c : TransferCall) : Sync c (start c) := by
  have hserver : ServerState.start true none = { phase := .awaitHello } := rfl
  refine .waiting _ (.hello (by rw [start, hserver]) (by rw [start, hserver])) ?_
  unfold start ClientState.start
  split
  · refine .after ⟨rfl, rfl⟩ .nil ?_
    exact Carries.send .nil TransferCall.helloFrame
  · exact .silent ⟨_, rfl, rfl⟩ .nil .nil

end Link

/-! Lockstep. -/

def LinkEvent.Reliable : LinkEvent → Prop
  | .cut _ _ => False
  | _ => True

namespace Link

/-- At most one frame is sent and not consumed, no decoder holds a frame back, and someone
has something to receive as long as both sides wait. -/
structure Lockstep (s : Link) : Prop where
  single : ∃ w, (w = [] ∨ ∃ m : Outgoing, w = m.wire) ∧
    (s.client.dec.buf ++ s.toClient = w ∧ s.server.dec.buf ++ s.toServer = [] ∨
      s.client.dec.buf ++ s.toClient = [] ∧ s.server.dec.buf ++ s.toServer = w)
  clientDrained : FrameDecoder.scan s.client.dec.buf = .wait
  serverDrained : FrameDecoder.scan s.server.dec.buf = .wait
  moving : ¬ (¬ s.client.Returned ∧ ¬ s.server.Returned ∧ s.toClient = [] ∧ s.toServer = [])

end Link

theorem scan_carried {cut : Bool} {buf flight w : List Byte} (h : Carries cut buf flight w)
    (hw : w = [] ∨ ∃ m : Outgoing, w = m.wire) : FrameDecoder.scan buf = .wait := by
  rcases hw with rfl | ⟨m, rfl⟩
  · rw [h.of_nil.1]
    rfl
  · obtain ⟨rest, hrest⟩ := (List.prefix_append buf flight).trans h.part
    refine Scanner.scan_part (σ := FrameDecoder.scanner) Outgoing.scan_wire hrest fun hnil => ?_
    rw [hnil, List.append_nil] at hrest
    exact m.wire_ne_nil (h.unfinished hrest)

theorem Serving.up_ne_nil {c : TransferCall} {st : ServerState} {rd : Round} (h : Serving c st rd)
    (hpath : c.srcPath.length ≤ Protocol.kMaxPayload - 4) : rd.up ≠ [] := by
  cases h with
  | hello hp _ => exact (Outgoing.bare { type := FrameType.hello.code }).wire_ne_nil
  | request hp _ =>
      have hfits : (encodeReqPayload c.srcPath).length ≤ Protocol.kMaxPayload := by
        rw [Exchange.length_reqPayload]
        simp only [Protocol.kMaxPayload] at hpath ⊢
        omega
      obtain ⟨m, hm, -⟩ := requestFrame_wire c hfits
      exact fun hnil => m.wire_ne_nil (hm.symm.trans hnil)
  | @chunk i m hp => exact (Outgoing.bare { type := FrameType.chunkAck.code, transferId := c.id
                                            chunkId := i }).wire_ne_nil
  | commit hp =>
      obtain ⟨m, hm⟩ := commitAckFrame_wire c
      exact fun hnil => m.wire_ne_nil (hm.symm.trans hnil)

namespace Link

variable {c : TransferCall} {s : Link}

theorem Sync.single (h : Sync c s) (hcut : s.cut = false) : s.Single := by
  cases h with
  | waiting rd hs hat => exact hat.single hs
  | committing hs hc hd hu => exact ⟨_, .inr ⟨_, rfl⟩, .inl ⟨hd, hu⟩⟩
  | settled hs hc hone => exact hone
  | aborted hs hd =>
      rcases hd with h | ⟨hd, hu⟩
      · rw [hcut] at h
        cases h
      · exact ⟨[], .inl rfl, .inl ⟨hd, hu⟩⟩

/-- While both sides wait, the frame that one of them waits for is still in flight. -/
theorem Sync.moving (h : Sync c s) (hcut : s.cut = false)
    (hpath : c.srcPath.length ≤ Protocol.kMaxPayload - 4) (hc : ¬ s.client.Returned)
    (hs : ¬ s.server.Returned) : ¬ (s.toClient = [] ∧ s.toServer = []) := by
  rintro ⟨hdown, hup⟩
  cases h with
  | waiting rd hserving hat =>
      cases hat with
      | before hb hd hu =>
          obtain ⟨m, hm, -⟩ := hserving.heard hb
          rw [Down, hcut, hdown] at hd
          exact m.wire_ne_nil (hm.symm.trans hd.nil_of_idle)
      | after ha hd hu =>
          rw [Up, hcut, hup] at hu
          exact hserving.up_ne_nil hpath hu.nil_of_idle
      | unheard hf | silent hf | spoken hf => exact hc hf.returned
  | committing hs' | aborted hs' => exact hs hs'.returned
  | settled hs' => exact hs hs'

theorem Sync.lockstep (h : Sync c s) (hcut : s.cut = false)
    (hpath : c.srcPath.length ≤ Protocol.kMaxPayload - 4) : s.Lockstep := by
  obtain ⟨w, hw, hone⟩ := h.single hcut
  have hempty : ([] : List Byte) = [] ∨ ∃ m : Outgoing, [] = m.wire := .inl rfl
  refine ⟨⟨w, hw, ?_⟩, ?_, ?_, fun hstill => h.moving hcut hpath hstill.1 hstill.2.1 hstill.2.2⟩
  · exact hone.imp (fun h => ⟨h.1.whole hcut, h.2.whole hcut⟩)
      (fun h => ⟨h.1.whole hcut, h.2.whole hcut⟩)
  · rcases hone with ⟨hd, -⟩ | ⟨hd, -⟩
    · exact scan_carried hd hw
    · exact scan_carried hd hempty
  · rcases hone with ⟨-, hu⟩ | ⟨-, hu⟩
    · exact scan_carried hu hempty
    · exact scan_carried hu hw

end Link

theorem tcp_lockstep (c : TransferCall) (hpath : c.srcPath.length ≤ Protocol.kMaxPayload - 4)
    (events : List LinkEvent)
    (hrun : ∀ x ∈ trace (Link.next c) (Link.start c) events, x.1.Allows x.2 ∧ x.2.Reliable) :
    (events.foldl (Link.next c) (Link.start c)).Lockstep := by
  have hinv := foldl_invariant (fun s => Link.Sync c s ∧ s.cut = false)
    (fun s ev => s.Allows ev ∧ ev.Reliable) ?_ ⟨Link.sync_start c, rfl⟩ hrun
  · exact hinv.1.lockstep hinv.2 hpath
  · rintro s ev ⟨hsync, hcut⟩ ⟨hallow, hreliable⟩
    refine ⟨hsync.next hallow, ?_⟩
    cases ev with
    | client a | server a => exact hcut
    | cut k m => exact absurd hreliable id

/-- A session over a connection without faults, as a link. -/
def Session.link (s : Session) : Link :=
  { client := s.client, server := s.server, toServer := s.toServer, toClient := s.toClient }

theorem Session.Step.link {e : Exchange} {s t : Session} (h : Session.Step e s t) :
    ∃ ev : LinkEvent, ev.Reliable ∧ s.link.Allows ev ∧ s.link.next e.call ev = t.link := by
  have hne : ∀ {seg : List Byte}, 1 ≤ seg.length → seg ≠ [] := by
    rintro seg hlen rfl
    exact absurd hlen (by decide)
  cases h with
  | clientRecv seg rest hseg hlen hrun =>
      refine ⟨.client (clientAnswers (.bytes seg)), trivial,
        ⟨not_exists.mpr hrun, hne hlen.1, hlen.2, ⟨rest, hseg.symm⟩⟩, ?_⟩
      simp only [Session.link, Link.next, clientAnswers, Received.size, hseg, List.drop_left,
        Link.put, Session.clientTurn, Bool.false_eq_true, if_false]
  | clientClosed code hempty hclosed hrun =>
      refine ⟨.client (clientAnswers (.failed code)), trivial,
        ⟨not_exists.mpr hrun, .inr ⟨hempty, hclosed⟩⟩, ?_⟩
      simp only [Session.link, Link.next, clientAnswers, Received.size, hempty, List.drop_nil,
        Link.put, Session.clientTurn, Bool.false_eq_true, if_false]
  | serverRecv seg rest hseg hlen hrun =>
      refine ⟨.server (serverAnswers e (.bytes seg)), trivial,
        ⟨not_exists.mpr hrun, hne hlen.1, hlen.2, ⟨rest, hseg.symm⟩⟩, ?_⟩
      simp only [Session.link, Link.next, serverAnswers, Received.size, hseg, List.drop_left,
        Link.put, Session.serverTurn, Bool.false_eq_true, if_false]

/-- A session without faults is one of the conversations. -/
theorem Session.sync {e : Exchange} {s : Session}
    (h : Relation.ReflTransGen (Session.Step e) (Session.start e) s) :
    Link.Sync e.call s.link := by
  induction h with
  | refl => exact Link.sync_start e.call
  | tail _ hstep ih =>
      obtain ⟨ev, -, hallow, hnext⟩ := hstep.link
      exact hnext ▸ ih.next hallow

section Decidable

instance (st : ClientState) : Decidable st.Returned :=
  match h : st.phase with
  | .returned r => .isTrue ⟨r, h⟩
  | .awaitHelloAck | .receiving => .isFalse (ClientState.not_returned h (fun _ h => by cases h))

instance (st : ServerState) : Decidable st.Returned :=
  match h : st.phase with
  | .returned r => .isTrue ⟨r, h⟩
  | .awaitHello | .awaitRequest | .awaitChunkAck _ | .awaitCommitAck =>
      .isFalse (by rintro ⟨_, hr⟩; cases h.symm.trans hr)

instance {flight : List Byte} {broken : Prop} [Decidable broken] :
    (r : Received) → Decidable (r.From flight broken)
  | .bytes seg => inferInstanceAs (Decidable (seg ≠ [] ∧ seg.length ≤ 4096 ∧ seg <+: flight))
  | .failed _ => inferInstanceAs (Decidable broken)

instance (s : Link) : (ev : LinkEvent) → Decidable (s.Allows ev)
  | .client a => inferInstanceAs (Decidable (_ ∧ a.recv.From _ _))
  | .server a => inferInstanceAs (Decidable (_ ∧ a.recv.From _ _))
  | .cut _ _ => .isTrue trivial

instance : (ev : LinkEvent) → Decidable ev.Reliable
  | .client _ | .server _ => .isTrue trivial
  | .cut _ _ => .isFalse id

end Decidable

/-- Two bytes in one chunk, frame by frame, up to the commit. -/
def upToCommit : List LinkEvent :=
  [.server (arrives TransferCall.helloFrame), .client (heard { type := FrameType.helloAck.code } []),
   .server (arrives twoBytes.requestFrame),
   .client (heard { type := FrameType.chunk.code, transferId := twoBytes.id, length := 2 } [0, 0]),
   .server (arrives (twoBytes.chunkAckFrame 0))]

theorem upToCommit_lockstep :
    (upToCommit.foldl (Link.next twoBytes) (Link.start twoBytes)).Lockstep :=
  tcp_lockstep twoBytes (by decide) upToCommit (by decide +kernel)

/-! Agreement. -/

namespace Link

variable {c : TransferCall} {s : Link}

/-- A served transfer was received. -/
def Agreed (s : Link) : Prop :=
  s.server.Succeeded → s.client.Returned → s.client.Succeeded

/-- No end of the connection comes between the two results: a server that waits for the
`commit_ack` of a client that gave up does not lose it, nor does a client after the
server counted its transfer as served. -/
def Timely (s : Link) : LinkEvent → Prop
  | .client a => (∃ code, a.recv = .failed code) → ¬ s.server.Succeeded
  | .server a => (∃ code, a.recv = .failed code) → s.server.phase = .awaitCommitAck →
      ¬ s.client.Failed
  | .cut _ _ => True

theorem agreed_iff : s.Agreed ↔ ¬ (s.server.Succeeded ∧ s.client.Failed) := by
  constructor
  · rintro h ⟨hs, r, hr, hbad⟩
    exact ClientState.not_succeeded_of_failed hr hbad (h hs ⟨r, hr⟩)
  · rintro h hs ⟨r, hr⟩
    by_contra hfail
    refine h ⟨hs, r, hr, ?_⟩
    by_contra hok
    exact hfail ⟨r, hr, by simpa using hok⟩

theorem agreed_client (h : Sync c s) {a : ClientAnswers} (hallow : s.Allows (.client a)) :
    (s.next c (.client a)).Agreed ↔ s.Agreed ∧ s.Timely (.client a) := by
  have hserver : (s.next c (.client a)).server = s.server := rfl
  rw [agreed_iff, agreed_iff, hserver]
  by_cases hs : s.server.Succeeded
  · have hrun : ¬ s.client.Failed := fun hf => hallow.1 hf.returned
    simp only [Timely, hs, hrun, true_and, not_false_eq_true, not_true_eq_false, imp_false]
    cases h with
    | waiting rd hserving => exact absurd hs.returned hserving.running
    | committing _ hc hd hu => rw [(commit_step hs hc hd hu hallow).2]
    | settled _ hc => exact absurd hc hallow.1
    | aborted hs' => exact absurd hs hs'.not_succeeded
  · simp only [Timely, hs, false_and, not_false_eq_true, implies_true, and_true]

theorem agreed_server (h : Sync c s) {a : ServerAnswers} (hallow : s.Allows (.server a)) :
    (s.next c (.server a)).Agreed ↔ s.Agreed ∧ s.Timely (.server a) := by
  have hclient : (s.next c (.server a)).client = s.client := rfl
  have hbefore : s.Agreed := fun hs => absurd hs.returned hallow.1
  rw [and_iff_right hbefore]
  cases hr : a.recv with
  | failed code =>
      obtain ⟨st, hnext, -, -, hresult⟩ := next_server_broken (c := c) hallow.1 hr
      have hfailed : ∃ code, a.recv = .failed code := ⟨code, hr⟩
      rw [agreed_iff, hnext]
      simp only [Timely, hfailed, true_implies]
      split at hresult
      · rename_i hp
        simp only [hresult, hp, true_and, true_implies]
      · rename_i hp
        simp only [hresult.not_succeeded, hp, false_and, not_false_eq_true, false_implies]
  | bytes seg =>
      refine iff_of_true (fun hs _ => ?_) ?_
      · cases h with
        | waiting rd hserving hat => exact (hat.server_bytes hserving hallow hr).2 hs
        | committing hs' | aborted hs' => exact absurd hs'.returned hallow.1
        | settled hs' => exact absurd hs' hallow.1
      · rintro ⟨code, hcode⟩
        cases hr.symm.trans hcode

theorem agreed_next (h : Sync c s) {ev : LinkEvent} (hallow : s.Allows ev) :
    (s.next c ev).Agreed ↔ s.Agreed ∧ s.Timely ev := by
  cases ev with
  | client a => exact agreed_client h hallow
  | server a => exact agreed_server h hallow
  | cut k m => exact (and_iff_left trivial).symm

end Link

theorem commit_agreement_iff (c : TransferCall) (events : List LinkEvent)
    (hrun : ∀ x ∈ trace (Link.next c) (Link.start c) events, x.1.Allows x.2) :
    (events.foldl (Link.next c) (Link.start c)).Agreed ↔
      ∀ x ∈ trace (Link.next c) (Link.start c) events, x.1.Timely x.2 := by
  have hstart : (Link.start c).Agreed := by
    rintro ⟨r, hr, -⟩
    cases hr
  rw [foldl_good_iff (fun s ev (h : Link.Sync c s) hallow => h.next hallow)
    (fun s ev h hallow => Link.agreed_next h hallow) (Link.sync_start c) hrun]
  exact and_iff_right hstart

instance (st : ClientState) : Decidable st.Failed :=
  decidable_of_iff (st.Returned ∧ ¬ st.Succeeded)
    ⟨fun h => ⟨h.1.choose, h.1.choose_spec, by
        simpa using fun hok => h.2 ⟨h.1.choose, h.1.choose_spec, hok⟩⟩,
      fun h => ⟨h.returned, ClientState.not_succeeded_of_failed h.choose_spec.1 h.choose_spec.2⟩⟩

instance (st : ServerState) : Decidable st.Succeeded :=
  match h : st.phase with
  | .returned r => decidable_of_iff (r.ok = true) (by simp [ServerState.Succeeded, h])
  | .awaitHello | .awaitRequest | .awaitChunkAck _ | .awaitCommitAck =>
      .isFalse (by rintro ⟨_, hr, _⟩; cases h.symm.trans hr)

instance : (r : Received) → Decidable (∃ code, r = .failed code)
  | .bytes _ => .isFalse (by rintro ⟨_, h⟩; cases h)
  | .failed code => .isTrue ⟨code, rfl⟩

instance (s : Link) : (ev : LinkEvent) → Decidable (s.Timely ev)
  | .client a => inferInstanceAs (Decidable ((∃ code, a.recv = .failed code) → _))
  | .server a => inferInstanceAs (Decidable ((∃ code, a.recv = .failed code) → _))
  | .cut _ _ => .isTrue trivial

/-- The rest of the session, frame by frame. -/
def confirmed : List LinkEvent :=
  upToCommit ++
    [.client (heard { type := FrameType.commit.code, transferId := twoBytes.id } []),
     .server (arrives twoBytes.commitAckFrame)]

theorem confirmed_agreed :
    (confirmed.foldl (Link.next twoBytes) (Link.start twoBytes)).server.Succeeded ∧
      (confirmed.foldl (Link.next twoBytes) (Link.start twoBytes)).Agreed :=
  ⟨by decide +kernel,
    (commit_agreement_iff twoBytes confirmed (by decide +kernel)).mpr (by decide +kernel)⟩

/-- The connection is cut while the commit is under way, and both sides notice. -/
def cutAtCommit : List LinkEvent :=
  upToCommit ++ [.cut 0 0, .server { arrives [] with recv := .failed 10054 },
    .client { heard { type := 0 } [] with recv := .failed 10054 }]

theorem cutAtCommit_disagree :
    (∀ x ∈ trace (Link.next twoBytes) (Link.start twoBytes) cutAtCommit, x.1.Allows x.2) ∧
      (cutAtCommit.foldl (Link.next twoBytes) (Link.start twoBytes)).server.phase =
        .returned {} ∧
      (cutAtCommit.foldl (Link.next twoBytes) (Link.start twoBytes)).client.phase =
        .returned (lastSocketError "recv" 10054) ∧
      ¬ (cutAtCommit.foldl (Link.next twoBytes) (Link.start twoBytes)).Agreed := by
  have hserver : (cutAtCommit.foldl (Link.next twoBytes) (Link.start twoBytes)).server.phase =
      .returned {} := by decide +kernel
  have hclient : (cutAtCommit.foldl (Link.next twoBytes) (Link.start twoBytes)).client.phase =
      .returned (lastSocketError "recv" 10054) := by decide +kernel
  refine ⟨by decide +kernel, hserver, hclient, fun h => ?_⟩
  exact Link.agreed_iff.mp h ⟨⟨_, hserver, rfl⟩, ⟨_, hclient, rfl⟩⟩

end TransferFabric
