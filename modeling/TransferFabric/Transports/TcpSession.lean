import TransferFabric.Foundation.Transition
import TransferFabric.Transports.Tcp

/-!
Server and client of the chunk transport talking to each other over a reliable,
ordered connection. The network cuts both byte streams into segments as it
likes; files and sockets report no errors. The two sides run in lockstep: at any
time one frame is under way and one side waits for it. The file region arrives
and both sides return success exactly if the region starts at the beginning of
the file or is empty, because the server numbers the bytes it sends from the
beginning of the file.
-/

namespace TransferFabric

open Relation Transition

/-- The setting of one transfer. A file's size is a signed 64-bit number, and a path
too long for a request frame is too long to be opened. -/
structure Exchange where
  call : TransferCall
  file : List Byte
  /-- The destination before the transfer. -/
  previous : Nat → Option Byte
  connected : call.connected = true
  size_lt : file.length < 2 ^ 63
  within : call.offset.toNat + call.length.toNat ≤ file.length
  path_fits : 4 + call.srcPath.length ≤ Protocol.kMaxPayload

structure Session where
  client : ClientState
  server : ServerState
  /-- Bytes sent and not yet received, in order. -/
  toServer : List Byte
  toClient : List Byte
  dest : Nat → Option Byte

def sentBytes (effects : List PeerEffect) : List Byte :=
  effects.flatMap fun
    | .send data => data
    | _ => []

/-- `CREATE_ALWAYS` empties the destination; a write replaces the bytes it covers. -/
def PeerEffect.onFile (dest : Nat → Option Byte) : PeerEffect → Nat → Option Byte
  | .send _ => dest
  | .create _ => fun _ => none
  | .write position data => fun x =>
      if position ≤ x ∧ x < position + data.length then data[x - position]? else dest x

namespace Session

variable (e : Exchange)

def clientAnswers (r : Received) : ClientAnswers :=
  { recv := r, write := fun payload => (true, payload.length) }

def serverAnswers (r : Received) : ServerAnswers :=
  { recv := r
    opened := fun path => path = e.call.srcPath
    read := fun position size => (true, (e.file.drop position).take size) }

def clientTurn (s : Session) (r : Received) (rest : List Byte) : Session :=
  let out := s.client.step e.call (clientAnswers r)
  { s with
    client := out.1
    toClient := rest
    toServer := s.toServer ++ sentBytes out.2
    dest := out.2.foldl PeerEffect.onFile s.dest }

def serverTurn (s : Session) (r : Received) (rest : List Byte) : Session :=
  let out := s.server.step (serverAnswers e r)
  { s with
    server := out.1
    toServer := rest
    toClient := s.toClient ++ sentBytes out.2 }

/-- Either side receives some of the bytes under way to it. The server closes the
connection when it returns; the client leaves it open. -/
inductive Step : Session → Session → Prop where
  | clientRecv (s : Session) (seg rest : List Byte) (hseg : s.toClient = seg ++ rest)
      (hlen : 1 ≤ seg.length ∧ seg.length ≤ 4096) (hrun : ∀ r, s.client.phase ≠ .returned r) :
      Step s (s.clientTurn e (.bytes seg) rest)
  | clientClosed (s : Session) (code : UInt64) (hempty : s.toClient = [])
      (hclosed : ∃ r, s.server.phase = .returned r) (hrun : ∀ r, s.client.phase ≠ .returned r) :
      Step s (s.clientTurn e (.failed code) [])
  | serverRecv (s : Session) (seg rest : List Byte) (hseg : s.toServer = seg ++ rest)
      (hlen : 1 ≤ seg.length ∧ seg.length ≤ 4096) (hrun : ∀ r, s.server.phase ≠ .returned r) :
      Step s (s.serverTurn e (.bytes seg) rest)

/-- Accepted and connected; the client has sent its first frame. -/
def start : Session :=
  let out := ClientState.start e.call
  { client := out.1
    server := ServerState.start true none
    toServer := sentBytes out.2
    toClient := []
    dest := e.previous }

/-- Both calls returned success and the destination holds the region. -/
structure Delivered (s : Session) : Prop where
  client : ∃ r, s.client.phase = .returned r ∧ r.ok = true
  server : ∃ r, s.server.phase = .returned r ∧ r.ok = true
  bytes : ∀ x, e.call.offset.toNat ≤ x → x < e.call.offset.toNat + e.call.length.toNat →
    s.dest x = e.file[x]?

end Session

/-! Frames that were sent, as the decoder sees them. -/

namespace Outgoing

def bare (h : FrameHeader) : Outgoing where
  header := h
  data := none
  len := 0
  fits := Nat.zero_le _
  readable := readable_none

def loaded (h : FrameHeader) (payload : List Byte) (fits : payload.length ≤ Protocol.kMaxPayload) :
    Outgoing where
  header := h
  data := some payload
  len := payload.length
  fits := fits
  readable _ := ⟨payload, rfl, Nat.le_refl _⟩

theorem bareFrame_eq (h : FrameHeader) : bareFrame h = (bare h).wire := rfl

theorem payload_loaded (h : FrameHeader) (payload : List Byte)
    (fits : payload.length ≤ Protocol.kMaxPayload) :
    (loaded h payload fits).payload = payload := List.take_length

theorem wire_ne_nil (m : Outgoing) : m.wire ≠ [] := by
  intro h
  have hlen := congrArg List.length m.wire_eq
  rw [h, List.length_append, FrameEncoder.length_encodeHeader] at hlen
  simp only [List.length_nil, FrameLayout.kHeaderSize] at hlen
  omega

end Outgoing

/-- Receiving part of a frame shows nothing; the last part shows the frame and
empties the buffer. -/
theorem pull_part (m : Outgoing) {buf seg rest : List Byte} (h : buf ++ seg ++ rest = m.wire) :
    pull { buf := buf } (.bytes seg) =
      if rest = [] then (.frame m.frame, {}) else (.nothing, { buf := buf ++ seg }) := by
  split
  · rename_i hrest
    have hscan : FrameDecoder.scan (buf ++ seg) = .frame m.frame [] := by
      have := m.scan_wire []
      rwa [List.append_nil, ← h, hrest, List.append_nil] at this
    simp only [pull, FrameDecoder.feed_frame (d := { buf := buf }) {} hscan]
  · rename_i hrest
    have hscan : FrameDecoder.scan (buf ++ seg) = .wait :=
      Framing.Scanner.scan_part (σ := FrameDecoder.scanner) Outgoing.scan_wire h hrest
    simp only [pull, FrameDecoder.feed_wait (d := { buf := buf }) {} hscan]
    rfl

/-! Lockstep. -/

inductive Side where
  | client | server
  deriving DecidableEq

/-- One frame is under way to the receiver; the other side waits behind it. The
receiver's buffer is not part of the stage. -/
structure Stage where
  receiver : Side
  message : Outgoing
  client : ClientState
  server : ServerState
  dest : Nat → Option Byte

namespace Stage

variable (e : Exchange) (g : Stage)

/-- The stage with part of its frame received and the rest still under way. -/
def split (buf rest : List Byte) : Session :=
  match g.receiver with
  | .client =>
      { client := { g.client with dec := { buf := buf } }, server := g.server
        toServer := [], toClient := rest, dest := g.dest }
  | .server =>
      { client := g.client, server := { g.server with dec := { buf := buf } }
        toServer := rest, toClient := [], dest := g.dest }

def start : Session := g.split [] g.message.wire

def Waiting : Prop :=
  match g.receiver with
  | .client => ∀ r, g.client.phase ≠ .returned r
  | .server => ∀ r, g.server.phase ≠ .returned r

end Stage

/-- The loop a client is in, applied to what a `recv` brought. -/
def ClientState.react (c : TransferCall) (st : ClientState) (a : ClientAnswers) (got : Pulled) :
    ClientState × List PeerEffect :=
  match st.phase with
  | .returned _ => (st, [])
  | .awaitHelloAck => st.handshake c a got
  | .receiving => st.receive c a got

theorem ClientState.step_running (c : TransferCall) (st : ClientState) {a : ClientAnswers}
    {got : Pulled} {dec : FrameDecoder} (hrun : ∀ r, st.phase ≠ .returned r)
    (hpull : pull st.dec a.recv = (got, dec)) :
    st.step c a = { st with dec := dec }.react c a got := by
  cases hp : st.phase with
  | returned r => exact absurd hp (hrun r)
  | awaitHelloAck | receiving => simp only [step, react, hp, hpull]

def ServerState.react (st : ServerState) (a : ServerAnswers) (got : Pulled) :
    ServerState × List PeerEffect :=
  match st.phase with
  | .returned _ => (st, [])
  | .awaitHello => st.greet got
  | .awaitRequest => st.awaitRequest a got
  | .awaitChunkAck i => st.awaitAck i a got
  | .awaitCommitAck => st.awaitCommit got

theorem ServerState.step_running (st : ServerState) {a : ServerAnswers}
    {got : Pulled} {dec : FrameDecoder} (hrun : ∀ r, st.phase ≠ .returned r)
    (hpull : pull st.dec a.recv = (got, dec)) :
    st.step a = { st with dec := dec }.react a got := by
  cases hp : st.phase with
  | returned r => exact absurd hp (hrun r)
  | awaitHello | awaitRequest | awaitChunkAck i | awaitCommitAck =>
      simp only [step, react, hp, hpull]

/-! Only the pull touches the decoder, and only it looks at what `recv` answered. -/

theorem ServerState.advance_with_dec (st : ServerState) (i : ByteCount) (a : ServerAnswers)
    (d : FrameDecoder) :
    ({ st with dec := d }.advance i a).1 = { (st.advance i a).1 with dec := d } := by
  unfold advance
  dsimp only
  split_ifs <;> rfl

theorem ServerState.onRequest_with_dec (st : ServerState) (f : DecodedFrame) (a : ServerAnswers)
    (d : FrameDecoder) :
    ({ st with dec := d }.onRequest f a).1 = { (st.onRequest f a).1 with dec := d } := by
  unfold onRequest
  dsimp only
  split
  · rfl
  split
  · rfl
  split
  · rfl
  · rename_i plan hplan
    exact advance_with_dec
      { st with tid := f.header.transferId, plan := plan, position := 0 } 0 a d

theorem ServerState.react_with_dec (st : ServerState) (a : ServerAnswers) (got : Pulled)
    (d : FrameDecoder) :
    ({ st with dec := d }.react a got).1 = { (st.react a got).1 with dec := d } := by
  unfold react
  dsimp only
  cases got with
  | broken code | rejected e | nothing => split <;> rfl
  | frame f =>
      simp only [greet, ServerState.awaitRequest, awaitAck, awaitCommit]
      split
      · rfl
      · split <;> rfl
      · split
        · exact onRequest_with_dec st f a d
        · rfl
      · repeat' split
        · exact advance_with_dec st _ a d
        all_goals rfl
      · split <;> rfl

theorem ClientState.react_with_dec (c : TransferCall) (st : ClientState) (a : ClientAnswers)
    (got : Pulled) (d : FrameDecoder) :
    ({ st with dec := d }.react c a got).1 = { (st.react c a got).1 with dec := d } := by
  unfold react
  dsimp only
  split
  · rfl
  · cases got with
    | broken code | rejected e | nothing => rfl
    | frame f =>
        simp only [handshake, request]
        repeat' split
        all_goals rfl
  · cases got with
    | broken code | rejected e | nothing => rfl
    | frame f =>
        simp only [receive, onFrame, onChunk, store]
        repeat' split
        all_goals rfl

theorem ServerState.react_dec (st : ServerState) (a : ServerAnswers) (got : Pulled) :
    (st.react a got).1.dec = st.dec := by
  have h : (st.react a got).1 = { (st.react a got).1 with dec := st.dec } :=
    st.react_with_dec a got st.dec
  rw [h]

theorem ClientState.react_dec (c : TransferCall) (st : ClientState) (a : ClientAnswers)
    (got : Pulled) : (st.react c a got).1.dec = st.dec := by
  have h : (st.react c a got).1 = { (st.react c a got).1 with dec := st.dec } :=
    st.react_with_dec c a got st.dec
  rw [h]

theorem ServerState.react_recv (st : ServerState) (a : ServerAnswers) (r : Received)
    (got : Pulled) : st.react { a with recv := r } got = st.react a got := by
  unfold react
  split <;> rfl

theorem ClientState.react_recv (c : TransferCall) (st : ClientState) (a : ClientAnswers)
    (r : Received) (got : Pulled) : st.react c { a with recv := r } got = st.react c a got := by
  unfold react
  split <;> rfl

/-! What each loop does with the frame it waits for. -/

section Reactions

variable {f : DecodedFrame}

theorem ClientState.react_helloAck (c : TransferCall) {st : ClientState} (a : ClientAnswers)
    (hp : st.phase = .awaitHelloAck) (hf : f.header.type = FrameType.helloAck.code) :
    st.react c a (.frame f) = st.request c a := by
  simp only [react, hp, handshake, hf, if_true]

theorem ClientState.react_chunk (c : TransferCall) {st : ClientState} (a : ClientAnswers)
    (hp : st.phase = .receiving) (hf : f.header.type = FrameType.chunk.code) :
    st.react c a (.frame f) = st.onChunk c f a := by
  simp only [react, hp, receive, onFrame, hf, if_true]

theorem ClientState.react_commit (c : TransferCall) {st : ClientState} (a : ClientAnswers)
    (hp : st.phase = .receiving) (hf : f.header.type = FrameType.commit.code) :
    st.react c a (.frame f) = st.onCommit c := by
  simp only [react, hp, receive, onFrame, hf, if_true]
  rfl

theorem ServerState.react_request {st : ServerState} (a : ServerAnswers)
    (hp : st.phase = .awaitRequest) (hf : f.header.type = FrameType.transferReq.code) :
    st.react a (.frame f) = st.onRequest f a := by
  simp only [react, hp, ServerState.awaitRequest, hf, if_true]

theorem ServerState.react_ack {st : ServerState} (a : ServerAnswers) {i : ByteCount}
    (hp : st.phase = .awaitChunkAck i) (hok : st.ok = true)
    (hf : f.header.type = FrameType.chunkAck.code) :
    st.react a (.frame f) = st.advance (i + 1) a := by
  simp only [react, hp, awaitAck, hok, hf, if_true]

theorem ServerState.react_commitAck {st : ServerState} (a : ServerAnswers)
    (hp : st.phase = .awaitCommitAck) (hf : f.header.type = FrameType.commitAck.code) :
    st.react a (.frame f) = (st.finish {}, []) := by
  simp only [react, hp, awaitCommit, hf, if_true]

end Reactions

section Turns

variable (e : Exchange) {m : Outgoing} {buf seg rest : List Byte}

theorem client_step_whole {st : ClientState} (hrun : ∀ r, st.phase ≠ .returned r)
    (h : buf ++ seg = m.wire) :
    { st with dec := { buf := buf } }.step e.call (Session.clientAnswers (.bytes seg)) =
      { st with dec := {} }.react e.call (Session.clientAnswers (.bytes [])) (.frame m.frame) := by
  have hpull := pull_part m (h ▸ List.append_nil _ : buf ++ seg ++ [] = m.wire)
  rw [if_pos rfl] at hpull
  refine (ClientState.step_running _ { st with dec := { buf := buf } } hrun hpull).trans ?_
  cases hp : st.phase with
  | returned r => exact absurd hp (hrun r)
  | awaitHelloAck | receiving => rfl

theorem client_step_part {st : ClientState} (hrun : ∀ r, st.phase ≠ .returned r)
    (h : buf ++ seg ++ rest = m.wire) (hrest : rest ≠ []) :
    { st with dec := { buf := buf } }.step e.call (Session.clientAnswers (.bytes seg)) =
      ({ st with dec := { buf := buf ++ seg } }, []) := by
  have hpull := pull_part m h
  rw [if_neg hrest] at hpull
  refine (ClientState.step_running _ { st with dec := { buf := buf } } hrun hpull).trans ?_
  cases hp : st.phase with
  | returned r => exact absurd hp (hrun r)
  | awaitHelloAck | receiving => rfl

theorem server_step_whole {st : ServerState} (hrun : ∀ r, st.phase ≠ .returned r)
    (h : buf ++ seg = m.wire) :
    { st with dec := { buf := buf } }.step (Session.serverAnswers e (.bytes seg)) =
      { st with dec := {} }.react (Session.serverAnswers e (.bytes [])) (.frame m.frame) := by
  have hpull := pull_part m (h ▸ List.append_nil _ : buf ++ seg ++ [] = m.wire)
  rw [if_pos rfl] at hpull
  refine (ServerState.step_running { st with dec := { buf := buf } } hrun hpull).trans ?_
  cases hp : st.phase with
  | returned r => exact absurd hp (hrun r)
  | awaitHello | awaitRequest | awaitChunkAck i | awaitCommitAck => rfl

theorem server_step_part {st : ServerState} (hrun : ∀ r, st.phase ≠ .returned r)
    (h : buf ++ seg ++ rest = m.wire) (hrest : rest ≠ []) :
    { st with dec := { buf := buf } }.step (Session.serverAnswers e (.bytes seg)) =
      ({ st with dec := { buf := buf ++ seg } }, []) := by
  have hpull := pull_part m h
  rw [if_neg hrest] at hpull
  refine (ServerState.step_running { st with dec := { buf := buf } } hrun hpull).trans ?_
  cases hp : st.phase with
  | returned r => exact absurd hp (hrun r)
  | awaitHello | awaitRequest | awaitChunkAck i | awaitCommitAck =>
      rfl

end Turns

namespace Stage

variable (e : Exchange) (g : Stage)

/-- What the receiver makes of the frame. -/
def after : Session :=
  match g.receiver with
  | .client =>
      let out := { g.client with dec := {} }.react e.call (Session.clientAnswers (.bytes []))
        (.frame g.message.frame)
      { client := out.1, server := g.server, toServer := sentBytes out.2, toClient := []
        dest := out.2.foldl PeerEffect.onFile g.dest }
  | .server =>
      let out := { g.server with dec := {} }.react (Session.serverAnswers e (.bytes []))
        (.frame g.message.frame)
      { client := g.client, server := out.1, toServer := [], toClient := sentBytes out.2
        dest := g.dest }

variable {e g} {buf rest : List Byte}

theorem after_client {out : ClientState × List PeerEffect} (hside : g.receiver = .client)
    (h : { g.client with dec := {} }.react e.call (Session.clientAnswers (.bytes []))
      (.frame g.message.frame) = out) :
    g.after e = { client := out.1, server := g.server, toServer := sentBytes out.2
                  toClient := [], dest := out.2.foldl PeerEffect.onFile g.dest } := by
  subst h
  simp only [after, hside]

theorem after_server {out : ServerState × List PeerEffect} (hside : g.receiver = .server)
    (h : { g.server with dec := {} }.react (Session.serverAnswers e (.bytes []))
      (.frame g.message.frame) = out) :
    g.after e = { client := g.client, server := out.1, toServer := []
                  toClient := sentBytes out.2, dest := g.dest } := by
  subst h
  simp only [after, hside]

/-- A turn of a stage receives more of the frame or all of it. -/
theorem step_split (hw : g.Waiting) (hbuf : buf ++ rest = g.message.wire) (hne : rest ≠ [])
    {s : Session} (hs : Session.Step e (g.split buf rest) s) :
    (∃ buf' rest', rest'.length < rest.length ∧ rest' ≠ [] ∧ buf' ++ rest' = g.message.wire ∧
      s = g.split buf' rest') ∨ s = g.after e := by
  obtain ⟨receiver, m, client, server, dest⟩ := g
  -- the side that is not the receiver has nothing to receive
  have hempty : ∀ {seg rest' : List Byte}, [] = seg ++ rest' → ¬ 1 ≤ seg.length := by
    intro seg rest' h
    rw [(List.append_eq_nil_iff.mp h.symm).1]
    exact Nat.not_succ_le_zero 0
  cases receiver with
  | client =>
      cases hs with
      | clientRecv seg rest' hseg hlen hrun =>
          have hrest : rest = seg ++ rest' := hseg
          have hwire : buf ++ seg ++ rest' = m.wire := by
            rw [List.append_assoc, ← hrest]
            exact hbuf
          by_cases hnil : rest' = []
          · right
            rw [hnil, List.append_nil] at hwire
            simp only [Session.clientTurn, split, after, client_step_whole e hw hwire, hnil,
              List.nil_append]
          · left
            refine ⟨buf ++ seg, rest', ?_, hnil, hwire, ?_⟩
            · rw [hrest, List.length_append]
              omega
            · simp only [Session.clientTurn, split, client_step_part e hw hwire hnil]
              rfl
      | clientClosed code hnone => exact absurd hnone hne
      | serverRecv seg rest' hseg hlen => exact absurd hlen.1 (hempty hseg)
  | server =>
      cases hs with
      | serverRecv seg rest' hseg hlen hrun =>
          have hrest : rest = seg ++ rest' := hseg
          have hwire : buf ++ seg ++ rest' = m.wire := by
            rw [List.append_assoc, ← hrest]
            exact hbuf
          by_cases hnil : rest' = []
          · right
            rw [hnil, List.append_nil] at hwire
            simp only [Session.serverTurn, split, after, server_step_whole e hw hwire, hnil,
              List.nil_append]
          · left
            refine ⟨buf ++ seg, rest', ?_, hnil, hwire, ?_⟩
            · rw [hrest, List.length_append]
              omega
            · simp only [Session.serverTurn, split, server_step_part e hw hwire hnil]
              rfl
      | clientClosed code _ hclosed =>
          obtain ⟨r, hr⟩ := hclosed
          exact absurd hr (hw r)
      | clientRecv seg rest' hseg hlen => exact absurd hlen.1 (hempty hseg)

theorem step_enabled (hw : g.Waiting) (hne : rest ≠ []) :
    ∃ s, Session.Step e (g.split buf rest) s := by
  obtain ⟨receiver, m, client, server, dest⟩ := g
  obtain ⟨b, rest, rfl⟩ := List.exists_cons_of_ne_nil hne
  cases receiver with
  | client => exact ⟨_, .clientRecv _ [b] rest rfl ⟨Nat.le_refl _, by simp⟩ hw⟩
  | server => exact ⟨_, .serverRecv _ [b] rest rfl ⟨Nat.le_refl _, by simp⟩ hw⟩

/-- However the frame is cut, the stage ends in what the receiver makes of it. -/
theorem inevitable_split {P : Session → Prop} (hw : g.Waiting)
    (hafter : Inevitable (Session.Step e) P (g.after e)) (hbuf : buf ++ rest = g.message.wire)
    (hne : rest ≠ []) : Inevitable (Session.Step e) P (g.split buf rest) := by
  induction hn : rest.length using Nat.strongRecOn generalizing buf rest with
  | ind n ih =>
      refine .next (step_enabled hw hne) fun s hs => ?_
      rcases step_split hw hbuf hne hs with ⟨buf', rest', hlt, hne', hbuf', rfl⟩ | rfl
      · exact ih rest'.length (hn ▸ hlt) hbuf' hne' rfl
      · exact hafter

theorem inevitable_start {P : Session → Prop} (hw : g.Waiting)
    (hafter : Inevitable (Session.Step e) P (g.after e)) :
    Inevitable (Session.Step e) P g.start :=
  inevitable_split hw hafter (List.nil_append _) g.message.wire_ne_nil

theorem reaches_split (hw : g.Waiting) (hbuf : buf ++ rest = g.message.wire) (hne : rest ≠ []) :
    ReflTransGen (Session.Step e) (g.split buf rest) (g.after e) := by
  induction hn : rest.length using Nat.strongRecOn generalizing buf rest with
  | ind n ih =>
      obtain ⟨s, hs⟩ := step_enabled (e := e) (g := g) hw hne
      refine .head hs ?_
      rcases step_split hw hbuf hne hs with ⟨buf', rest', hlt, hne', hbuf', rfl⟩ | rfl
      · exact ih rest'.length (hn ▸ hlt) hbuf' hne' rfl
      · exact .refl

theorem reaches_after (hw : g.Waiting) : ReflTransGen (Session.Step e) g.start (g.after e) :=
  reaches_split hw (List.nil_append _) g.message.wire_ne_nil

end Stage

/-! The plan of the server and the chunks it sends. -/

namespace Exchange

variable (e : Exchange)

def plan : ChunkPlan :=
  (ChunkPlan.build (ServerState.planInput e.call.offset e.call.length)).toOption.getD {}

private theorem ok_getD {r : Except Error ChunkPlan} (h : ∃ p, r = .ok p) :
    r = .ok (r.toOption.getD {}) := by
  obtain ⟨p, rfl⟩ := h
  rfl

theorem minChunk_le (o : ByteOffset) (n : ByteCount) :
    (ServerState.planInput o n).minChunk ≤ (ServerState.planInput o n).maxChunk :=
  show (4096 : ByteCount) ≤ UInt64.ofNat Protocol.kMaxPayload by decide

theorem build_eq :
    ChunkPlan.build (ServerState.planInput e.call.offset e.call.length) = .ok e.plan :=
  ok_getD (ChunkPlan.build_ok _ (show (4096 : ByteCount) ≠ 0 by decide) (minChunk_le _ _)
    (show (4096 : ByteCount) ≠ 0 by decide))

def count : Nat := e.plan.chunkCount.toNat

/-- How many bytes the first `i` chunks hold. -/
def sent (i : Nat) : Nat := min (i * e.plan.chunkSize.toNat) e.call.length.toNat

theorem total_eq : e.plan.total = e.call.length := (ChunkPlan.build_ok_inv e.build_eq).2.2.1

theorem sourceOffset_eq : e.plan.sourceOffset = 0 := (ChunkPlan.build_ok_inv e.build_eq).2.2.2.1

theorem chunkLength_le (i : Nat) : e.plan.chunkLength i ≤ Protocol.kMaxPayload := by
  obtain ⟨-, -, htotal, -, -, -, hne⟩ := ChunkPlan.build_ok_inv e.build_eq
  by_cases hzero : e.call.length = 0
  · have : e.plan.total.toNat = 0 := by rw [e.total_eq, hzero]; rfl
    unfold ChunkPlan.chunkLength
    omega
  · obtain ⟨hsize, -⟩ := hne hzero
    have hbound := (ChunkPlan.chunkSizeFor_bounds _ (minChunk_le e.call.offset e.call.length)).2
    rw [← hsize, UInt64.le_iff_toNat_le] at hbound
    have hmax : (ServerState.planInput e.call.offset e.call.length).maxChunk.toNat =
      Protocol.kMaxPayload := rfl
    have : e.plan.chunkLength i ≤ e.plan.chunkSize.toNat := ChunkPlan.chunkLength_le
    omega

theorem count_eq_zero (h : e.call.length = 0) : e.count = 0 := by
  obtain ⟨-, -, -, -, -, hz, -⟩ := ChunkPlan.build_ok_inv e.build_eq
  rw [count, hz h]
  rfl

theorem covers (h : e.call.length ≠ 0) : e.plan.Covers :=
  ChunkPlan.build_covers e.build_eq (by rw [e.total_eq]; exact h)

theorem length_ne_zero {i : Nat} (hi : i < e.count) : e.call.length ≠ 0 := by
  intro h
  rw [e.count_eq_zero h] at hi
  omega

@[simp] theorem sent_zero : e.sent 0 = 0 := by
  rw [sent, Nat.zero_mul, Nat.zero_min]

theorem sent_le (i : Nat) : e.sent i ≤ e.file.length := by
  have := e.within
  unfold sent
  omega

theorem sent_of_lt {i : Nat} (hi : i < e.count) : e.sent i = i * e.plan.chunkSize.toNat := by
  have hlt := (e.covers (e.length_ne_zero hi)).start_lt hi
  rw [e.total_eq] at hlt
  unfold sent
  omega

theorem sent_eq (i : Nat) : e.sent i = e.plan.before i := by
  rw [sent, ChunkPlan.before, e.total_eq]

theorem sent_succ {i : Nat} (hi : i < e.count) :
    e.sent (i + 1) = e.sent i + e.plan.chunkLength i := by
  rw [e.sent_eq, e.sent_eq, (e.covers (e.length_ne_zero hi)).before_succ hi]

theorem sent_count : e.sent e.count = e.call.length.toNat := by
  have hbuilt : e.plan.Built := .inr ⟨_, e.build_eq⟩
  rw [e.sent_eq, count, hbuilt.before_count, e.total_eq]

def chunkBytes (i : Nat) : List Byte := (e.file.drop (e.sent i)).take (e.plan.chunkLength i)

theorem length_chunkBytes {i : Nat} (hi : i < e.count) :
    (e.chunkBytes i).length = e.plan.chunkLength i := by
  have hsucc := e.sent_succ hi
  have hle := e.sent_le (i + 1)
  rw [chunkBytes, List.length_take, List.length_drop]
  omega

def chunkMessage (i : Nat) : Outgoing :=
  .loaded { type := FrameType.chunk.code, transferId := e.call.id, chunkId := UInt64.ofNat i
            offset := UInt64.ofNat (e.sent i), length := UInt64.ofNat (e.plan.chunkLength i) }
    (e.chunkBytes i)
    (Nat.le_trans (List.length_take_le _ _) (e.chunkLength_le i))

def commitMessage : Outgoing := .bare { type := FrameType.commit.code, transferId := e.call.id }

/-- A server that has sent the first `i` chunks. -/
def serving (phase : ServerPhase) (i : Nat) : ServerState :=
  { phase := phase, tid := e.call.id, plan := e.plan, position := e.sent i }

def chunk (i : Nat) : Chunk := { e.plan.chunkOf i with sourceOffset := UInt64.ofNat (e.sent i) }

theorem chunkAt_eq {i : Nat} (hi : i < e.count) :
    (e.plan.chunkAt (UInt64.ofNat i) {}).2 = e.chunk i := by
  rw [chunk, ChunkPlan.chunkAt_eq (e.covers (e.length_ne_zero hi)) hi, ChunkPlan.chunkOf,
    e.sourceOffset_eq, UInt64.zero_add, ← e.sent_of_lt hi]

/-- The loop head of the server sends the next chunk, or commits after the last. -/
theorem advance_eq {i : Nat} (hi : i ≤ e.count) (phase : ServerPhase) (r : Received) :
    (e.serving phase i).advance (UInt64.ofNat i) (Session.serverAnswers e r) =
      if i < e.count then
        (e.serving (.awaitChunkAck (UInt64.ofNat i)) (i + 1), [.send (e.chunkMessage i).wire])
      else (e.serving .awaitCommitAck i, [.send e.commitMessage.wire]) := by
  have hin : (UInt64.ofNat i).toNat = i :=
    toNat_ofNat_lt i (Nat.lt_of_le_of_lt hi e.plan.chunkCount.toNat_lt)
  have hlt : UInt64.ofNat i < (e.serving phase i).plan.chunkCount ↔ i < e.count := by
    rw [UInt64.lt_iff_toNat_lt, hin]
    rfl
  by_cases hmore : i < e.count
  · have hstart : seekTo (UInt64.ofNat (e.sent i)) (e.sent i) = e.sent i := by
      have hfile := e.size_lt
      have hle := e.sent_le i
      rw [seekTo, setFilePointer, toNat_ofNat_lt _ (by omega), if_pos (by omega)]
    have hlen := e.length_chunkBytes hmore
    have hsucc := e.sent_succ hmore
    have hnat : (UInt64.ofNat (e.plan.chunkLength i)).toNat = e.plan.chunkLength i := by
      have := e.chunkLength_le i
      exact toNat_ofNat_lt _ (by simp only [Protocol.kMaxPayload] at this; omega)
    have hframe : ServerState.chunkFrame e.call.id (e.chunk i) (e.chunkBytes i) =
        ({}, (e.chunkMessage i).wire) := by
      rw [Outgoing.wire_eq]
      exact (e.chunkMessage i).encode_eq []
    have hread : (Session.serverAnswers e r).read (e.sent i) (e.plan.chunkLength i) =
        (true, e.chunkBytes i) := rfl
    have hoff : (e.chunk i).sourceOffset = UInt64.ofNat (e.sent i) := rfl
    have hchunk : (e.chunk i).length = UInt64.ofNat (e.plan.chunkLength i) := rfl
    rw [if_pos hmore, ServerState.advance, if_pos (hlt.mpr hmore)]
    simp only [serving, e.chunkAt_eq hmore, hoff, hstart, hchunk, hnat, hread, hframe, hlen]
    simp [Session.serverAnswers, hsucc]
  · rw [if_neg hmore, ServerState.advance, if_neg (mt hlt.mp hmore)]
    rfl

/-! The stages of a transfer, each with what follows it. -/

/-- A client that has stored the first `i` chunks. -/
def storing (i : Nat) : ClientState :=
  { phase := .receiving, position := e.sent i, written := UInt64.ofNat (e.sent i)
    expectedChunk := UInt64.ofNat i }

/-- A destination that holds the first `n` bytes of the file. -/
def arrived (n : Nat) : Nat → Option Byte := fun x => if x < n then e.file[x]? else none

def hello : Stage where
  receiver := .server
  message := .bare { type := FrameType.hello.code }
  client := { phase := .awaitHelloAck }
  server := { phase := .awaitHello }
  dest := e.previous

def helloAck : Stage where
  receiver := .client
  message := .bare { type := FrameType.helloAck.code }
  client := { phase := .awaitHelloAck }
  server := { phase := .awaitRequest }
  dest := e.previous

theorem length_reqPayload (path : List Byte) : (encodeReqPayload path).length = 4 + path.length := by
  rw [encodeReqPayload, List.length_append, length_put32]

def requestMessage : Outgoing :=
  .loaded { type := FrameType.transferReq.code, transferId := e.call.id, offset := e.call.offset
            length := e.call.length }
    (encodeReqPayload e.call.srcPath) (by rw [length_reqPayload]; exact e.path_fits)

def request : Stage where
  receiver := .server
  message := e.requestMessage
  client := e.storing 0
  server := { phase := .awaitRequest }
  dest := e.arrived 0

def sending (i : Nat) : Stage where
  receiver := .client
  message := e.chunkMessage i
  client := e.storing i
  server := e.serving (.awaitChunkAck (UInt64.ofNat i)) (i + 1)
  dest := e.arrived (e.sent i)

def acking (i : Nat) : Stage where
  receiver := .server
  message := .bare { type := FrameType.chunkAck.code, transferId := e.call.id
                     chunkId := UInt64.ofNat i }
  client := e.storing (i + 1)
  server := e.serving (.awaitChunkAck (UInt64.ofNat i)) (i + 1)
  dest := e.arrived (e.sent (i + 1))

def committing : Stage where
  receiver := .client
  message := e.commitMessage
  client := e.storing e.count
  server := e.serving .awaitCommitAck e.count
  dest := e.arrived (e.sent e.count)

def closing : Stage where
  receiver := .server
  message := .bare { type := FrameType.commitAck.code, transferId := e.call.id }
  client := (e.storing e.count).finish {}
  server := e.serving .awaitCommitAck e.count
  dest := e.arrived (e.sent e.count)

/-- After `i` chunks the server sends the next one, or commits. -/
def upTo (i : Nat) : Stage := if i < e.count then e.sending i else e.committing

theorem start_eq : Session.start e = e.hello.start := by
  simp only [Session.start, ClientState.start, e.connected, if_true]
  simp [sentBytes, ServerState.start, Stage.start, Stage.split, hello, TransferCall.helloFrame,
    Outgoing.bareFrame_eq]

theorem hello_after : e.hello.after e = e.helloAck.start := by
  simp [Stage.after, Stage.start, Stage.split, hello, helloAck, ServerState.react,
    ServerState.greet, Outgoing.bare, Outgoing.frame, sentBytes, Outgoing.bareFrame_eq]

theorem requestFrame_eq : e.call.requestFrame = e.requestMessage.wire := rfl

theorem helloAck_after : e.helloAck.after e = e.request.start := by
  have hdest : e.arrived 0 = fun _ => none := funext fun x => if_neg (Nat.not_lt_zero x)
  rw [Stage.after_client rfl (ClientState.react_helloAck _ _ rfl rfl)]
  simp [ClientState.request, Session.clientAnswers, e.requestFrame_eq, sentBytes, Stage.start,
    Stage.split, request, storing, helloAck, hdest, PeerEffect.onFile]

theorem decodeReqPayload_encode (path : List Byte) (h : path.length < 2 ^ 32) :
    decodeReqPayload (encodeReqPayload path) = ({}, path) := by
  have hn : (UInt32.ofNat path.length).toNat = path.length := by
    rw [UInt32.toNat_ofNat']
    exact Nat.mod_eq_of_lt h
  have hget : get32 (encodeReqPayload path) 0 = UInt32.ofNat path.length := by
    rw [encodeReqPayload, get32_append _ (by simp)]
    exact get32_last (show ([] : List Byte).length = 0 from rfl) _
  have hlen := length_reqPayload path
  unfold decodeReqPayload
  rw [hget, hn, if_neg (by omega), if_neg (by omega)]
  congr 1
  rw [encodeReqPayload, List.drop_left' (length_put32 _), List.take_length]

/-- Where the server turns to chunk `i`, the next stage begins. -/
theorem after_advance {g : Stage} {i : Nat} (phase : ServerPhase) (hi : i ≤ e.count)
    (hside : g.receiver = .server) (hclient : g.client = e.storing i)
    (hdest : g.dest = e.arrived (e.sent i))
    (h : { g.server with dec := {} }.react (Session.serverAnswers e (.bytes []))
        (.frame g.message.frame) =
      (e.serving phase i).advance (UInt64.ofNat i) (Session.serverAnswers e (.bytes []))) :
    g.after e = (e.upTo i).start := by
  rw [e.advance_eq hi] at h
  rw [Stage.after_server hside h, hclient, hdest, upTo]
  split
  · simp [sentBytes, Stage.start, Stage.split, sending, storing]
  · rename_i hlast
    have hend : i = e.count := by omega
    simp [sentBytes, Stage.start, Stage.split, committing, storing, hend]

theorem onRequest_eq :
    ServerState.onRequest { phase := .awaitRequest } e.requestMessage.frame
        (Session.serverAnswers e (.bytes [])) =
      (e.serving .awaitRequest 0).advance (UInt64.ofNat 0) (Session.serverAnswers e (.bytes [])) := by
  have hpath := e.path_fits
  have hdecode := decodeReqPayload_encode e.call.srcPath
    (by simp only [Protocol.kMaxPayload] at hpath; omega)
  have hpayload : e.requestMessage.frame.payload = encodeReqPayload e.call.srcPath :=
    Outgoing.payload_loaded _ _ _
  have hopen : (Session.serverAnswers e (.bytes [])).opened e.call.srcPath = true :=
    decide_eq_true rfl
  have hbuild : ChunkPlan.build (ServerState.planInput e.requestMessage.frame.header.offset
      e.requestMessage.frame.header.length) = .ok e.plan := e.build_eq
  have hid : e.requestMessage.frame.header.transferId = e.call.id := rfl
  unfold ServerState.onRequest
  rw [hpayload, hdecode]
  simp only [Error.ok_default, hopen, hbuild, hid, not_true_eq_false, if_false, serving, sent_zero]
  rfl

theorem request_after : e.request.after e = (e.upTo 0).start :=
  e.after_advance .awaitRequest (Nat.zero_le _) rfl rfl (by rw [e.sent_zero]; rfl)
    ((ServerState.react_request _ rfl rfl).trans e.onRequest_eq)

theorem acking_after {i : Nat} (hi : i < e.count) :
    (e.acking i).after e = (e.upTo (i + 1)).start := by
  have hnext : UInt64.ofNat i + 1 = UInt64.ofNat (i + 1) := by
    rw [UInt64.ofNat_add]
    rfl
  refine e.after_advance (.awaitChunkAck (UInt64.ofNat i)) hi rfl rfl rfl ?_
  rw [← hnext]
  exact ServerState.react_ack _ rfl rfl rfl

theorem committing_after : e.committing.after e = e.closing.start := by
  have hwritten : (e.storing e.count).written = e.call.length := by
    rw [storing, e.sent_count, UInt64.ofNat_toNat]
  have hcommit : ClientState.onCommit e.call (e.storing e.count) =
      ((e.storing e.count).finish {}, [.send e.call.commitAckFrame]) := by
    rw [ClientState.onCommit, if_neg (not_not.mpr hwritten)]
  rw [Stage.after_client rfl ((ClientState.react_commit _ _ rfl rfl).trans hcommit)]
  simp [sentBytes, Stage.start, Stage.split, committing, closing, serving, PeerEffect.onFile,
    TransferCall.commitAckFrame, Outgoing.bareFrame_eq]

/-- Everything has been said; only the destination is left to look at. -/
def finished : Session :=
  { client := (e.storing e.count).finish {}
    server := (e.serving .awaitCommitAck e.count).finish {}
    toServer := [], toClient := [], dest := e.arrived (e.sent e.count) }

theorem closing_after : e.closing.after e = e.finished := by
  rw [Stage.after_server rfl (ServerState.react_commitAck _ rfl rfl)]
  rfl

theorem finished_stuck (s : Session) : ¬ Session.Step e e.finished s := by
  intro h
  cases h with
  | clientRecv seg rest hseg hlen hrun => exact hrun {} rfl
  | clientClosed code hempty hclosed hrun => exact hrun {} rfl
  | serverRecv seg rest hseg hlen hrun => exact hrun {} rfl

theorem finished_delivered (h : e.call.offset = 0 ∨ e.call.length = 0) :
    Session.Delivered e e.finished := by
  refine ⟨⟨{}, rfl, rfl⟩, ⟨{}, rfl, rfl⟩, fun x hlo hhi => ?_⟩
  have hzero : e.call.offset.toNat = 0 := by
    rcases h with h | h
    · rw [h]; rfl
    · rw [h] at hhi
      simp only [UInt64.toNat_zero] at hhi
      omega
  have hx : x < e.sent e.count := by
    rw [e.sent_count]
    omega
  exact if_pos hx

/-- A chunk that starts where the ones before it ended extends what has arrived. -/
theorem write_arrived {i : Nat} (hi : i < e.count) :
    PeerEffect.onFile (e.arrived (e.sent i)) (.write (e.sent i) (e.chunkBytes i)) =
      e.arrived (e.sent (i + 1)) := by
  funext x
  have hlen := e.length_chunkBytes hi
  have hsucc := e.sent_succ hi
  simp only [PeerEffect.onFile, arrived, hlen]
  by_cases hnew : e.sent i ≤ x ∧ x < e.sent i + e.plan.chunkLength i
  · rw [if_pos hnew, if_pos (by omega), chunkBytes, List.getElem?_take_of_lt (by omega),
      List.getElem?_drop]
    congr 1
    omega
  · rw [if_neg hnew]
    by_cases hold : x < e.sent i
    · rw [if_pos hold, if_pos (by omega)]
    · rw [if_neg hold, if_neg (by omega)]

theorem sending_after (h0 : e.call.offset = 0) {i : Nat} (hi : i < e.count) :
    (e.sending i).after e = (e.acking i).start := by
  have hsucc := e.sent_succ hi
  have hfile := e.size_lt
  have hle := e.sent_le (i + 1)
  have hadd : UInt64.ofNat (e.sent i) + UInt64.ofNat (e.plan.chunkLength i) =
      UInt64.ofNat (e.sent (i + 1)) := by
    rw [hsucc, UInt64.ofNat_add]
  have hpayload : (e.chunkMessage i).frame.payload = e.chunkBytes i := Outgoing.payload_loaded _ _ _
  have horder : TransferCall.inOrder (e.storing i).expectedChunk (e.chunkMessage i).frame.header =
      true := decide_eq_true rfl
  have hrange : e.call.inRange (e.chunkMessage i).frame.header = true := by
    refine decide_eq_true ?_
    rw [not_or]
    constructor
    · rw [h0]
      exact UInt64.not_lt.mpr (UInt64.zero_le)
    · show ¬ UInt64.ofNat (e.sent i) + UInt64.ofNat (e.plan.chunkLength i) > _
      rw [hadd, h0, UInt64.zero_add, gt_iff_lt, UInt64.lt_iff_toNat_lt,
        toNat_ofNat_lt _ (by omega)]
      exact Nat.not_lt.mpr (Nat.min_le_right _ _)
  have hseek : seekTo (e.chunkMessage i).frame.header.offset (e.sent i) = e.sent i := by
    show seekTo (UInt64.ofNat (e.sent i)) _ = _
    rw [seekTo, setFilePointer, toNat_ofNat_lt _ (by omega), if_pos (by omega)]
  have hchunkId : (e.chunkMessage i).frame.header.chunkId = UInt64.ofNat i := rfl
  have hnext : UInt64.ofNat i + 1 = UInt64.ofNat (i + 1) := by
    rw [UInt64.ofNat_add]
    rfl
  have hstore : ClientState.onChunk e.call (e.storing i) (e.chunkMessage i).frame
      (Session.clientAnswers (.bytes [])) =
      (e.storing (i + 1),
        [.write (e.sent i) (e.chunkBytes i), .send (e.call.chunkAckFrame (UInt64.ofNat i))]) := by
    rw [ClientState.onChunk, if_neg (not_not.mpr horder), if_neg (not_not.mpr hrange),
      ClientState.store]
    have htake : (e.chunkBytes i).take (e.plan.chunkLength i) = e.chunkBytes i :=
      List.take_of_length_le (Nat.le_of_eq (e.length_chunkBytes hi))
    simp only [storing, Session.clientAnswers, hseek, hpayload, hchunkId, hadd, hnext,
      e.length_chunkBytes hi, htake, ← hsucc]
    simp
  rw [Stage.after_client rfl ((ClientState.react_chunk _ _ rfl rfl).trans hstore)]
  have hdest := e.write_arrived hi
  simp only [List.foldl_cons, List.foldl_nil, PeerEffect.onFile] at hdest ⊢
  simp only [show (e.sending i).dest = e.arrived (e.sent i) from rfl, hdest]
  simp [sentBytes, Stage.start, Stage.split, sending, acking, serving, TransferCall.chunkAckFrame,
    Outgoing.bareFrame_eq]

/-- The client's answer to a first chunk that does not begin the requested region. -/
def outside : Error :=
  { category := .invalidRequest, message := "chunk outside requested range" }

/-- The client has given up and the server waits for an acknowledgement. -/
def refused : Session :=
  { client := (e.storing 0).finish outside
    server := e.serving (.awaitChunkAck (UInt64.ofNat 0)) 1
    toServer := [], toClient := [], dest := e.arrived 0 }

theorem sending_refused (h0 : e.call.offset ≠ 0) : (e.sending 0).after e = e.refused := by
  have horder : TransferCall.inOrder (e.storing 0).expectedChunk (e.chunkMessage 0).frame.header =
      true := decide_eq_true rfl
  have hrange : e.call.inRange (e.chunkMessage 0).frame.header = false := by
    refine decide_eq_false (not_not.mpr (.inl ?_))
    show UInt64.ofNat (e.sent 0) < e.call.offset
    rw [e.sent_zero, UInt64.lt_iff_toNat_lt]
    exact Nat.pos_of_ne_zero ((toNat_ne_zero _).mpr h0)
  have hchunk : ClientState.onChunk e.call (e.storing 0) (e.chunkMessage 0).frame
      (Session.clientAnswers (.bytes [])) = ((e.storing 0).finish outside, []) := by
    rw [ClientState.onChunk, if_neg (not_not.mpr horder), if_pos (by rw [hrange]; exact fun h => by cases h)]
    rfl
  rw [Stage.after_client rfl ((ClientState.react_chunk _ _ rfl rfl).trans hchunk)]
  simp [sentBytes, sending, refused]

theorem refused_stuck (s : Session) : ¬ Session.Step e e.refused s := by
  intro h
  cases h with
  | clientRecv seg rest hseg hlen hrun => exact hrun outside rfl
  | clientClosed code hempty hclosed hrun => exact hrun outside rfl
  | serverRecv seg rest hseg hlen hrun =>
      have hnil : seg = [] := (List.append_eq_nil_iff.mp (Eq.symm hseg)).1
      rw [hnil] at hlen
      exact absurd hlen.1 (by simp)

theorem reaches_refused (h0 : e.call.offset ≠ 0) (hlen : e.call.length ≠ 0) :
    ReflTransGen (Session.Step e) (Session.start e) e.refused := by
  have hcount : 0 < e.count := (e.covers hlen).count_pos
  rw [e.start_eq]
  have hgreet := Stage.reaches_after (e := e) (g := e.hello) (fun _ h => by cases h)
  have hack := Stage.reaches_after (e := e) (g := e.helloAck) (fun _ h => by cases h)
  have hreq := Stage.reaches_after (e := e) (g := e.request) (fun _ h => by cases h)
  have hsend := Stage.reaches_after (e := e) (g := e.sending 0) (fun _ h => by cases h)
  rw [e.hello_after] at hgreet
  rw [e.helloAck_after] at hack
  rw [e.request_after, upTo, if_pos hcount] at hreq
  rw [e.sending_refused h0] at hsend
  exact ((hgreet.trans hack).trans hreq).trans hsend

theorem not_delivered_refused : ¬ Session.Delivered e e.refused := by
  rintro ⟨⟨r, hr, hok⟩, -, -⟩
  cases hr
  cases hok

section Success

variable (h : e.call.offset = 0 ∨ e.call.length = 0)
include h

/-- From chunk `i` on every run ends well: the induction is on the chunks left. -/
theorem inevitable_upTo {i : Nat} (hi : i ≤ e.count) :
    Inevitable (Session.Step e) (Session.Delivered e) (e.upTo i).start := by
  induction hn : e.count - i generalizing i with
  | zero =>
      have hlast : ¬ i < e.count := by omega
      have hfinished : Inevitable (Session.Step e) (Session.Delivered e) e.finished :=
        .stop e.finished_stuck (e.finished_delivered h)
      rw [upTo, if_neg hlast]
      refine Stage.inevitable_start (g := e.committing) (fun _ h => by cases h) ?_
      rw [e.committing_after]
      refine Stage.inevitable_start (g := e.closing) (fun _ h => by cases h) ?_
      rw [e.closing_after]
      exact hfinished
  | succ n ih =>
      have hmore : i < e.count := by omega
      have h0 : e.call.offset = 0 := h.resolve_right (e.length_ne_zero hmore)
      rw [upTo, if_pos hmore]
      refine Stage.inevitable_start (g := e.sending i) (fun _ h => by cases h) ?_
      rw [e.sending_after h0 hmore]
      refine Stage.inevitable_start (g := e.acking i) (fun _ h => by cases h) ?_
      rw [e.acking_after hmore]
      exact ih (by omega) (by omega)

theorem inevitable_start : Inevitable (Session.Step e) (Session.Delivered e) (Session.start e) := by
  rw [e.start_eq]
  refine Stage.inevitable_start (g := e.hello) (fun _ h => by cases h) ?_
  rw [e.hello_after]
  refine Stage.inevitable_start (g := e.helloAck) (fun _ h => by cases h) ?_
  rw [e.helloAck_after]
  refine Stage.inevitable_start (g := e.request) (fun _ h => by cases h) ?_
  rw [e.request_after]
  exact e.inevitable_upTo h (Nat.zero_le _)

end Success

theorem region_delivered_iff :
    Inevitable (Session.Step e) (Session.Delivered e) (Session.start e) ↔
      e.call.offset = 0 ∨ e.call.length = 0 := by
  constructor
  · intro h
    by_contra hno
    rw [not_or] at hno
    exact e.not_delivered_refused
      (h.of_stuck (e.reaches_refused hno.1 hno.2) e.refused_stuck)
  · exact e.inevitable_start

end Exchange

/-- The second byte of a file of two. -/
def secondByte : Exchange where
  call := { srcPath := [97], offset := 1, length := 1, dstPath := [98], id := { hi := 1, lo := 2 } }
  file := [7, 8]
  previous := fun _ => none
  connected := rfl
  size_lt := by decide
  within := by decide
  path_fits := by decide

/-- The first byte of the same file. -/
def firstByte : Exchange :=
  { secondByte with call := { secondByte.call with offset := 0 }, within := by decide }

theorem first_byte_delivered :
    Inevitable (Session.Step firstByte) (Session.Delivered firstByte) (Session.start firstByte) :=
  firstByte.region_delivered_iff.mpr (.inl rfl)

theorem second_byte_refused :
    ∃ s, ReflTransGen (Session.Step secondByte) (Session.start secondByte) s ∧
      (∀ t, ¬ Session.Step secondByte s t) ∧
      s.client.phase = .returned
        { category := .invalidRequest, message := "chunk outside requested range" } ∧
      ¬ Session.Delivered secondByte s :=
  ⟨secondByte.refused, secondByte.reaches_refused (by decide) (by decide),
    secondByte.refused_stuck, rfl, secondByte.not_delivered_refused⟩

end TransferFabric
