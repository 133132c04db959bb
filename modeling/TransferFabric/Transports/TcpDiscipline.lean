import TransferFabric.Transports.TcpClient
import TransferFabric.Transports.TcpSession

/-!
What each side's messages say to the other. A `commit_ack` of the client should
mean that it accepts the commit, and each chunk of the server after the first that
the one before it was acknowledged. Neither holds against an arbitrary peer: the
client acknowledges before it looks at its byte count, and the server takes any
`chunk_ack` for the one it waits for. The server's waiting loops also differ in
what they make of bytes that cannot be decoded.
-/

namespace TransferFabric

/-- The frame a receiver would find at the head of what is sent. -/
def PeerEffect.frame : PeerEffect → Option DecodedFrame
  | .send data =>
      match FrameDecoder.scan data with
      | .frame f _ => some f
      | _ => none
  | _ => none

def framesOf (effects : List PeerEffect) : List DecodedFrame := effects.filterMap PeerEffect.frame

theorem frame_wire (m : Outgoing) : (PeerEffect.send m.wire).frame = some m.frame := by
  have hscan := m.scan_wire []
  rw [List.append_nil] at hscan
  simp only [PeerEffect.frame, hscan]

theorem framesOf_wire (m : Outgoing) : framesOf [.send m.wire] = [m.frame] := by
  simp only [framesOf, List.filterMap_cons, frame_wire, List.filterMap_nil]

/-! The client. -/

namespace TransferCall

variable (c : TransferCall)

/-- A request whose path is too long for a frame is sent as nothing. -/
theorem frame_request {f : DecodedFrame} (h : (PeerEffect.send c.requestFrame).frame = some f) :
    f.header.type = FrameType.transferReq.code := by
  by_cases hfits : (encodeReqPayload c.srcPath).length ≤ Protocol.kMaxPayload
  · have hwire : c.requestFrame = (Outgoing.loaded { type := FrameType.transferReq.code
                                                     transferId := c.id, offset := c.offset
                                                     length := c.length }
        (encodeReqPayload c.srcPath) hfits).wire := rfl
    rw [hwire, frame_wire] at h
    rw [← Option.some.inj h]
    rfl
  · have hnone : c.requestFrame = [] := by
      simp only [requestFrame, FrameEncoder.encode, gt_iff_lt, Nat.lt_of_not_le hfits, if_true]
    rw [hnone] at h
    cases h

theorem frame_chunkAck (k : UInt64) :
    (PeerEffect.send (c.chunkAckFrame k)).frame =
      some (Outgoing.bare { type := FrameType.chunkAck.code, transferId := c.id
                            chunkId := k }).frame := by
  rw [chunkAckFrame, Outgoing.bareFrame_eq, frame_wire]

theorem frame_commitAck :
    (PeerEffect.send c.commitAckFrame).frame =
      some (Outgoing.bare { type := FrameType.commitAck.code, transferId := c.id }).frame := by
  rw [commitAckFrame, Outgoing.bareFrame_eq, frame_wire]

end TransferCall

/-- No commit is acknowledged by what is sent. -/
def Unacknowledged (effects : List PeerEffect) : Prop :=
  ∀ f ∈ framesOf effects, f.header.type ≠ FrameType.commitAck.code

theorem unacknowledged_cons {x : PeerEffect} {effects : List PeerEffect}
    (hx : ∀ f, x.frame = some f → f.header.type ≠ FrameType.commitAck.code)
    (h : Unacknowledged effects) : Unacknowledged (x :: effects) := by
  intro f hf
  obtain ⟨y, hy, hframe⟩ := List.mem_filterMap.mp hf
  rcases List.mem_cons.mp hy with rfl | hy
  · exact hx f hframe
  · exact h f (List.mem_filterMap.mpr ⟨y, hy, hframe⟩)

namespace ClientState

variable (c : TransferCall) (st : ClientState) (a : ClientAnswers)

theorem unacknowledged_request : Unacknowledged (st.request c a).2 := by
  have hreq : ∀ f, (PeerEffect.send c.requestFrame).frame = some f →
      f.header.type ≠ FrameType.commitAck.code := by
    intro f hf
    rw [c.frame_request hf]
    decide
  unfold request
  split
  · exact fun _ h => by cases h
  · split
    · exact unacknowledged_cons hreq (unacknowledged_cons (fun _ h => by cases h) (fun _ h => by cases h))
    · exact unacknowledged_cons hreq (fun _ h => by cases h)

theorem unacknowledged_handshake (got : Pulled) : Unacknowledged (st.handshake c a got).2 := by
  cases got with
  | broken code | rejected e | nothing => exact fun _ h => by cases h
  | frame f =>
      simp only [handshake]
      split
      · exact unacknowledged_request c st a
      · exact fun _ h => by cases h

theorem unacknowledged_chunk (f : DecodedFrame) : Unacknowledged (st.onChunk c f a).2 := by
  have hack : ∀ g, (PeerEffect.send (c.chunkAckFrame f.header.chunkId)).frame = some g →
      g.header.type ≠ FrameType.commitAck.code := by
    intro g hg
    rw [c.frame_chunkAck] at hg
    rw [← Option.some.inj hg]
    show FrameType.chunkAck.code ≠ _
    decide
  unfold onChunk
  split
  · exact fun _ h => by cases h
  split
  · exact fun _ h => by cases h
  unfold store
  dsimp only
  split
  · exact unacknowledged_cons (fun _ h => by cases h) (fun _ h => by cases h)
  · exact unacknowledged_cons (fun _ h => by cases h) (unacknowledged_cons hack (fun _ h => by cases h))

/-- Only a commit is answered by a `commit_ack`. -/
theorem unacknowledged_receive {got : Pulled}
    (h : ∀ f, got = .frame f → f.header.type ≠ FrameType.commit.code) :
    Unacknowledged (st.receive c a got).2 := by
  cases got with
  | broken code | rejected e | nothing => exact fun _ h => by cases h
  | frame f =>
      simp only [receive, onFrame, if_neg (h f rfl)]
      split
      · exact unacknowledged_chunk c st a f
      · split
        · exact fun _ h => by cases h
        · exact fun _ h => by cases h

end ClientState

namespace ClientTurn

variable (c : TransferCall) (t : ClientTurn)

/-- The frames the client sends in this turn. -/
def sent : List DecodedFrame := framesOf (t.before.step c t.answers).2

def Acknowledges : Prop := ∃ f ∈ t.sent c, f.header.type = FrameType.commitAck.code

theorem not_acknowledges (h : Unacknowledged (t.before.step c t.answers).2) :
    ¬ t.Acknowledges c := by
  rintro ⟨f, hf, htype⟩
  exact h f hf htype

/-- A `commit_ack` is sent in the turn that receives a commit, and in no other. -/
theorem acknowledges_iff : t.Acknowledges c ↔ t.committed ≠ none := by
  cases hp : t.before.phase with
  | returned r =>
      have hpull : t.committed = none := by simp only [committed, pulled, hp, Option.filter_none]
      refine iff_of_false (t.not_acknowledges c ?_) (not_not.mpr hpull)
      rw [ClientState.step_returned c t.before t.answers hp]
      exact fun _ h => by cases h
  | awaitHelloAck =>
      have hpull : t.committed = none := by simp only [committed, pulled, hp, Option.filter_none]
      refine iff_of_false (t.not_acknowledges c ?_) (not_not.mpr hpull)
      rw [ClientState.step_handshake c t.before t.answers hp]
      exact ClientState.unacknowledged_handshake c _ _ _
  | receiving =>
      have hstep := ClientState.step_receiving c t.before t.answers hp
      by_cases hcommit : ∃ f, (pull t.before.dec t.answers.recv).1 = .frame f ∧
          f.header.type = FrameType.commit.code
      · obtain ⟨f, hgot, htype⟩ := hcommit
        have hpull : t.committed = some f := by
          simp only [committed, pulled, hp, hgot, Option.filter_some, htype, decide_true, if_true]
        refine iff_of_true ⟨(Outgoing.bare { type := FrameType.commitAck.code
                                             transferId := c.id }).frame, ?_, rfl⟩
          (by rw [hpull]; exact fun h => by cases h)
        have hne : ¬ FrameType.commit.code = FrameType.chunk.code := by decide
        rw [sent, hstep, hgot, ClientState.receive, ClientState.onFrame, htype, if_neg hne,
          if_pos rfl]
        exact List.mem_filterMap.mpr ⟨_, List.mem_singleton_self _, c.frame_commitAck⟩
      · have hno : ∀ f, (pull t.before.dec t.answers.recv).1 = .frame f →
            f.header.type ≠ FrameType.commit.code :=
          fun f hgot htype => hcommit ⟨f, hgot, htype⟩
        have hpull : t.committed = none := by
          rw [committed, Option.filter_eq_none_iff]
          intro f hf
          simp only [pulled, hp] at hf
          split at hf
          · rename_i g hgot
            cases hf
            simpa using hno f (by assumption)
          · cases hf
        refine iff_of_false (t.not_acknowledges c ?_) (not_not.mpr hpull)
        rw [hstep]
        exact ClientState.unacknowledged_receive c _ _ hno

end ClientTurn

/-- A transfer takes at most one commit: that turn returns. -/
theorem ClientState.committed_unique {c : TransferCall} {answers : List ClientAnswers}
    {st : ClientState} {t u : ClientTurn} (ht : t ∈ st.turns c answers)
    (hu : u ∈ st.turns c answers) (htc : t.committed ≠ none) (huc : u.committed ≠ none) :
    t = u := by
  induction answers generalizing st with
  | nil => cases ht
  | cons a answers ih =>
      simp only [turns] at ht hu
      have hkind := ClientTurn.kind c { before := st, answers := a }
      generalize ({ before := st, answers := a } : ClientTurn) = head at ht hu hkind
      have hlast : head.committed ≠ none → ∀ v ∈ (head.next c).turns c answers,
          v.committed = none := by
        intro hc v hv
        cases hkind with
        | commit f ha hf hb hw hr hs =>
            obtain ⟨r, hr⟩ := hr
            exact ((turns_returned answers hr).1 v hv).2
        | quiet ha hf | stored f ha hf | torn f ha hf => exact absurd hf hc
      rcases List.mem_cons.mp ht with rfl | ht
      · rcases List.mem_cons.mp hu with rfl | hu
        · rfl
        · exact absurd (hlast htc u hu) huc
      · rcases List.mem_cons.mp hu with rfl | hu
        · exact absurd (hlast huc t ht) htc
        · exact ih ht hu

theorem TransferCall.commitAck_success_iff (c : TransferCall) (answers : List ClientAnswers) :
    ((∃ t ∈ c.turns answers, t.Acknowledges c) → c.Succeeds answers) ↔
      ∀ t ∈ c.turns answers, t.committed ≠ none → t.before.written = c.length := by
  have hsucc : c.Succeeds answers ↔
      ∃ t ∈ c.turns answers, t.committed ≠ none ∧ t.before.written = c.length :=
    ClientState.outcome_succeeded_iff (not_succeeded_start c)
  rw [hsucc]
  constructor
  · intro h t ht hc
    obtain ⟨u, hu, huc, hlen⟩ := h ⟨t, ht, (t.acknowledges_iff c).mpr hc⟩
    rwa [ClientState.committed_unique ht hu hc huc]
  · rintro h ⟨t, ht, hack⟩
    have hc := (t.acknowledges_iff c).mp hack
    exact ⟨t, ht, hc, h t ht hc⟩

/-- The commit comes before any chunk. -/
def commitAtOnce : List ClientAnswers :=
  [heard { type := FrameType.helloAck.code } [], heard { type := FrameType.commit.code } []]

theorem commitAtOnce_acknowledged :
    (∃ t ∈ twoBytes.turns commitAtOnce, t.Acknowledges twoBytes) ∧
      ¬ twoBytes.Succeeds commitAtOnce := by
  constructor
  · obtain ⟨t, ht, hc⟩ : ∃ t ∈ twoBytes.turns commitAtOnce, t.committed ≠ none := by
      decide +kernel
    exact ⟨t, ht, (t.acknowledges_iff twoBytes).mpr hc⟩
  · unfold TransferCall.Succeeds
    decide +kernel

/-! The server. -/

structure ServerTurn where
  before : ServerState
  answers : ServerAnswers

namespace ServerTurn

variable (t : ServerTurn)

/-- What the `recv` and the `feed` of this turn gave; a server that has returned makes neither. -/
def got : Option Pulled :=
  match t.before.phase with
  | .returned _ => none
  | _ => some (pull t.before.dec t.answers.recv).1

def received : Option DecodedFrame :=
  match t.got with
  | some (.frame f) => some f
  | _ => none

/-- The frame that opens the transfer. -/
def requested : Option DecodedFrame :=
  if t.before.phase = .awaitRequest then
    t.received.filter fun f => f.header.type = FrameType.transferReq.code
  else none

def next : ServerState := (t.before.step t.answers).1

def sent : List DecodedFrame := framesOf (t.before.step t.answers).2

end ServerTurn

def ServerState.turns : ServerState → List ServerAnswers → List ServerTurn
  | _, [] => []
  | st, a :: answers =>
      let t : ServerTurn := { before := st, answers := a }
      t :: t.next.turns answers

/-- Some `chunk_ack` so far carries the id of the requested transfer and the index `i`. -/
def Acked (past : List ServerTurn) (i : UInt64) : Prop :=
  ∃ req, (past.filterMap ServerTurn.requested).head? = some req ∧
    ∃ f ∈ past.filterMap ServerTurn.received, f.header.type = FrameType.chunkAck.code ∧
      f.header.transferId = req.header.transferId ∧ f.header.chunkId = i

/-- A turn after `past`, with `later` to come: what it sends was acknowledged for, and
bytes that cannot be decoded end the session with an error. -/
structure ServerTurn.Disciplined (past : List ServerTurn) (t : ServerTurn)
    (later : List ServerTurn) : Prop where
  chunk : ∀ f ∈ t.sent, f.header.type = FrameType.chunk.code →
    ∀ i : UInt64, i.toNat + 1 = f.header.chunkId.toNat → Acked (past ++ [t]) i
  commit : ∀ f ∈ t.sent, f.header.type = FrameType.commit.code →
    ∀ i : UInt64, i.toNat + 1 = t.next.plan.chunkCount.toNat → Acked (past ++ [t]) i
  rejected : ∀ e, t.got = some (.rejected e) →
    (∃ r, t.next.phase = .returned r ∧ r.ok = false) ∧ t.sent = [] ∧
      ∀ u ∈ later, u.got = none ∧ u.sent = []

/-- The loop head for chunk `j` gets to its end: the chunk is read in full, fits a frame
and is sent. The commit after the last chunk needs nothing. -/
def ServerState.Proceeds (st : ServerState) (j : ByteCount) (a : ServerAnswers) : Prop :=
  j < st.plan.chunkCount →
    let c := (st.plan.chunkAt j {}).2
    let answer := a.read (seekTo c.sourceOffset st.position) c.length.toNat
    answer.1 = true ∧ UInt64.ofNat answer.2.length = c.length ∧
      answer.2.length ≤ Protocol.kMaxPayload ∧ a.sent = true

/-- What the two waiting loops leave to the client. -/
structure ServerTurn.Orderly (past : List ServerTurn) (t : ServerTurn) : Prop where
  acked : ∀ i, t.before.phase = .awaitChunkAck i → t.before.ok = true →
    ∀ f, t.received = some f → f.header.type = FrameType.chunkAck.code →
      t.before.Proceeds (i + 1) t.answers → Acked (past ++ [t]) i
  decodes : (∃ i, t.before.phase = .awaitChunkAck i) ∨ t.before.phase = .awaitCommitAck →
    ∀ e, t.got ≠ some (.rejected e)

theorem ChunkPlan.chunkAt_index {p : ChunkPlan} {i : ByteCount} (h : i < p.chunkCount)
    (out : Chunk) : (p.chunkAt i out).2.index = i := by
  unfold chunkAt
  rw [if_neg (UInt64.not_le.mpr h)]
  split <;> rfl

def commitMessage (tid : TransferId) : Outgoing :=
  .bare { type := FrameType.commit.code, transferId := tid }

/-- Everything the loop head for chunk `i` can do: send the chunk, send the commit after
the last one, or give up. -/
inductive ServerState.Advanced (st : ServerState) (i : ByteCount) (a : ServerAnswers)
    (out : ServerState × List PeerEffect) : Prop where
  | chunk (m : Outgoing) (position : Nat) (hgo : st.Proceeds i a) (hi : i < st.plan.chunkCount)
      (htype : m.header.type = FrameType.chunk.code) (hid : m.header.chunkId = i)
      (hlen : m.payload.length = (st.plan.chunkAt i {}).2.length.toNat)
      (hout : out = ({ st with phase := .awaitChunkAck i, position := position }, [.send m.wire]))
  | commit (hgo : st.Proceeds i a) (hi : ¬ i < st.plan.chunkCount)
      (hout : out = ({ st with phase := .awaitCommitAck }, [.send (commitMessage st.tid).wire]))
  | gaveUp (position : Nat) (hstop : ¬ st.Proceeds i a)
      (hout : out = ({ st with phase := .returned ServerState.aborted, position := position }, []))

/-- The frame the loop head for chunk `i` sends. -/
def Announces (plan : ChunkPlan) (i : ByteCount) (f : DecodedFrame) : Prop :=
  (i < plan.chunkCount ∧ f.header.type = FrameType.chunk.code ∧ f.header.chunkId = i) ∨
    ¬ i < plan.chunkCount ∧ f.header.type = FrameType.commit.code

namespace ServerState

variable (st : ServerState) (i : ByteCount) (a : ServerAnswers)

theorem advanced : st.Advanced i a (st.advance i a) := by
  by_cases hi : i < st.plan.chunkCount
  · -- the answer to the read is named before the branches are looked at
    obtain ⟨c, hc⟩ : ∃ c, (st.plan.chunkAt i {}).2 = c := ⟨_, rfl⟩
    have hindex : c.index = i := hc ▸ ChunkPlan.chunkAt_index hi {}
    rcases hanswer : a.read (seekTo c.sourceOffset st.position) c.length.toNat with ⟨success, data⟩
    have hgo : st.Proceeds i a ↔ success = true ∧ UInt64.ofNat data.length = c.length ∧
        data.length ≤ Protocol.kMaxPayload ∧ a.sent = true := by
      simp only [Proceeds, hi, true_implies, hc, hanswer]
    unfold advance
    rw [if_pos hi]
    simp only [hc, hanswer]
    by_cases hread : ¬ success = true ∨ UInt64.ofNat data.length ≠ c.length
    · rw [if_pos hread]
      refine .gaveUp st.position (fun h => ?_) rfl
      exact hread.elim (· (hgo.mp h).1) (· (hgo.mp h).2.1)
    rw [if_neg hread]
    rw [not_or, not_not, not_not] at hread
    by_cases hfits : data.length ≤ Protocol.kMaxPayload
    · let m : Outgoing := .loaded
        { type := FrameType.chunk.code, transferId := st.tid, chunkId := c.index
          offset := c.sourceOffset, length := c.length } data hfits
      have hmsg : chunkFrame st.tid c data = ({}, m.wire) := by
        rw [Outgoing.wire_eq]
        exact m.encode_eq []
      rw [hmsg]
      simp only [Error.ok_default, not_true_eq_false, if_false]
      by_cases hsent : a.sent = true
      · rw [if_neg (not_not.mpr hsent)]
        refine .chunk m _ (hgo.mpr ⟨hread.1, hread.2, hfits, hsent⟩) hi rfl hindex ?_ rfl
        rw [Outgoing.payload_loaded, hc, ← hread.2]
        exact (toNat_ofNat_lt _ (Nat.lt_of_le_of_lt hfits (by decide))).symm
      · rw [if_pos hsent]
        exact .gaveUp _ (fun h => hsent (hgo.mp h).2.2.2) rfl
    · have hbig : (chunkFrame st.tid c data).1.ok = false := by
        simp only [chunkFrame, FrameEncoder.encode, gt_iff_lt, Nat.lt_of_not_le hfits, if_true]
        rfl
      generalize chunkFrame st.tid c data = out at hbig
      rw [if_pos (by rw [hbig]; exact Bool.false_ne_true)]
      exact .gaveUp _ (fun h => hfits (hgo.mp h).2.2.1) rfl
  · exact .commit (fun h => absurd h hi) hi (if_neg hi)

/-- The loop head sends one frame if it gets to its end, and otherwise none. -/
theorem advance_cases :
    (st.Proceeds i a ∧ (∃ f, framesOf (st.advance i a).2 = [f] ∧ Announces st.plan i f) ∧
      (st.advance i a).1.plan = st.plan) ∨
    ¬ st.Proceeds i a ∧ framesOf (st.advance i a).2 = [] := by
  cases st.advanced i a with
  | chunk m position hgo hi htype hid hlen hout =>
      rw [hout]
      exact .inl ⟨hgo, ⟨m.frame, framesOf_wire m, .inl ⟨hi, htype, hid⟩⟩, rfl⟩
  | commit hgo hi hout =>
      rw [hout]
      exact .inl ⟨hgo, ⟨_, framesOf_wire _, .inr ⟨hi, rfl⟩⟩, rfl⟩
  | gaveUp position hstop hout =>
      rw [hout]
      exact .inr ⟨hstop, rfl⟩

theorem onRequest_cases (f : DecodedFrame) :
    framesOf (st.onRequest f a).2 = [] ∨
      ∃ g, framesOf (st.onRequest f a).2 = [g] ∧ Announces (st.onRequest f a).1.plan 0 g := by
  unfold onRequest
  dsimp only
  split
  · exact .inl rfl
  split
  · exact .inl rfl
  split
  · exact .inl rfl
  · rename_i plan hplan
    rcases advance_cases { st with tid := f.header.transferId, plan := plan, position := 0 } 0 a with
      ⟨-, ⟨g, hg, hann⟩, hkeep⟩ | ⟨-, hnone⟩
    · exact .inr ⟨g, hg, by rw [hkeep]; exact hann⟩
    · exact .inl hnone

end ServerState

namespace ServerTurn

variable {t : ServerTurn} {i : ByteCount} {f : DecodedFrame}

theorem got_running (h : ∀ r, t.before.phase ≠ .returned r) :
    t.got = some (pull t.before.dec t.answers.recv).1 := by
  unfold got
  split
  · rename_i r hr
    exact absurd hr (h r)
  · rfl

theorem got_returned {r : Error} (h : t.before.phase = .returned r) : t.got = none := by
  simp only [got, h]

theorem got_of_received (h : t.received = some f) : t.got = some (.frame f) := by
  unfold received at h
  split at h
  · rename_i g hg
    rw [hg, Option.some.inj h]
  · cases h

theorem step_of_got {got : Pulled} (h : t.got = some got) :
    t.before.step t.answers =
      { t.before with dec := (pull t.before.dec t.answers.recv).2 }.react t.answers got := by
  have hrun : ∀ r, t.before.phase ≠ .returned r := by
    intro r hr
    rw [got_returned hr] at h
    cases h
  have hpull := got_running hrun
  rw [h] at hpull
  exact ServerState.step_running t.before hrun (Prod.ext (Option.some.inj hpull).symm rfl)

/-- The wait for chunk `i` ends in the loop head for the next one. -/
theorem step_ack (hp : t.before.phase = .awaitChunkAck i) (hok : t.before.ok = true)
    (hf : t.received = some f) (htype : f.header.type = FrameType.chunkAck.code) :
    t.before.step t.answers =
      { t.before with dec := (pull t.before.dec t.answers.recv).2 }.advance (i + 1) t.answers :=
  (step_of_got (got_of_received hf)).trans (ServerState.react_ack _ hp hok htype)

/-- Only a frame is answered. -/
theorem sent_eq_nil (h : t.received = none) : t.sent = [] := by
  have hnone : ∀ got, t.got = some got → (∀ f, got ≠ .frame f) → t.sent = [] := by
    intro got hgot hno
    rw [sent, step_of_got hgot, ServerState.react]
    dsimp only
    cases got with
    | frame f => exact absurd rfl (hno f)
    | broken code | rejected e | nothing => split <;> rfl
  cases hp : t.got with
  | none =>
      cases hphase : t.before.phase with
      | returned r => rw [sent, ServerState.step, hphase]; rfl
      | awaitHello | awaitRequest | awaitChunkAck i | awaitCommitAck =>
          rw [got_running (by rw [hphase]; exact fun _ h => by cases h)] at hp
          cases hp
  | some got =>
      refine hnone got hp fun f hf => ?_
      rw [received, hp, hf] at h
      cases h

end ServerTurn

/-- The three places a frame is sent from. -/
theorem ServerState.react_sent {st : ServerState} {a : ServerAnswers} {f g : DecodedFrame}
    (hf : f ∈ framesOf (st.react a (.frame g)).2) :
    (st.phase = .awaitHello ∧ f.header.type = FrameType.helloAck.code) ∨
    (st.phase = .awaitRequest ∧ Announces (st.react a (.frame g)).1.plan 0 f) ∨
    ∃ j, st.phase = .awaitChunkAck j ∧ st.ok = true ∧ g.header.type = FrameType.chunkAck.code ∧
      st.Proceeds (j + 1) a ∧ Announces st.plan (j + 1) f ∧
      (st.react a (.frame g)).1.plan = st.plan := by
  cases hp : st.phase with
  | returned r =>
      simp only [react, hp] at hf
      cases hf
  | awaitHello =>
      simp only [react, hp, greet] at hf
      split at hf
      · rw [Outgoing.bareFrame_eq, framesOf_wire, List.mem_singleton] at hf
        exact .inl ⟨rfl, hf ▸ rfl⟩
      · cases hf
  | awaitRequest =>
      have hreact : st.react a (.frame g) =
          if g.header.type = FrameType.transferReq.code then st.onRequest g a else (st, []) := by
        simp only [react, hp, ServerState.awaitRequest]
      rw [hreact] at hf ⊢
      split at hf
      · rename_i htype
        rw [if_pos htype]
        rcases st.onRequest_cases a g with hnone | ⟨h, hh, hann⟩
        · rw [hnone] at hf
          cases hf
        · rw [hh, List.mem_singleton] at hf
          exact .inr (.inl ⟨rfl, hf ▸ hann⟩)
      · cases hf
  | awaitChunkAck j =>
      by_cases hgo : st.ok = true ∧ g.header.type = FrameType.chunkAck.code
      · have hreact := react_ack a hp hgo.1 hgo.2
        rw [hreact] at hf ⊢
        rcases st.advance_cases (j + 1) a with ⟨hproceeds, ⟨h, hh, hann⟩, hkeep⟩ | ⟨-, hnone⟩
        · rw [hh, List.mem_singleton] at hf
          exact .inr (.inr ⟨j, rfl, hgo.1, hgo.2, hproceeds, hf ▸ hann, hkeep⟩)
        · rw [hnone] at hf
          cases hf
      · simp only [react, hp, awaitAck] at hf
        split at hf
        · rename_i htype
          rw [if_neg fun hok => hgo ⟨hok, htype⟩] at hf
          cases hf
        · split at hf <;> cases hf
  | awaitCommitAck =>
      simp only [react, hp, awaitCommit] at hf
      split at hf <;> cases hf

namespace ServerTurn

variable {t : ServerTurn} {i : ByteCount} {f : DecodedFrame}

theorem sent_cases (hf : f ∈ t.sent) :
    (t.before.phase = .awaitHello ∧ f.header.type = FrameType.helloAck.code) ∨
    (t.before.phase = .awaitRequest ∧ Announces t.next.plan 0 f) ∨
    ∃ j g, t.before.phase = .awaitChunkAck j ∧ t.before.ok = true ∧ t.received = some g ∧
      g.header.type = FrameType.chunkAck.code ∧ t.before.Proceeds (j + 1) t.answers ∧
      Announces t.before.plan (j + 1) f ∧ t.next.plan = t.before.plan := by
  cases hrecv : t.received with
  | none =>
      rw [sent_eq_nil hrecv] at hf
      cases hf
  | some g =>
      have hstep := step_of_got (got_of_received hrecv)
      rw [sent, hstep] at hf
      rw [next, hstep]
      rcases ServerState.react_sent hf with h | h | ⟨j, hp, hok, htype, hproceeds, hann, hkeep⟩
      · exact .inl h
      · exact .inr (.inl h)
      · exact .inr (.inr ⟨j, g, hp, hok, rfl, htype, hproceeds, hann, hkeep⟩)

end ServerTurn

/-- The chunk that is waited for is one of the plan's. -/
def ServerState.Counted (st : ServerState) : Prop :=
  ∀ i, st.phase = .awaitChunkAck i → i < st.plan.chunkCount

namespace ServerState

variable {st : ServerState}

theorem counted_of_phase (h : ∀ i, st.phase ≠ .awaitChunkAck i) : st.Counted :=
  fun i hi => absurd hi (h i)

theorem counted_advance (i : ByteCount) (a : ServerAnswers) : (st.advance i a).1.Counted := by
  cases st.advanced i a with
  | chunk m position hgo hi htype hid hlen hout =>
      rw [hout]
      intro j hj
      cases hj
      exact hi
  | commit hgo hi hout | gaveUp position hstop hout =>
      rw [hout]
      exact counted_of_phase (fun _ h => by cases h)

theorem counted_onRequest (f : DecodedFrame) (a : ServerAnswers) :
    (st.onRequest f a).1.Counted := by
  unfold onRequest
  dsimp only
  split
  · exact counted_of_phase (fun _ h => by cases h)
  split
  · exact counted_of_phase (fun _ h => by cases h)
  split
  · exact counted_of_phase (fun _ h => by cases h)
  · exact counted_advance 0 a

theorem counted_awaitAck (h : st.Counted) (i : ByteCount) (a : ServerAnswers) (got : Pulled) :
    (st.awaitAck i a got).1.Counted := by
  cases got with
  | broken code => exact counted_of_phase (fun _ h => by cases h)
  | rejected e | nothing => exact h
  | frame f =>
      simp only [awaitAck]
      split
      · split
        · exact counted_advance (i + 1) a
        · exact counted_of_phase (fun _ h => by cases h)
      · split
        · exact counted_of_phase (fun _ h => by cases h)
        · exact h

theorem counted_react (h : st.Counted) (a : ServerAnswers) (got : Pulled) :
    (st.react a got).1.Counted := by
  unfold react
  split
  · exact h
  · cases got with
    | broken code | rejected e => exact counted_of_phase (fun _ h => by cases h)
    | nothing => exact h
    | frame f =>
        simp only [greet]
        split
        · exact counted_of_phase (fun _ h => by cases h)
        · exact h
  · cases got with
    | broken code | rejected e => exact counted_of_phase (fun _ h => by cases h)
    | nothing => exact h
    | frame f =>
        simp only [ServerState.awaitRequest]
        split
        · exact counted_onRequest f a
        · exact h
  · exact counted_awaitAck h _ a got
  · cases got with
    | broken code | rejected e => exact counted_of_phase (fun _ h => by cases h)
    | nothing => exact h
    | frame f =>
        simp only [awaitCommit]
        split
        · exact counted_of_phase (fun _ h => by cases h)
        · exact h

end ServerState

namespace ServerTurn

variable {t : ServerTurn} {past later : List ServerTurn}

theorem got_eq_none (h : t.got = none) : ∃ r, t.before.phase = .returned r := by
  by_contra hrun
  rw [got_running fun r hr => hrun ⟨r, hr⟩] at h
  cases h

theorem counted_next (h : t.before.Counted) : t.next.Counted := by
  cases hgot : t.got with
  | none =>
      obtain ⟨r, hr⟩ := got_eq_none hgot
      have hnext : t.next = t.before := by simp only [next, ServerState.step, hr]
      rwa [hnext]
  | some got =>
      rw [next, step_of_got hgot]
      have hst : { t.before with dec := (pull t.before.dec t.answers.recv).2 }.Counted := h
      exact ServerState.counted_react hst t.answers got

theorem received_of_rejected {e : Error} (h : t.got = some (.rejected e)) : t.received = none := by
  rw [received, h]

/-- An accepted `chunk_ack` is followed by the next frame, so discipline asks for the
acknowledgement. -/
theorem Disciplined.acked (h : t.Disciplined past later) (hc : t.before.Counted) {i : ByteCount}
    (hp : t.before.phase = .awaitChunkAck i) (hok : t.before.ok = true) {f : DecodedFrame}
    (hf : t.received = some f) (htype : f.header.type = FrameType.chunkAck.code)
    (hgo : t.before.Proceeds (i + 1) t.answers) : Acked (past ++ [t]) i := by
  have hlt := hc i hp
  have hsucc := toNat_succ i (Nat.lt_of_le_of_lt (UInt64.lt_iff_toNat_lt.mp hlt)
    t.before.plan.chunkCount.toNat_lt)
  have hstep := step_ack hp hok hf htype
  generalize hst : { t.before with dec := (pull t.before.dec t.answers.recv).2 } = st at hstep
  have hgo : st.Proceeds (i + 1) t.answers := hst ▸ hgo
  have hplan : st.plan = t.before.plan := hst ▸ rfl
  rcases st.advance_cases (i + 1) t.answers with ⟨-, ⟨g, hg, hann⟩, hkeep⟩ | ⟨hstop, -⟩
  · have hmem : g ∈ t.sent := by
      rw [sent, hstep, hg]
      exact List.mem_singleton_self g
    rcases hann with ⟨-, hchunk, hid⟩ | ⟨hlast, hcommit⟩
    · exact h.chunk g hmem hchunk i (by rw [hid, hsucc])
    · refine h.commit g hmem hcommit i ?_
      rw [next, hstep, hkeep, hplan]
      rw [hplan, UInt64.lt_iff_toNat_lt, hsucc] at hlast
      have := UInt64.lt_iff_toNat_lt.mp hlt
      omega
  · exact absurd hgo hstop

theorem Orderly.ack_of_sent (h : t.Orderly past) (hc : t.before.Counted) {f : DecodedFrame}
    (hf : f ∈ t.sent) {i : UInt64}
    (hi : f.header.type = FrameType.chunk.code ∧ i.toNat + 1 = f.header.chunkId.toNat ∨
      f.header.type = FrameType.commit.code ∧ i.toNat + 1 = t.next.plan.chunkCount.toNat) :
    Acked (past ++ [t]) i := by
  have hchunk : FrameType.chunk.code ≠ FrameType.commit.code := by decide
  rcases sent_cases hf with ⟨-, hhello⟩ | ⟨-, hann⟩ | ⟨j, g, hp, hok, hg, hack, hgo, hann, hplan⟩
  · rw [hhello] at hi
    exact absurd hi (by simp [FrameType.code])
  · -- the first chunk has no predecessor, and a commit without chunks none either
    rcases hann with ⟨-, htype, hid⟩ | ⟨hnone, htype⟩
    · rw [htype, hid] at hi
      rcases hi with ⟨-, hi⟩ | ⟨hbad, -⟩
      · exact absurd hi (by simp)
      · exact absurd hbad hchunk
    · rw [htype] at hi
      rcases hi with ⟨hbad, -⟩ | ⟨-, hi⟩
      · exact absurd hbad.symm hchunk
      · rw [UInt64.lt_iff_toNat_lt, UInt64.toNat_zero] at hnone
        omega
  · have hlt := hc j hp
    have hsucc := toNat_succ j (Nat.lt_of_le_of_lt (UInt64.lt_iff_toNat_lt.mp hlt)
      t.before.plan.chunkCount.toNat_lt)
    have hij : i = j := by
      apply UInt64.toNat_inj.mp
      rcases hann with ⟨-, htype, hid⟩ | ⟨hlast, htype⟩
      · rw [htype, hid, hsucc] at hi
        rcases hi with ⟨-, hi⟩ | ⟨hbad, -⟩
        · omega
        · exact absurd hbad hchunk
      · rw [htype, hplan] at hi
        rcases hi with ⟨hbad, -⟩ | ⟨-, hi⟩
        · exact absurd hbad.symm hchunk
        · rw [UInt64.lt_iff_toNat_lt, hsucc] at hlast
          have := UInt64.lt_iff_toNat_lt.mp hlt
          omega
    rw [hij]
    exact h.acked j hp hok g hg hack hgo

/-- Two of the four loops return the decoder's error. -/
theorem next_of_rejected {e : Error} (h : t.got = some (.rejected e)) :
    match t.before.phase with
    | .awaitHello | .awaitRequest => t.next.phase = .returned e
    | .awaitChunkAck i => t.next.phase = .awaitChunkAck i
    | .awaitCommitAck => t.next.phase = .returned {}
    | .returned _ => False := by
  have hstep : t.next = _ := congrArg Prod.fst (step_of_got h)
  rw [hstep]
  split
  · rename_i hp
    simp only [ServerState.react, hp]
    rfl
  · rename_i hp
    simp only [ServerState.react, hp]
    rfl
  · rename_i i hp
    simp only [ServerState.react, hp]
    rfl
  · rename_i hp
    simp only [ServerState.react, hp]
    rfl
  · rename_i r hp
    rw [got_returned hp] at h
    cases h

theorem rejected_not_ok {e : Error} (h : t.got = some (.rejected e)) : e.ok = false := by
  have hrun : ∀ r, t.before.phase ≠ .returned r := by
    intro r hr
    rw [got_returned hr] at h
    cases h
  rw [got_running hrun] at h
  exact pull_rejected (Option.some.inj h)

theorem disciplined_iff (hc : t.before.Counted)
    (hidle : ∀ r, t.next.phase = .returned r → ∀ u ∈ later, u.got = none ∧ u.sent = []) :
    t.Disciplined past later ↔ t.Orderly past := by
  constructor
  · intro h
    refine ⟨fun i hp hok f hf htype hgo => h.acked hc hp hok hf htype hgo, ?_⟩
    intro hp e he
    obtain ⟨⟨r, hr, hbad⟩, -⟩ := h.rejected e he
    have hnext := next_of_rejected he
    rcases hp with ⟨i, hp⟩ | hp
    · rw [hp] at hnext
      cases hnext.symm.trans hr
    · rw [hp] at hnext
      cases hnext.symm.trans hr
      cases hbad
  · intro h
    refine ⟨fun f hf htype i hi => h.ack_of_sent hc hf (.inl ⟨htype, hi⟩),
      fun f hf htype i hi => h.ack_of_sent hc hf (.inr ⟨htype, hi⟩), fun e he => ?_⟩
    have hreturns : t.next.phase = .returned e := by
      have hnext := next_of_rejected he
      cases hp : t.before.phase with
      | awaitHello | awaitRequest => rwa [hp] at hnext
      | awaitChunkAck i => exact absurd he (h.decodes (.inl ⟨i, hp⟩) e)
      | awaitCommitAck => exact absurd he (h.decodes (.inr hp) e)
      | returned r =>
          rw [hp] at hnext
          exact absurd hnext id
    exact ⟨⟨e, hreturns, rejected_not_ok he⟩, sent_eq_nil (received_of_rejected he),
      hidle e hreturns⟩

end ServerTurn

namespace ServerState

variable {st : ServerState} {answers : List ServerAnswers}

theorem turns_idle (answers : List ServerAnswers) {r : Error} (h : st.phase = .returned r) :
    ∀ t ∈ st.turns answers, t.got = none ∧ t.sent = [] := by
  induction answers with
  | nil => exact fun _ h => by cases h
  | cons a answers ih =>
      have hgot : ({ before := st, answers := a } : ServerTurn).got = none :=
        ServerTurn.got_returned h
      have hnext : ({ before := st, answers := a } : ServerTurn).next = st := by
        simp only [ServerTurn.next, step, h]
      simp only [turns, hnext, List.forall_mem_cons]
      refine ⟨⟨hgot, ServerTurn.sent_eq_nil ?_⟩, ih⟩
      rw [ServerTurn.received, hgot]

/-- What surrounds a turn of a run: the state before it counts its chunks, and the turns
after it go on from the state it leaves. -/
theorem turns_split (hst : st.Counted) {past later : List ServerTurn} {t : ServerTurn}
    (h : st.turns answers = past ++ t :: later) :
    t.before.Counted ∧ ∃ rest, later = t.next.turns rest := by
  induction answers generalizing st past with
  | nil => simp [turns] at h
  | cons a answers ih =>
      simp only [turns] at h
      cases past with
      | nil =>
          obtain ⟨rfl, hlater⟩ := List.cons.inj h
          exact ⟨hst, answers, hlater.symm⟩
      | cons u past =>
          obtain ⟨-, hrest⟩ := List.cons.inj h
          exact ih (ServerTurn.counted_next hst) hrest

theorem counted_start (listening : Bool) (acceptError : Option UInt64) :
    (start listening acceptError).Counted := by
  unfold start
  split
  · exact counted_of_phase (fun _ h => by cases h)
  · split <;> exact counted_of_phase (fun _ h => by cases h)

end ServerState

theorem server_disciplined_iff (listening : Bool) (acceptError : Option UInt64)
    (answers : List ServerAnswers) :
    (∀ past t later, (ServerState.start listening acceptError).turns answers = past ++ t :: later →
        t.Disciplined past later) ↔
      ∀ past t later, (ServerState.start listening acceptError).turns answers = past ++ t :: later →
        t.Orderly past := by
  refine forall₄_congr fun past t later h => ?_
  obtain ⟨hc, rest, hrest⟩ :=
    ServerState.turns_split (ServerState.counted_start listening acceptError) h
  refine ServerTurn.disciplined_iff hc fun r hr => ?_
  rw [hrest]
  exact ServerState.turns_idle rest hr

/-- A turn in which these bytes arrive, on a disk whose files are all zeros. -/
def arrives (data : List Byte) : ServerAnswers :=
  { recv := .bytes data, opened := fun _ => true, read := fun _ n => (true, List.replicate n 0) }

/-- A session up to the first chunk, for one byte. -/
def openedSession : List ServerAnswers :=
  [arrives TransferCall.helloFrame, arrives { twoBytes with length := 1 }.requestFrame]

/-- The acknowledgement is of another transfer and of a chunk that was not sent. -/
def strayAck : List ServerAnswers :=
  openedSession ++ [arrives (bareFrame { type := FrameType.chunkAck.code, chunkId := 5 })]

/-- Sixty-four bytes without the magic number. -/
def garbage : List ServerAnswers := openedSession ++ [arrives (List.replicate 64 0)]

theorem not_acked {past : List ServerTurn} {i : UInt64}
    (h : ∀ f ∈ past.filterMap ServerTurn.received, f.header.type = FrameType.chunkAck.code →
      f.header.chunkId ≠ i) : ¬ Acked past i := by
  rintro ⟨_, _, f, hf, htype, _, hid⟩
  exact h f hf htype hid

theorem server_undisciplined :
    (∃ past t later, (ServerState.start true none).turns strayAck = past ++ t :: later ∧
      (∃ f ∈ t.sent, f.header.type = FrameType.commit.code) ∧ ¬ t.Disciplined past later) ∧
    ∃ past t later, (ServerState.start true none).turns garbage = past ++ t :: later ∧
      t.next.phase = .awaitChunkAck 0 ∧ ¬ t.Disciplined past later := by
  constructor
  · have hsent : ∃ f ∈ (((ServerState.start true none).turns strayAck).getLast
        (by decide +kernel)).sent, f.header.type = FrameType.commit.code := by decide +kernel
    refine ⟨[_, _], _, [], rfl, hsent, fun h => ?_⟩
    obtain ⟨f, hf, htype⟩ := hsent
    exact not_acked (by decide +kernel) (h.commit f hf htype 0 (by decide +kernel))
  · have hphase : (((ServerState.start true none).turns garbage).getLast
        (by decide +kernel)).next.phase = .awaitChunkAck 0 := by decide +kernel
    refine ⟨[_, _], _, [], rfl, hphase, fun h => ?_⟩
    obtain ⟨⟨r, hr, -⟩, -⟩ := h.rejected
      { category := .invalidRequest, message := "bad frame magic" } (by decide +kernel)
    cases hphase.symm.trans hr

end TransferFabric
