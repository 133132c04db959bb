import TransferFabric.Foundation.Listening
import TransferFabric.Transports.TcpLink

/-!
How far a session depends on the segments in which its peer's bytes arrive. The
peer is arbitrary, and the rest of the environment (files and sends) answers by
what has happened so far, that is, by the frames taken. Every loop of both sides
receives first and then feeds the decoder once, so a frame that arrives behind
another one in the same segment waits for bytes that may never come. The two
sides are instances of one listener, and its results say for which streams the
cuts go unseen.
-/

namespace TransferFabric

open Framing

/-- A running party's decoder, given a segment. -/
theorem pull_bytes (dec : FrameDecoder) (seg : List Byte) :
    pull dec (.bytes seg) = match FrameDecoder.scan (dec.buf ++ seg) with
      | .frame f r => (.frame f, { buf := r })
      | .wait => (.nothing, { buf := dec.buf ++ seg })
      | .bad e => (.rejected e, { buf := dec.buf ++ seg }) := by
  cases hscan : FrameDecoder.scan (dec.buf ++ seg) with
  | frame f r => simp only [pull, FrameDecoder.feed_frame {} hscan]
  | wait =>
      simp only [pull, FrameDecoder.feed_wait {} hscan]
      rfl
  | bad e =>
      have hbad := FrameDecoder.scan_bad hscan
      simp only [pull, FrameDecoder.feed_bad {} hscan, hbad, Bool.false_eq_true, if_false]

/-- What does not depend on the cuts: for any part of the stream, in segments as `recv`
can deliver them, the frames taken and the phase, with the result if there is one. A
party that waits has taken every frame it has. -/
def CutsUnseen {S P : Type} (phase : S → P) (dec : S → FrameDecoder) (returned : S → Prop)
    (run : List (List Byte) → S × List DecodedFrame) (stream : List Byte) : Prop :=
  ∀ part, part <+: stream → ∀ segs segs', Segmentation 4096 part segs →
    Segmentation 4096 part segs' →
    (run segs).2 = (run segs').2 ∧ phase (run segs).1 = phase (run segs').1 ∧
      (¬ returned (run segs).1 → ∀ f r, FrameDecoder.scan (dec (run segs).1).buf ≠ .frame f r)

def Pulled.frames : Pulled → List DecodedFrame
  | .frame f => [f]
  | _ => []

/-- A side of a session: its state with the decoder in it, and its reaction to what a
`recv` brought, which does not look at the decoder. -/
structure Party (S A P : Type) where
  phase : S → P
  dec : S → FrameDecoder
  withDec : S → FrameDecoder → S
  returned : S → Bool
  react : S → A → Pulled → S
  dec_withDec : ∀ s d, dec (withDec s d) = d
  withDec_withDec : ∀ s d d', withDec (withDec s d) d' = withDec s d'
  phase_withDec : ∀ s d, phase (withDec s d) = phase s
  returned_withDec : ∀ s d, returned (withDec s d) = returned s
  react_withDec : ∀ s d a got, react (withDec s d) a got = withDec (react s a got) d
  react_nothing : ∀ s a, react s a .nothing = s
  react_rejected : ∀ s a e, react (react s a (.rejected e)) a (.rejected e) = react s a (.rejected e)

namespace Party

variable {S A P : Type} (p : Party S A P) (env : List DecodedFrame → A)

/-- One turn, with the frames taken so far. -/
def hear (x : S × List DecodedFrame) (seg : List Byte) : S × List DecodedFrame :=
  if p.returned x.1 then x
  else
    let (got, dec) := pull (p.dec x.1) (.bytes seg)
    (p.withDec (p.react x.1 (env x.2) got) dec, x.2 ++ got.frames)

def listener : Listener Byte DecodedFrame Error S where
  toScanner := FrameDecoder.scanner
  scan_nil := rfl
  exact := FrameDecoder.scan_exact
  running s := !p.returned s
  take log s f := p.react s (env log) (.frame f)
  reject log s e := p.react s (env log) (.rejected e)
  reject_reject log s e := p.react_rejected s (env log) e

/-- The decoder's buffer apart from the rest of the state. -/
def listening (x : S × List DecodedFrame) : Listening Byte DecodedFrame S :=
  { state := p.withDec x.1 {}, log := x.2, buf := (p.dec x.1).buf }

theorem running_listening (x : S × List DecodedFrame) :
    (p.listener env).running (p.listening x).state = !p.returned x.1 :=
  congrArg (!·) (p.returned_withDec x.1 {})

theorem listening_hear (x : S × List DecodedFrame) (seg : List Byte) :
    p.listening (p.hear env x seg) = (p.listener env).hear (p.listening x) seg := by
  have hrunning := p.running_listening env x
  cases hret : p.returned x.1 with
  | true =>
      rw [hret] at hrunning
      rw [Listener.hear_idle hrunning, hear, if_pos hret]
  | false =>
      rw [hret] at hrunning
      have hpull := pull_bytes (p.dec x.1) seg
      have hno : ¬ p.returned x.1 = true := by rw [hret]; exact Bool.false_ne_true
      rw [hear, if_neg hno]
      cases hscan : FrameDecoder.scan ((p.dec x.1).buf ++ seg) with
      | frame f r =>
          rw [hscan] at hpull
          rw [Listener.hear_frame hrunning hscan, hpull]
          simp only [listening, listener, Pulled.frames, p.dec_withDec, p.withDec_withDec,
            p.react_withDec]
      | wait =>
          rw [hscan] at hpull
          rw [Listener.hear_wait hrunning hscan, hpull]
          simp only [listening, Pulled.frames, p.dec_withDec, p.withDec_withDec, p.react_nothing,
            List.append_nil]
      | bad e =>
          rw [hscan] at hpull
          rw [Listener.hear_bad hrunning hscan, hpull]
          simp only [listening, listener, Pulled.frames, p.dec_withDec, p.withDec_withDec,
            p.react_withDec, List.append_nil]

theorem listening_hears (s : S) (hs : p.dec s = {}) (hfresh : p.withDec s {} = s)
    (segs : List (List Byte)) :
    (p.listener env).run s segs = p.listening (segs.foldl (p.hear env) (s, [])) := by
  rw [← List.foldl_hom p.listening fun x seg => (p.listening_hear env x seg).symm]
  simp only [Listener.run, listening, hs, hfresh]

theorem cutsUnseen_iff (s : S) (hs : p.dec s = {}) (hfresh : p.withDec s {} = s)
    (stream : List Byte) :
    CutsUnseen p.phase p.dec (fun s => p.returned s = true)
        (fun segs => segs.foldl (p.hear env) (s, [])) stream ↔
      (p.listener env).Spaced p.phase 4096 s stream := by
  rw [← Listener.uniform_iff_spaced (by decide)]
  unfold CutsUnseen Listener.Uniform
  simp only [p.listening_hears env s hs hfresh, p.running_listening env]
  simp only [listening, listener, p.phase_withDec, Bool.not_eq_true', Bool.not_eq_true]
  rfl

end Party

/-! The server. -/

namespace ServerState

def party : Party ServerState ServerAnswers ServerPhase where
  phase := phase
  dec := dec
  withDec s d := { s with dec := d }
  returned s := decide s.Returned
  react s a got := (s.react a got).1
  dec_withDec _ _ := rfl
  withDec_withDec _ _ _ := rfl
  phase_withDec _ _ := rfl
  returned_withDec _ _ := rfl
  react_withDec s d a got := s.react_with_dec a got d
  react_nothing s a := by
    unfold react
    split <;> rfl
  react_rejected s a e := by
    cases hp : s.phase with
    | returned r => simp only [react, hp]
    | awaitHello | awaitRequest | awaitCommitAck => simp only [react, hp]; rfl
    | awaitChunkAck i => simp only [react, hp, awaitAck]

variable (env : List DecodedFrame → ServerAnswers)

/-- One turn of the server, with the frames taken so far. -/
def hear (x : ServerState × List DecodedFrame) (seg : List Byte) :
    ServerState × List DecodedFrame :=
  let t : ServerTurn := { before := x.1, answers := { env x.2 with recv := .bytes seg } }
  (t.next, x.2 ++ t.received.toList)

def hears (segs : List (List Byte)) : ServerState × List DecodedFrame :=
  segs.foldl (hear env) (start true none, [])

theorem hear_eq (x : ServerState × List DecodedFrame) (seg : List Byte) :
    hear env x seg = party.hear env x seg := by
  by_cases hret : x.1.Returned
  · have hparty : party.returned x.1 = true := decide_eq_true hret
    obtain ⟨r, hr⟩ := hret
    rw [Party.hear, if_pos hparty]
    simp only [hear, ServerTurn.next, ServerTurn.received, ServerTurn.got, step, hr,
      Option.toList_none, List.append_nil]
  · have hparty : ¬ party.returned x.1 = true := by
      simpa only [party, decide_eq_true_eq] using hret
    have hrun : ∀ r, x.1.phase ≠ .returned r := fun r hr => hret ⟨r, hr⟩
    rw [Party.hear, if_neg hparty]
    rcases hpull : pull (party.dec x.1) (.bytes seg) with ⟨got, dec⟩
    have hgot : ({ before := x.1, answers := { env x.2 with recv := .bytes seg } } :
        ServerTurn).got = some got := by
      rw [ServerTurn.got_running hrun]
      exact congrArg (some ·.1) hpull
    have hstep : x.1.step { env x.2 with recv := .bytes seg } = _ := step_running x.1 hrun hpull
    refine Prod.ext ?_ ?_
    · show (x.1.step { env x.2 with recv := .bytes seg }).1 = _
      rw [hstep, react_with_dec, react_recv]
      rfl
    · simp only [hear, ServerTurn.received, hgot]
      cases got <;> rfl

theorem unseen_iff_spaced (stream : List Byte) :
    CutsUnseen phase dec Returned (hears env) stream ↔
      (party.listener env).Spaced phase 4096 (start true none) stream := by
  have hhear : party.hear env = hear env := funext₂ fun x seg => (hear_eq env x seg).symm
  have hreturned : (fun s => party.returned s = true) = Returned :=
    funext fun s => decide_eq_true_eq
  have h := party.cutsUnseen_iff env (start true none) rfl rfl stream
  rw [hhear, hreturned] at h
  exact h

end ServerState

/-! The client. -/

/-- The frame a turn of the client gets, in either loop. -/
def ClientTurn.received (t : ClientTurn) : Option DecodedFrame :=
  match t.before.phase, (pull t.before.dec t.answers.recv).1 with
  | .returned _, _ => none
  | _, .frame f => some f
  | _, _ => none

namespace ClientState

variable (c : TransferCall)

def party : Party ClientState ClientAnswers ClientPhase where
  phase := phase
  dec := dec
  withDec s d := { s with dec := d }
  returned s := decide s.Returned
  react s a got := (s.react c a got).1
  dec_withDec _ _ := rfl
  withDec_withDec _ _ _ := rfl
  phase_withDec _ _ := rfl
  returned_withDec _ _ := rfl
  react_withDec s d a got := s.react_with_dec c a got d
  react_nothing s a := by
    unfold react
    split <;> rfl
  react_rejected s a e := by
    cases hp : s.phase with
    | returned r => simp only [react, hp]
    | awaitHelloAck | receiving => simp only [react, hp]; rfl

variable (env : List DecodedFrame → ClientAnswers)

/-- One turn of the client, with the frames taken so far. -/
def hear (x : ClientState × List DecodedFrame) (seg : List Byte) :
    ClientState × List DecodedFrame :=
  let t : ClientTurn := { before := x.1, answers := { env x.2 with recv := .bytes seg } }
  (t.next c, x.2 ++ t.received.toList)

def hears (segs : List (List Byte)) : ClientState × List DecodedFrame :=
  segs.foldl (hear c env) ((start c).1, [])

theorem hear_eq (x : ClientState × List DecodedFrame) (seg : List Byte) :
    hear c env x seg = (party c).hear env x seg := by
  by_cases hret : x.1.Returned
  · have hparty : (party c).returned x.1 = true := decide_eq_true hret
    obtain ⟨r, hr⟩ := hret
    rw [Party.hear, if_pos hparty]
    simp only [hear, ClientTurn.next, ClientTurn.received, step, hr, Option.toList_none,
      List.append_nil]
  · have hparty : ¬ (party c).returned x.1 = true := by
      simpa only [party, decide_eq_true_eq] using hret
    rw [Party.hear, if_neg hparty]
    rcases hpull : pull ((party c).dec x.1) (.bytes seg) with ⟨got, dec⟩
    have hstep : x.1.step c { env x.2 with recv := .bytes seg } = _ :=
      step_running c x.1 (fun r hr => hret ⟨r, hr⟩) hpull
    refine Prod.ext ?_ ?_
    · show (x.1.step c { env x.2 with recv := .bytes seg }).1 = _
      rw [hstep, react_with_dec, react_recv]
      rfl
    · have hfst : (pull x.1.dec (.bytes seg)).1 = got := congrArg Prod.fst hpull
      simp only [hear, ClientTurn.received, hfst]
      cases hp : x.1.phase with
      | returned r => exact absurd ⟨r, hp⟩ hret
      | awaitHelloAck | receiving => cases got <;> rfl

theorem unseen_iff_spaced (stream : List Byte) :
    CutsUnseen phase dec Returned (hears c env) stream ↔
      ((party c).listener env).Spaced phase 4096 (start c).1 stream := by
  have hhear : (party c).hear env = hear c env := funext₂ fun x seg => (hear_eq c env x seg).symm
  have hreturned : (fun s => (party c).returned s = true) = Returned :=
    funext fun s => decide_eq_true_eq
  have hdec : (start c).1.dec = {} := by
    unfold start
    split <;> rfl
  have hfresh : { (start c).1 with dec := {} } = (start c).1 := by rw [← hdec]
  have h := (party c).cutsUnseen_iff env (start c).1 hdec hfresh stream
  rw [hhear, hreturned] at h
  exact h

end ClientState

theorem cuts_unseen_iff (c : TransferCall) (atServer : List DecodedFrame → ServerAnswers)
    (atClient : List DecodedFrame → ClientAnswers) (stream : List Byte) :
    (CutsUnseen ServerState.phase ServerState.dec ServerState.Returned
        (ServerState.hears atServer) stream ↔
      (ServerState.party.listener atServer).Spaced ServerState.phase 4096
        (ServerState.start true none) stream) ∧
    (CutsUnseen ClientState.phase ClientState.dec ClientState.Returned
        (ClientState.hears c atClient) stream ↔
      ((ClientState.party c).listener atClient).Spaced ClientState.phase 4096
        (ClientState.start c).1 stream) :=
  ⟨ServerState.unseen_iff_spaced atServer stream, ClientState.unseen_iff_spaced c atClient stream⟩

/-- A greeting and a request for one byte, sent without waiting for the answer. -/
def pipelined : List Byte :=
  TransferCall.helloFrame ++ { twoBytes with length := 1 }.requestFrame

instance {n : Nat} {stream : List Byte} {segs : List (List Byte)} :
    Decidable (Segmentation n stream segs) :=
  decidable_of_iff (segs.flatten = stream ∧ ∀ seg ∈ segs, seg ≠ [] ∧ seg.length ≤ n)
    ⟨fun h => ⟨h.1, h.2⟩, fun h => ⟨h.flatten, h.sizes⟩⟩

theorem pipelined_cuts_seen :
    (ServerState.hears (fun _ => arrives []) [pipelined]).1.phase = .awaitRequest ∧
      (ServerState.hears (fun _ => arrives [])
        [TransferCall.helloFrame, { twoBytes with length := 1 }.requestFrame]).1.phase =
          .awaitChunkAck 0 ∧
      ¬ CutsUnseen ServerState.phase ServerState.dec ServerState.Returned
        (ServerState.hears fun _ => arrives []) pipelined := by
  have hwhole : Segmentation 4096 pipelined [pipelined] := by decide +kernel
  have hcut : Segmentation 4096 pipelined
      [TransferCall.helloFrame, { twoBytes with length := 1 }.requestFrame] := by decide +kernel
  have hwaits : (ServerState.hears (fun _ => arrives []) [pipelined]).1.phase = .awaitRequest := by
    decide +kernel
  have hsends : (ServerState.hears (fun _ => arrives [])
      [TransferCall.helloFrame, { twoBytes with length := 1 }.requestFrame]).1.phase =
        .awaitChunkAck 0 := by decide +kernel
  refine ⟨hwaits, hsends, fun h => ?_⟩
  have hsame := (h pipelined List.prefix_rfl _ _ hwhole hcut).2.1
  rw [hwaits, hsends] at hsame
  cases hsame

end TransferFabric
