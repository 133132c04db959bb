import TransferFabric.Foundation.Spans
import TransferFabric.Transports.Tcp

/-!
What the client guarantees against an arbitrary peer. The peer chooses every
byte the client receives, so the statements quantify over all answers of all
turns. Two properties are characterised: that the client writes only inside the
requested region, and that success means the region was received completely.
Neither holds of every peer: the range check reads the header's length at
machine width while the write uses the payload's own size, nothing relates the
chunks to one another beyond their numbering and their total, and transfer ids
are not looked at.
-/

namespace TransferFabric

open Spans

/-- Where and what is written to the destination. -/
def writesOf (effects : List PeerEffect) : List (Nat × List Byte) :=
  effects.filterMap fun
    | .write position data => some (position, data)
    | _ => none

structure ClientTurn where
  before : ClientState
  answers : ClientAnswers

namespace ClientTurn

variable (c : TransferCall) (t : ClientTurn)

/-- The frame the receive loop gets in this turn. -/
def pulled : Option DecodedFrame :=
  match t.before.phase, (pull t.before.dec t.answers.recv).1 with
  | .receiving, .frame f => some f
  | _, _ => none

/-- The chunk frame of this turn, if it passes the checks of the loop. -/
def accepted : Option DecodedFrame :=
  t.pulled.filter fun f => f.header.type = FrameType.chunk.code ∧
    TransferCall.inOrder t.before.expectedChunk f.header ∧ c.inRange f.header

def committed : Option DecodedFrame :=
  t.pulled.filter fun f => f.header.type = FrameType.commit.code

def next : ClientState := (t.before.step c t.answers).1

def writes : List (Nat × List Byte) := writesOf (t.before.step c t.answers).2

end ClientTurn

def ClientState.Succeeded (st : ClientState) : Prop := ∃ r, st.phase = .returned r ∧ r.ok = true

/-- Everything a turn can do, as far as the destination and the result go. -/
inductive ClientTurn.Kind (c : TransferCall) (t : ClientTurn) : Prop where
  | quiet (ha : t.accepted c = none) (hc : t.committed = none) (hw : t.writes c = [])
      (hn : (t.next c).written = t.before.written)
      (hs : (t.next c).Succeeded ↔ t.before.Succeeded)
  | stored (f : DecodedFrame) (ha : t.accepted c = some f) (hc : t.committed = none)
      (hb : ¬ t.before.Succeeded)
      (hw : t.writes c = [(seekTo f.header.offset t.before.position, f.payload)])
      (hsize : (t.answers.write f.payload).2 = f.payload.length)
      (hn : (t.next c).written = t.before.written + UInt64.ofNat f.payload.length)
      (hs : ¬ (t.next c).Succeeded)
  | torn (f : DecodedFrame) (ha : t.accepted c = some f) (hc : t.committed = none)
      (hb : ¬ t.before.Succeeded)
      (hw : t.writes c = [(seekTo f.header.offset t.before.position,
        f.payload.take (t.answers.write f.payload).2)])
      (hs : ∃ r, (t.next c).phase = .returned r ∧ r.ok = false)
  | commit (f : DecodedFrame) (ha : t.accepted c = none) (hc : t.committed = some f)
      (hb : ¬ t.before.Succeeded) (hw : t.writes c = []) (hr : ∃ r, (t.next c).phase = .returned r)
      (hs : (t.next c).Succeeded ↔ t.before.written = c.length)

theorem pull_rejected {dec : FrameDecoder} {r : Received} {e : Error}
    (h : (pull dec r).1 = .rejected e) : e.ok = false := by
  cases r with
  | failed code => cases h
  | bytes data =>
      simp only [pull] at h
      generalize dec.feed data {} = fed at h
      obtain ⟨_ | f, e', d⟩ := fed
      · dsimp only at h
        split at h
        · cases h
        · rename_i hok
          cases h
          simpa using hok
      · cases h

namespace ClientState

@[simp] theorem succeeded_finish (st : ClientState) (r : Error) :
    (st.finish r).Succeeded ↔ r.ok = true := by
  constructor
  · rintro ⟨_, hr, hok⟩
    cases hr
    exact hok
  · exact fun h => ⟨r, rfl, h⟩

theorem not_succeeded_of_phase {st : ClientState} (h : ∀ r, st.phase ≠ .returned r) :
    ¬ st.Succeeded := by
  rintro ⟨r, hr, -⟩
  exact h r hr

/-- A `break` never leaves a success behind. -/
theorem abandon_failed (st : ClientState) (r : Error) :
    ∃ r', (st.abandon r).phase = .returned r' ∧ r'.ok = false := by
  refine ⟨_, rfl, ?_⟩
  split
  · rfl
  · rename_i h
    simpa using h

theorem not_succeeded_of_failed {st : ClientState} {r : Error} (h : st.phase = .returned r)
    (hbad : r.ok = false) : ¬ st.Succeeded := by
  rintro ⟨r', hr', hok⟩
  cases h.symm.trans hr'
  rw [hbad] at hok
  cases hok

theorem not_succeeded_abandon (st : ClientState) (r : Error) : ¬ (st.abandon r).Succeeded := by
  obtain ⟨r', hr', hbad⟩ := abandon_failed st r
  exact not_succeeded_of_failed hr' hbad

/-- Nothing is counted, nothing is written, and there is no success. -/
structure Quiet (st : ClientState) (out : ClientState × List PeerEffect) : Prop where
  written : out.1.written = st.written
  failed : ¬ out.1.Succeeded
  writes : writesOf out.2 = []

theorem quiet_finish (st : ClientState) {r : Error} (h : r.ok = false) :
    Quiet st (st.finish r, []) :=
  ⟨rfl, by rw [succeeded_finish, h]; exact Bool.false_ne_true, rfl⟩

theorem quiet_abandon (st : ClientState) (r : Error) : Quiet st (st.abandon r, []) :=
  ⟨rfl, not_succeeded_abandon st r, rfl⟩

theorem quiet_self {st : ClientState} (h : ¬ st.Succeeded) : Quiet st (st, []) := ⟨rfl, h, rfl⟩

theorem quiet_request (c : TransferCall) (st : ClientState) (a : ClientAnswers) :
    Quiet st (st.request c a) := by
  unfold request
  split
  · exact quiet_finish st rfl
  · split
    · exact ⟨rfl, not_succeeded_of_phase (fun _ h => by cases h), rfl⟩
    · obtain ⟨hw, hf, -⟩ := quiet_finish st (r :=
        { category := .backendFailure, message := "cannot open destination file" }) rfl
      exact ⟨hw, hf, rfl⟩

end ClientState

namespace ClientState

variable (c : TransferCall) (st : ClientState) (a : ClientAnswers)

theorem step_returned {r : Error} (h : st.phase = .returned r) : st.step c a = (st, []) := by
  simp only [step, h]

theorem step_handshake (h : st.phase = .awaitHelloAck) :
    st.step c a =
      { st with dec := (pull st.dec a.recv).2 }.handshake c a (pull st.dec a.recv).1 := by
  simp only [step, h]

theorem step_receiving (h : st.phase = .receiving) :
    st.step c a =
      { st with dec := (pull st.dec a.recv).2 }.receive c a (pull st.dec a.recv).1 := by
  simp only [step, h]

theorem quiet_handshake (hst : ¬ st.Succeeded) {got : Pulled}
    (hgot : ∀ e, got = .rejected e → e.ok = false) : Quiet st (st.handshake c a got) := by
  cases got with
  | broken code => exact quiet_finish st rfl
  | rejected e => exact quiet_finish st (hgot e rfl)
  | nothing => exact quiet_self hst
  | frame f =>
      simp only [handshake]
      split
      · exact quiet_request c st a
      · exact quiet_self hst

theorem quiet_other (hst : ¬ st.Succeeded) {f : DecodedFrame}
    (hchunk : f.header.type ≠ FrameType.chunk.code)
    (hcommit : f.header.type ≠ FrameType.commit.code) : Quiet st (st.onFrame c f a) := by
  unfold onFrame
  rw [if_neg hchunk, if_neg hcommit]
  split
  · exact quiet_abandon st _
  · exact quiet_self hst

theorem quiet_receive (hst : ¬ st.Succeeded) {got : Pulled} (hgot : ∀ f, got ≠ .frame f) :
    Quiet st (st.receive c a got) := by
  cases got with
  | broken code => exact quiet_abandon st _
  | rejected e => exact quiet_abandon st _
  | nothing => exact quiet_self hst
  | frame f => exact absurd rfl (hgot f)

theorem quiet_refused {f : DecodedFrame}
    (h : ¬ (TransferCall.inOrder st.expectedChunk f.header ∧ c.inRange f.header)) :
    Quiet st (st.onChunk c f a) := by
  unfold onChunk
  split
  · exact quiet_abandon st _
  · split
    · exact quiet_abandon st _
    · rename_i ho hr
      exact absurd ⟨by simpa using ho, by simpa using hr⟩ h

/-- An accepted chunk is written whole and counted, or the transfer fails. -/
theorem store_cases (f : DecodedFrame) :
    ((a.write f.payload).2 = f.payload.length ∧
      (st.store c f a).1 = { st with
        position := seekTo f.header.offset st.position + f.payload.length
        written := st.written + UInt64.ofNat f.payload.length
        expectedChunk := st.expectedChunk + 1 } ∨
      ∃ r, (st.store c f a).1.phase = .returned r ∧ r.ok = false) ∧
    writesOf (st.store c f a).2 =
      [(seekTo f.header.offset st.position, f.payload.take (a.write f.payload).2)] := by
  unfold store
  generalize a.write f.payload = answer
  obtain ⟨success, wr⟩ := answer
  dsimp only
  split
  · exact ⟨.inr (abandon_failed st _), rfl⟩
  · rename_i h
    have hwr : wr = f.payload.length := by
      by_contra hne
      exact h (.inr hne)
    exact ⟨.inl ⟨hwr, by rw [hwr]⟩, rfl⟩

end ClientState

namespace ClientTurn

variable (c : TransferCall) (t : ClientTurn)

theorem kind_quiet (hb : ¬ t.before.Succeeded) (ha : t.accepted c = none)
    (hc : t.committed = none) {out : ClientState × List PeerEffect} {dec : FrameDecoder}
    (hstep : t.before.step c t.answers = out)
    (hq : ClientState.Quiet { t.before with dec := dec } out) : Kind c t := by
  subst hstep
  exact .quiet ha hc hq.writes hq.written (iff_of_false hq.failed hb)

theorem kind_received {f : DecodedFrame} (hp : t.before.phase = .receiving)
    (hgot : (pull t.before.dec t.answers.recv).1 = .frame f) : Kind c t := by
  have hb : ¬ t.before.Succeeded := ClientState.not_succeeded_of_phase (by rw [hp]; exact fun _ h => by cases h)
  have hpull : t.pulled = some f := by simp only [pulled, hp, hgot]
  have hstep := ClientState.step_receiving c t.before t.answers hp
  rw [hgot] at hstep
  generalize (pull t.before.dec t.answers.recv).2 = dec at hstep
  by_cases hchunk : f.header.type = FrameType.chunk.code
  · have hc : t.committed = none := by
      rw [committed, hpull]
      simp [hchunk, FrameType.code]
    have honFrame : t.before.step c t.answers =
        ClientState.onChunk c { t.before with dec := dec } f t.answers := by
      rw [hstep, ClientState.receive, ClientState.onFrame, if_pos hchunk]
    by_cases hok : TransferCall.inOrder t.before.expectedChunk f.header ∧ c.inRange f.header
    · have ha : t.accepted c = some f := by
        rw [accepted, hpull]
        simp [hchunk, hok]
      have hstore : t.before.step c t.answers =
          ClientState.store c { t.before with dec := dec } f t.answers := by
        rw [honFrame, ClientState.onChunk, if_neg (not_not.mpr hok.1), if_neg (not_not.mpr hok.2)]
      obtain ⟨hcases, hw⟩ := ClientState.store_cases c { t.before with dec := dec } t.answers f
      rcases hcases with ⟨hsize, hnext⟩ | hfail
      · refine .stored f ha hc hb ?_ hsize ?_ ?_
        · rw [writes, hstore, hw, hsize, List.take_length]
        · rw [next, hstore, hnext]
        · rw [next, hstore, hnext]
          exact ClientState.not_succeeded_of_phase (by rw [hp]; exact fun _ h => by cases h)
      · exact .torn f ha hc hb (by rw [writes, hstore, hw]) (by rw [next, hstore]; exact hfail)
    · have ha : t.accepted c = none := by
        rw [accepted, hpull]
        simpa [hchunk] using hok
      exact kind_quiet c t hb ha hc honFrame (ClientState.quiet_refused c { t.before with dec := dec } t.answers hok)
  · have ha : t.accepted c = none := by
      rw [accepted, hpull]
      simp [hchunk]
    by_cases hcommit : f.header.type = FrameType.commit.code
    · have hcommitted : t.before.step c t.answers =
          ClientState.onCommit c { t.before with dec := dec } := by
        rw [hstep, ClientState.receive, ClientState.onFrame, if_neg hchunk, if_pos hcommit]
      refine .commit f ha (by rw [committed, hpull]; simp [hcommit]) hb ?_ ?_ ?_
      · rw [writes, hcommitted]; rfl
      · rw [next, hcommitted]; exact ⟨_, rfl⟩
      · rw [next, hcommitted, ClientState.onCommit, ClientState.succeeded_finish]
        by_cases hlen : t.before.written = c.length
        · simp [hlen]
        · simp [hlen, Error.ok]
    · exact kind_quiet c t hb ha (by rw [committed, hpull]; simp [hcommit]) hstep
        (ClientState.quiet_other c { t.before with dec := dec } t.answers hb hchunk hcommit)

theorem kind : Kind c t := by
  cases hp : t.before.phase with
  | returned r =>
      have hpull : t.pulled = none := by simp only [pulled, hp]
      have hstep := ClientState.step_returned c t.before t.answers hp
      exact .quiet (by rw [accepted, hpull]; rfl) (by rw [committed, hpull]; rfl)
        (by rw [writes, hstep]; rfl) (by rw [next, hstep]) (by rw [next, hstep])
  | awaitHelloAck =>
      have hpull : t.pulled = none := by simp only [pulled, hp]
      have hb : ¬ t.before.Succeeded := ClientState.not_succeeded_of_phase (by rw [hp]; exact fun _ h => by cases h)
      exact kind_quiet c t hb (by rw [accepted, hpull]; rfl) (by rw [committed, hpull]; rfl)
        (ClientState.step_handshake c t.before t.answers hp)
        (ClientState.quiet_handshake c
          { t.before with dec := (pull t.before.dec t.answers.recv).2 } t.answers hb
          fun e he => pull_rejected he)
  | receiving =>
      have hb : ¬ t.before.Succeeded := ClientState.not_succeeded_of_phase (by rw [hp]; exact fun _ h => by cases h)
      cases hgot : (pull t.before.dec t.answers.recv).1 with
      | frame f => exact kind_received c t hp hgot
      | broken code | rejected e | nothing =>
          have hpull : t.pulled = none := by simp only [pulled, hp, hgot]
          exact kind_quiet c t hb (by rw [accepted, hpull]; rfl) (by rw [committed, hpull]; rfl)
            (ClientState.step_receiving c t.before t.answers hp)
            (ClientState.quiet_receive c
              { t.before with dec := (pull t.before.dec t.answers.recv).2 } t.answers hb
              (by rw [hgot]; exact fun _ h => by cases h))

end ClientTurn

/-! Runs. -/

def ClientState.turns (c : TransferCall) : ClientState → List ClientAnswers → List ClientTurn
  | _, [] => []
  | st, a :: answers =>
      let t : ClientTurn := { before := st, answers := a }
      t :: (t.next c).turns c answers

def ClientState.outcome (c : TransferCall) : ClientState → List ClientAnswers → ClientState
  | st, [] => st
  | st, a :: answers =>
      let t : ClientTurn := { before := st, answers := a }
      (t.next c).outcome c answers

namespace TransferCall

variable (c : TransferCall) (answers : List ClientAnswers)

def turns : List ClientTurn := (ClientState.start c).1.turns c answers

def Succeeds : Prop := ((ClientState.start c).1.outcome c answers).Succeeded

end TransferCall

/-! Containment. -/

namespace ClientTurn

variable (c : TransferCall) (t : ClientTurn)

/-- Every byte written lies in the requested region, and so does the range the
header of an accepted chunk announces. -/
def Contained : Prop :=
  (∀ w ∈ t.writes c, ∀ x, (Span.mk w.1 w.2.length).Holds x →
      c.offset.toNat ≤ x ∧ x < c.offset.toNat + c.length.toNat) ∧
    ∀ f ∈ t.accepted c,
      f.header.offset.toNat + f.header.length.toNat ≤ c.offset.toNat + c.length.toNat

/-- The header's sum does not wrap, and what the disk takes of the payload ends in
the region, from the header's offset on or, where the seek cannot reach that, from
the current position on. -/
def Fits : Prop :=
  ∀ f ∈ t.accepted c,
    f.header.offset.toNat + f.header.length.toNat < 2 ^ 64 ∧
      let taken := min (t.answers.write f.payload).2 f.payload.length
      taken = 0 ∨
      f.header.offset.toNat < 2 ^ 63 ∧
        f.header.offset.toNat + taken ≤ c.offset.toNat + c.length.toNat ∨
      2 ^ 63 ≤ f.header.offset.toNat ∧ c.offset.toNat ≤ t.before.position ∧
        t.before.position + taken ≤ c.offset.toNat + c.length.toNat

instance : Decidable (t.Fits c) := inferInstanceAs (Decidable (∀ f ∈ t.accepted c, _))

variable {c t}

theorem inRange_of_accepted {f : DecodedFrame} (h : t.accepted c = some f) :
    c.offset.toNat ≤ f.header.offset.toNat ∧
      (f.header.offset.toNat + f.header.length.toNat) % 2 ^ 64 ≤
        (c.offset.toNat + c.length.toNat) % 2 ^ 64 := by
  have hf := (Option.filter_eq_some_iff.mp h).2
  simp only [TransferCall.inRange, decide_eq_true_eq, not_or, UInt64.not_lt,
    UInt64.le_iff_toNat_le, UInt64.toNat_add, gt_iff_lt] at hf
  exact hf.2.2

/-- What a write that begins where the seek left the handle has to do with the region. -/
theorem written_inside (pos n : Nat) {q : UInt64} (hq : c.offset.toNat ≤ q.toNat) :
    (∀ x, (Span.mk (seekTo q pos) n).Holds x →
        c.offset.toNat ≤ x ∧ x < c.offset.toNat + c.length.toNat) ↔
      n = 0 ∨ q.toNat < 2 ^ 63 ∧ q.toNat + n ≤ c.offset.toNat + c.length.toNat ∨
        2 ^ 63 ≤ q.toNat ∧ c.offset.toNat ≤ pos ∧ pos + n ≤ c.offset.toNat + c.length.toNat := by
  have hstart : q.toNat < 2 ^ 63 ∧ seekTo q pos = q.toNat ∨
      2 ^ 63 ≤ q.toNat ∧ seekTo q pos = pos := by
    unfold seekTo setFilePointer
    split_ifs with h
    · exact .inl ⟨h, rfl⟩
    · exact .inr ⟨by omega, rfl⟩
  generalize seekTo q pos = start at hstart
  constructor
  · intro h
    by_cases hn : n = 0
    · exact .inl hn
    have hfirst := h start ⟨Nat.le_refl _, by dsimp only; omega⟩
    have hlast := h (start + n - 1) ⟨by dsimp only; omega, by dsimp only; omega⟩
    omega
  · rintro h x ⟨hlo, hhi⟩
    dsimp only at hlo hhi
    omega

theorem contained_iff_fits (hfit : c.offset.toNat + c.length.toNat < 2 ^ 64) :
    t.Contained c ↔ t.Fits c := by
  have hcase : ∀ f, t.accepted c = some f →
      t.writes c = [(seekTo f.header.offset t.before.position,
        f.payload.take (t.answers.write f.payload).2)] → (t.Contained c ↔ t.Fits c) := by
    intro f ha hw
    obtain ⟨hoff, hrange⟩ := inRange_of_accepted ha
    have hlt : (f.header.offset.toNat + f.header.length.toNat) % 2 ^ 64 ≤
        f.header.offset.toNat + f.header.length.toNat := Nat.mod_le _ _
    rw [Nat.mod_eq_of_lt hfit] at hrange
    have hwrap : f.header.offset.toNat + f.header.length.toNat ≤ c.offset.toNat + c.length.toNat ↔
        f.header.offset.toNat + f.header.length.toNat < 2 ^ 64 := by
      constructor
      · omega
      · intro h
        rwa [Nat.mod_eq_of_lt h] at hrange
    have hwritten := written_inside t.before.position
      (min (t.answers.write f.payload).2 f.payload.length) hoff
    unfold Contained Fits
    rw [ha, hw]
    simp only [List.mem_singleton, forall_eq, Option.mem_some, forall_eq', List.length_take]
    rw [hwritten, hwrap]
    exact and_comm
  have hidle : accepted c t = none → writes c t = [] → (Contained c t ↔ Fits c t) := by
    intro ha hw
    unfold Contained Fits
    rw [ha, hw]
    simp
  rcases kind c t with ⟨ha, -, hw⟩ | ⟨f, ha, -, -, hw, hsize⟩ | ⟨f, ha, -, -, hw⟩ | ⟨f, ha, -, -, hw⟩
  · exact hidle ha hw
  · exact hcase f ha (by rw [hw, hsize, List.take_length])
  · exact hcase f ha hw
  · exact hidle ha hw

end ClientTurn

theorem TransferCall.writes_contained_iff (c : TransferCall)
    (hfit : c.offset.toNat + c.length.toNat < 2 ^ 64) (answers : List ClientAnswers) :
    (∀ t ∈ c.turns answers, t.Contained c) ↔ ∀ t ∈ c.turns answers, t.Fits c :=
  forall₂_congr fun _ _ => ClientTurn.contained_iff_fits hfit

/-- A request for the first two bytes of a file. -/
def twoBytes : TransferCall :=
  { srcPath := [97], offset := 0, length := 2, dstPath := [98], id := { hi := 1, lo := 2 } }

/-- A turn that brings one whole frame, on a disk that takes what it is given. -/
def heard (h : FrameHeader) (payload : List Byte) : ClientAnswers :=
  { recv := .bytes (FrameEncoder.encode h (some payload) payload.length []).2
    write := fun p => (true, p.length) }

def inOneChunk : List ClientAnswers :=
  [heard { type := FrameType.helloAck.code } [],
   heard { type := FrameType.chunk.code, transferId := twoBytes.id, length := 2 } [7, 8],
   heard { type := FrameType.commit.code, transferId := twoBytes.id } []]

theorem writes_contained_in_one_chunk :
    twoBytes.offset.toNat + twoBytes.length.toNat < 2 ^ 64 ∧
      ∀ t ∈ twoBytes.turns inOneChunk, t.Contained twoBytes :=
  ⟨by decide, (twoBytes.writes_contained_iff (by decide) inOneChunk).mpr (by decide +kernel)⟩

/-- The header's offset and length add up to 1 modulo 2^64. -/
def wrappedChunk : List ClientAnswers :=
  [heard { type := FrameType.helloAck.code } [],
   heard { type := FrameType.chunk.code, offset := 100, length := 0xFFFFFFFFFFFFFF9D } [7]]

theorem wrapped_chunk_written :
    ∃ t ∈ twoBytes.turns wrappedChunk, (100, [7]) ∈ t.writes twoBytes ∧
      ¬ t.Contained twoBytes := by
  have hrun : ∃ t ∈ twoBytes.turns wrappedChunk, (100, [7]) ∈ t.writes twoBytes := by
    decide +kernel
  obtain ⟨t, ht, hw⟩ := hrun
  refine ⟨t, ht, hw, fun h => ?_⟩
  have := h.1 _ hw 100 ⟨by decide, by decide⟩
  exact absurd this.2 (by decide)

/-! Completeness. -/

def DecodedFrame.span (f : DecodedFrame) : Span := ⟨f.header.offset.toNat, f.payload.length⟩

namespace TransferCall

variable (c : TransferCall)

/-- The chunk frames of a run that passed the checks, in order. -/
def chunks (run : List ClientTurn) : List DecodedFrame := run.filterMap (·.accepted c)

def commits (run : List ClientTurn) : List DecodedFrame := run.filterMap (·.committed)

theorem chunks_cons (t : ClientTurn) (run : List ClientTurn) :
    c.chunks (t :: run) = (t.accepted c).toList ++ c.chunks run := by
  rw [chunks, List.filterMap_cons, chunks]
  cases t.accepted c <;> rfl

end TransferCall

namespace ClientState

variable {c : TransferCall} {st : ClientState} {answers : List ClientAnswers}

/-- A transfer that has returned does nothing more. -/
theorem turns_returned (answers : List ClientAnswers) {r : Error} (h : st.phase = .returned r) :
    (∀ t ∈ st.turns c answers, t.accepted c = none ∧ t.committed = none) ∧
      st.outcome c answers = st := by
  induction answers with
  | nil => exact ⟨(fun _ h => by cases h), rfl⟩
  | cons a answers ih =>
      have hpull : ({ before := st, answers := a } : ClientTurn).pulled = none := by
        simp only [ClientTurn.pulled, h]
      have hnext : ({ before := st, answers := a } : ClientTurn).next c = st := by
        rw [ClientTurn.next, step_returned c st a h]
      simp only [turns, outcome, hnext, List.forall_mem_cons]
      exact ⟨⟨⟨by rw [ClientTurn.accepted, hpull]; rfl, by rw [ClientTurn.committed, hpull]; rfl⟩,
        ih.1⟩, ih.2⟩

theorem chunks_returned (answers : List ClientAnswers) {r : Error} (h : st.phase = .returned r) :
    c.chunks (st.turns c answers) = [] :=
  List.filterMap_eq_nil_iff.mpr fun t ht => ((turns_returned answers h).1 t ht).1

/-- A run succeeds by a commit that arrives when the byte count is right, and in no
other way. -/
theorem outcome_succeeded_iff (h : ¬ st.Succeeded) :
    (st.outcome c answers).Succeeded ↔
      ∃ t ∈ st.turns c answers, t.committed ≠ none ∧ t.before.written = c.length := by
  induction answers generalizing st with
  | nil => exact iff_of_false h (by rintro ⟨t, ht, -⟩; cases ht)
  | cons a answers ih =>
      simp only [outcome, turns, List.mem_cons, exists_eq_or_imp]
      have hkind := ClientTurn.kind c { before := st, answers := a }
      have hst : ({ before := st, answers := a } : ClientTurn).before = st := rfl
      generalize ({ before := st, answers := a } : ClientTurn) = t at hkind hst ⊢
      -- a turn that returned leaves later turns nothing to do
      have hfrozen : ∀ r, (t.next c).phase = .returned r →
          ((t.next c).outcome c answers = t.next c ∧
            ¬ ∃ u ∈ (t.next c).turns c answers, u.committed ≠ none ∧
              u.before.written = c.length) := by
        intro r hr
        obtain ⟨hnone, hout⟩ := turns_returned (c := c) answers hr
        refine ⟨hout, ?_⟩
        rintro ⟨u, hu, hc, -⟩
        exact hc (hnone u hu).2
      cases hkind with
      | quiet ha hc hw hn hs =>
          rw [ih (mt hs.mp (hst ▸ h)), hc]
          simp only [ne_eq, not_true_eq_false, false_and, false_or]
      | stored f ha hc hb hw hsize hn hs =>
          rw [ih hs, hc]
          simp only [ne_eq, not_true_eq_false, false_and, false_or]
      | torn f ha hc hb hw hs =>
          obtain ⟨r, hr, hbad⟩ := hs
          obtain ⟨hout, hnone⟩ := hfrozen r hr
          rw [hout]
          refine iff_of_false (not_succeeded_of_failed hr hbad) ?_
          rintro (⟨hne, -⟩ | hlater)
          · exact hne hc
          · exact hnone hlater
      | commit f ha hc hb hw hr hs =>
          obtain ⟨r, hr⟩ := hr
          obtain ⟨hout, hnone⟩ := hfrozen r hr
          rw [hout]
          rw [hst] at hs
          refine hs.trans ⟨fun hlen => .inl ⟨by rw [hc]; exact (fun h => by cases h), hlen⟩, ?_⟩
          rintro (⟨-, hlen⟩ | hlater)
          · exact hlen
          · exact absurd hlater hnone

/-- The byte count of a successful run is the total of the accepted payloads, at
machine width. -/
theorem outcome_total (h : ¬ st.Succeeded) (hs : (st.outcome c answers).Succeeded) :
    c.length = st.written +
      UInt64.ofNat (total ((c.chunks (st.turns c answers)).map DecodedFrame.span)) := by
  induction answers generalizing st with
  | nil => exact absurd hs h
  | cons a answers ih =>
      simp only [outcome] at hs
      simp only [turns, TransferCall.chunks_cons]
      have hkind := ClientTurn.kind c { before := st, answers := a }
      have hst : ({ before := st, answers := a } : ClientTurn).before = st := rfl
      generalize ({ before := st, answers := a } : ClientTurn) = t at hkind hst hs ⊢
      cases hkind with
      | quiet ha hc hw hn hq =>
          rw [ha, ← hst, ← hn]
          exact ih (mt hq.mp (hst ▸ h)) hs
      | stored f ha hc hb hw hsize hn hq =>
          rw [ha, ih hq hs, hn, hst]
          simp only [Option.toList_some, List.singleton_append, List.map_cons, total, List.sum_cons,
            DecodedFrame.span, UInt64.ofNat_add]
          exact UInt64.add_assoc _ _ _
      | torn f ha hc hb hw hq =>
          obtain ⟨r, hr, hbad⟩ := hq
          rw [(turns_returned answers hr).2] at hs
          exact absurd hs (not_succeeded_of_failed hr hbad)
      | commit f ha hc hb hw hr hq =>
          obtain ⟨r, hr⟩ := hr
          rw [(turns_returned answers hr).2] at hs
          rw [ha, chunks_returned answers hr, ← hst, hq.mp hs]
          exact (UInt64.add_zero _).symm

end ClientState

namespace TransferCall

/-- The accepted payloads, at their header offsets, are the requested region, each
byte once, and every frame that counted was meant for this transfer. -/
structure Complete (c : TransferCall) (run : List ClientTurn) : Prop where
  tiles : Tiles c.offset.toNat c.length.toNat ((c.chunks run).map DecodedFrame.span)
  chunkIds : ∀ f ∈ c.chunks run, f.header.transferId = c.id
  commitIds : ∀ f ∈ commits run, f.header.transferId = c.id

/-- What the checks of the receive loop leave to the peer. -/
structure WellSent (c : TransferCall) (run : List ClientTurn) : Prop where
  inside : ∀ f ∈ c.chunks run, f.span.Inside c.offset.toNat c.length.toNat
  apart : (c.chunks run).Pairwise fun f g => f.span.Apart g.span
  chunkIds : ∀ f ∈ c.chunks run, f.header.transferId = c.id
  commitIds : ∀ f ∈ commits run, f.header.transferId = c.id

theorem not_succeeded_start (c : TransferCall) : ¬ (ClientState.start c).1.Succeeded := by
  unfold ClientState.start
  split
  · exact ClientState.not_succeeded_of_phase (fun _ h => by cases h)
  · exact ClientState.not_succeeded_of_failed rfl rfl

theorem complete_iff_wellSent {c : TransferCall} {answers : List ClientAnswers}
    (h : c.Succeeds answers) :
    c.Complete (c.turns answers) ↔ c.WellSent (c.turns answers) := by
  have htotal : total ((c.chunks (c.turns answers)).map DecodedFrame.span) % 2 ^ 64 =
      c.length.toNat % 2 ^ 64 := by
    have hlen := ClientState.outcome_total (not_succeeded_start c) h
    have hzero : (ClientState.start c).1.written = 0 := by
      unfold ClientState.start
      split <;> rfl
    rw [hzero, UInt64.zero_add] at hlen
    rw [hlen, UInt64.toNat_ofNat', Nat.mod_mod]
    rfl
  have htiles : Tiles c.offset.toNat c.length.toNat _ ↔ _ := tiles_iff c.length.toNat_lt htotal
  rw [List.forall_mem_map, List.pairwise_map] at htiles
  constructor
  · intro hc
    obtain ⟨hin, hap⟩ := htiles.mp hc.tiles
    exact ⟨hin, hap, hc.chunkIds, hc.commitIds⟩
  · intro hw
    exact ⟨htiles.mpr ⟨hw.inside, hw.apart⟩, hw.chunkIds, hw.commitIds⟩

theorem success_complete_iff (c : TransferCall) (answers : List ClientAnswers) :
    (c.Succeeds answers → c.Complete (c.turns answers)) ↔
      ((∃ t ∈ c.turns answers, t.committed ≠ none ∧ t.before.written = c.length) →
        c.WellSent (c.turns answers)) := by
  have hs : c.Succeeds answers ↔
      ∃ t ∈ c.turns answers, t.committed ≠ none ∧ t.before.written = c.length :=
    ClientState.outcome_succeeded_iff (not_succeeded_start c)
  rw [← hs]
  exact ⟨fun h hsucc => (complete_iff_wellSent hsucc).mp (h hsucc),
    fun h hsucc => (complete_iff_wellSent hsucc).mpr (h hsucc)⟩

end TransferCall

/-- Both chunks bring the first byte; the second byte never comes. -/
def sameByteTwice : List ClientAnswers :=
  [heard { type := FrameType.helloAck.code } [],
   heard { type := FrameType.chunk.code, chunkId := 0, length := 1 } [7],
   heard { type := FrameType.chunk.code, chunkId := 1, length := 1 } [8],
   heard { type := FrameType.commit.code } []]

instance (st : ClientState) : Decidable st.Succeeded :=
  match h : st.phase with
  | .returned r => decidable_of_iff (r.ok = true) (by simp [ClientState.Succeeded, h])
  | .awaitHelloAck | .receiving => .isFalse (by simp [ClientState.Succeeded, h])

/-- A peer that sends what it was asked for. -/
theorem in_one_chunk_complete :
    twoBytes.Succeeds inOneChunk ∧ twoBytes.Complete (twoBytes.turns inOneChunk) := by
  have hs : twoBytes.Succeeds inOneChunk := by
    unfold TransferCall.Succeeds
    decide +kernel
  refine ⟨hs, (twoBytes.success_complete_iff inOneChunk).mpr (fun _ => ?_) hs⟩
  exact ⟨by decide +kernel, by decide +kernel, by decide +kernel, by decide +kernel⟩

theorem same_byte_twice_succeeds :
    twoBytes.Succeeds sameByteTwice ∧ ¬ twoBytes.Complete (twoBytes.turns sameByteTwice) := by
  have hmult : multiplicity ((twoBytes.chunks (twoBytes.turns sameByteTwice)).map
      DecodedFrame.span) 1 = 0 := by decide +kernel
  refine ⟨?_, fun h => ?_⟩
  · unfold TransferCall.Succeeds
    decide +kernel
  · have := h.tiles 1
    rw [hmult] at this
    exact absurd this (by decide)

end TransferFabric
