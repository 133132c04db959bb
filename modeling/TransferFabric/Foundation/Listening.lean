import TransferFabric.Foundation.Framing

/-!
A party that listens to a byte stream: each segment that arrives is appended to
its buffer, and then the buffer is scanned once. A second frame of the same
segment stays in the buffer until more bytes arrive. What the party has done by
then depends on how the stream was cut, unless the frames come far enough apart;
how far is the length of the longest segment. A party that drained its buffer
would not depend on the cuts at all, and serves as the reference.
-/

namespace Framing

/-- Frames are taken one after the other as long as the party runs; what it does with
one may depend on those before. A frame is recognised by its own bytes, and rejecting
the same bytes again changes nothing. -/
structure Listener (B F E S : Type) extends Scanner B F E where
  scan_nil : scan [] = .wait
  exact : ∀ {s f r}, scan s = .frame f r → ∃ t, s = t ++ r ∧ scan t = .frame f []
  running : S → Bool
  take : List F → S → F → S
  reject : List F → S → E → S
  reject_reject : ∀ log st e, reject log (reject log st e) e = reject log st e

/-- A party with the frames it has taken and the bytes it has not. -/
structure Listening (B F S : Type) where
  state : S
  log : List F := []
  buf : List B := []

namespace Listener

variable {B F E S O : Type} (L : Listener B F E S)

def hear (x : Listening B F S) (seg : List B) : Listening B F S :=
  if L.running x.state then
    match L.scan (x.buf ++ seg) with
    | .frame f r => { state := L.take x.log x.state f, log := x.log ++ [f], buf := r }
    | .wait => { x with buf := x.buf ++ seg }
    | .bad e => { x with state := L.reject x.log x.state e, buf := x.buf ++ seg }
  else x

def run (st : S) (segs : List (List B)) : Listening B F S := segs.foldl L.hear { state := st }

/-- Everything the buffer has to offer is taken. -/
def settle (x : Listening B F S) : Listening B F S :=
  if L.running x.state then
    match h : L.scan x.buf with
    | .frame f r =>
        have := L.shrinks h
        settle { state := L.take x.log x.state f, log := x.log ++ [f], buf := r }
    | .wait => x
    | .bad e => { x with state := L.reject x.log x.state e }
  else x
termination_by x.buf.length

/-- A state in which the frames of `stream` in `log` have been taken, one by one, with
what they leave of the stream. -/
inductive Takes (st : S) (stream : List B) : List F → S → List B → Prop where
  | start : Takes st stream [] st stream
  | take {log : List F} {st' : S} {s r : List B} {f : F} (h : Takes st stream log st' s)
      (hrun : L.running st' = true) (hscan : L.scan s = .frame f r) :
      Takes st stream (log ++ [f]) (L.take log st' f) r

end Listener

/-- The stream arrives in these pieces, of at most `n` bytes each. -/
structure Segmentation {B : Type} (n : Nat) (stream : List B) (segs : List (List B)) : Prop where
  flatten : segs.flatten = stream
  sizes : ∀ seg ∈ segs, seg ≠ [] ∧ seg.length ≤ n

namespace Segmentation

variable {B : Type} {n : Nat} {w w' : List B} {segs segs' : List (List B)}

theorem nil : Segmentation n ([] : List B) [] := ⟨rfl, List.forall_mem_nil _⟩

theorem single (hne : w ≠ []) (hlen : w.length ≤ n) : Segmentation n w [w] :=
  ⟨List.flatten_singleton, List.forall_mem_singleton.mpr ⟨hne, hlen⟩⟩

theorem append (h : Segmentation n w segs) (h' : Segmentation n w' segs') :
    Segmentation n (w ++ w') (segs ++ segs') :=
  ⟨by rw [List.flatten_append, h.flatten, h'.flatten],
    List.forall_mem_append.mpr ⟨h.sizes, h'.sizes⟩⟩

/-- A cut after every byte. -/
theorem bytes (hn : 0 < n) (w : List B) : Segmentation n w (w.map fun b => [b]) := by
  induction w with
  | nil => exact nil
  | cons b w ih => exact (single (List.cons_ne_nil b []) hn).append ih

end Segmentation

namespace Listener

variable {B F E S O : Type} (L : Listener B F E S) (obs : S → O) (n : Nat) (st : S)

/-- However any part of the stream is cut, the party has taken the same frames, is seen in
the same state, and holds no frame back while it runs. -/
def Uniform (stream : List B) : Prop :=
  ∀ part, part <+: stream → ∀ segs segs', Segmentation n part segs → Segmentation n part segs' →
    (L.run st segs).log = (L.run st segs').log ∧
      obs (L.run st segs).state = obs (L.run st segs').state ∧
      (L.running (L.run st segs).state = true → ∀ f r, L.scan (L.run st segs).buf ≠ .frame f r)

/-- After each frame a running party takes, what can arrive in the same segment holds no
other frame, nor anything whose rejection would be seen. -/
def Spaced (stream : List B) : Prop :=
  ∀ log st' r, L.Takes st stream log st' r → log ≠ [] → L.running st' = true →
    (∀ f r', L.scan (r.take (n - 1)) ≠ .frame f r') ∧
      ∀ e, L.scan (r.take (n - 1)) = .bad e → obs (L.reject log st' e) = obs st'

variable {L} {obs} {n} {st} {x : Listening B F S} {seg stream : List B}

section Hear

theorem hear_idle (h : L.running x.state = false) : L.hear x seg = x := by
  rw [hear, h]
  rfl

theorem hear_frame (hrun : L.running x.state = true) {f : F} {r : List B}
    (h : L.scan (x.buf ++ seg) = .frame f r) :
    L.hear x seg = { state := L.take x.log x.state f, log := x.log ++ [f], buf := r } := by
  rw [hear, if_pos hrun, h]

theorem hear_wait (hrun : L.running x.state = true) (h : L.scan (x.buf ++ seg) = .wait) :
    L.hear x seg = { x with buf := x.buf ++ seg } := by
  rw [hear, if_pos hrun, h]

theorem hear_bad (hrun : L.running x.state = true) {e : E} (h : L.scan (x.buf ++ seg) = .bad e) :
    L.hear x seg = { x with state := L.reject x.log x.state e, buf := x.buf ++ seg } := by
  rw [hear, if_pos hrun, h]

theorem settle_idle (h : L.running x.state = false) : L.settle x = x := by
  rw [settle, h]
  rfl

theorem settle_frame (hrun : L.running x.state = true) {f : F} {r : List B}
    (h : L.scan x.buf = .frame f r) :
    L.settle x =
      L.settle { state := L.take x.log x.state f, log := x.log ++ [f], buf := r } := by
  rw [settle, if_pos hrun]
  split <;> simp_all

theorem settle_wait (hrun : L.running x.state = true) (h : L.scan x.buf = .wait) :
    L.settle x = x := by
  rw [settle, if_pos hrun]
  split <;> simp_all

theorem settle_bad (hrun : L.running x.state = true) {e : E} (h : L.scan x.buf = .bad e) :
    L.settle x = { x with state := L.reject x.log x.state e } := by
  rw [settle, if_pos hrun]
  split <;> simp_all

end Hear

/-! The reference. -/

/-- What the party has done, apart from its buffer. -/
def done (x : Listening B F S) : S × List F := (x.state, x.log)

theorem done_settle_bad {log : List F} {buf : List B} {e : E} {st' : S}
    (hst : L.reject log st' e = st') (h : L.scan buf = .bad e) :
    done (L.settle { state := st', log := log, buf := buf }) = (st', log) := by
  cases hrun : L.running st' with
  | false => rw [settle_idle hrun]; rfl
  | true =>
      rw [settle_bad (x := { state := st', log := log, buf := buf }) hrun h]
      simp only [done, hst]

/-- Hearing a segment first does not change what settling does in the end. -/
theorem done_settle_hear (x : Listening B F S) (seg rest : List B) :
    done (L.settle { L.hear x seg with buf := (L.hear x seg).buf ++ rest }) =
      done (L.settle { x with buf := x.buf ++ seg ++ rest }) := by
  cases hrun : L.running x.state with
  | false =>
      rw [hear_idle hrun, settle_idle (x := { x with buf := x.buf ++ rest }) hrun,
        settle_idle (x := { x with buf := x.buf ++ seg ++ rest }) hrun]
      rfl
  | true =>
      cases hscan : L.scan (x.buf ++ seg) with
      | frame f r =>
          rw [hear_frame hrun hscan, settle_frame (x := { x with buf := x.buf ++ seg ++ rest }) hrun
            (L.frame_append rest hscan)]
      | wait => rw [hear_wait hrun hscan]
      | bad e =>
          have hbad := L.bad_append rest hscan
          rw [hear_bad hrun hscan, settle_bad (x := { x with buf := x.buf ++ seg ++ rest }) hrun hbad]
          exact done_settle_bad (L.reject_reject x.log x.state e) hbad

/-- A party that settles in the end has done the same for any cuts. -/
theorem done_settle_run (segs : List (List B)) (x : Listening B F S) :
    done (L.settle (segs.foldl L.hear x)) =
      done (L.settle { x with buf := x.buf ++ segs.flatten }) := by
  induction segs generalizing x with
  | nil => simp
  | cons seg segs ih =>
      rw [List.foldl_cons, ih, List.flatten_cons, ← List.append_assoc]
      exact done_settle_hear x seg segs.flatten

/-! Frames far enough apart. -/

/-- Settling would change nothing that is seen. -/
def Settled (L : Listener B F E S) (obs : S → O) (x : Listening B F S) : Prop :=
  L.running x.state = true →
    (∀ f r, L.scan x.buf ≠ .frame f r) ∧
      ∀ e, L.scan x.buf = .bad e → obs (L.reject x.log x.state e) = obs x.state

theorem Settled.settle (h : L.Settled obs x) :
    (L.settle x).log = x.log ∧ obs (L.settle x).state = obs x.state := by
  cases hrun : L.running x.state with
  | false =>
      rw [settle_idle hrun]
      exact ⟨rfl, rfl⟩
  | true =>
      obtain ⟨hframe, hbad⟩ := h hrun
      cases hscan : L.scan x.buf with
      | frame f r => exact absurd hscan (hframe f r)
      | wait =>
          rw [settle_wait hrun hscan]
          exact ⟨rfl, rfl⟩
      | bad e =>
          rw [settle_bad hrun hscan]
          exact ⟨rfl, hbad e hscan⟩

/-- Where a settled party can be, with `rest` of the stream to come: after some of the
frames, before bytes it keeps rejecting, or done. -/
inductive Follows (L : Listener B F E S) (obs : S → O) (st : S) (stream : List B)
    (x : Listening B F S) (rest : List B) : Prop where
  | taking (h : L.Takes st stream x.log x.state (x.buf ++ rest)) (hset : L.Settled obs x)
  | stuck (e : E) (hbad : L.scan x.buf = .bad e) (hfix : L.reject x.log x.state e = x.state)
  | idle (hrun : L.running x.state = false)

theorem Follows.settled {rest : List B} (h : L.Follows obs st stream x rest) :
    L.Settled obs x := by
  cases h with
  | taking _ hset => exact hset
  | stuck e hbad hfix =>
      refine fun _ => ⟨fun f r hf => ?_, fun e' he => ?_⟩
      · rw [hbad] at hf
        cases hf
      · rw [hbad] at he
        cases he
        rw [hfix]
  | idle hrun =>
      intro h
      rw [hrun] at h
      cases h

/-- A frame that was not there before the segment ends in it. -/
theorem length_lt_of_fresh {buf r : List B} {f : F} (hfresh : ∀ f r, L.scan buf ≠ .frame f r)
    (h : L.scan (buf ++ seg) = .frame f r) : r.length < seg.length := by
  obtain ⟨t, hsplit, ht⟩ := L.exact h
  by_contra hlen
  have hle : t.length ≤ buf.length := by
    have := congrArg List.length hsplit
    simp only [List.length_append] at this
    omega
  obtain ⟨u, rfl⟩ : t <+: buf :=
    List.prefix_of_prefix_length_le ⟨r, hsplit.symm⟩ (List.prefix_append buf seg) hle
  exact hfresh f _ (L.frame_append u ht)

theorem Follows.hear {rest : List B} (hspaced : L.Spaced obs n st stream)
    (h : L.Follows obs st stream x (seg ++ rest)) (hlen : seg.length ≤ n) :
    L.Follows obs st stream (L.hear x seg) rest := by
  cases hrun : L.running x.state with
  | false =>
      rw [hear_idle hrun]
      exact .idle hrun
  | true =>
      cases h with
      | idle hidle =>
          rw [hrun] at hidle
          cases hidle
      | stuck e hbad hfix =>
          have hmore := L.bad_append seg hbad
          rw [hear_bad hrun hmore, hfix]
          exact .stuck e hmore hfix
      | taking htakes hset =>
          rw [← List.append_assoc] at htakes
          cases hscan : L.scan (x.buf ++ seg) with
          | wait =>
              rw [hear_wait hrun hscan]
              refine .taking htakes fun _ => ⟨fun f r hf => ?_, fun e he => ?_⟩
              · cases hscan.symm.trans hf
              · cases hscan.symm.trans he
          | bad e =>
              rw [hear_bad hrun hscan]
              exact .stuck e hscan (L.reject_reject _ _ _)
          | frame f r =>
              have hnext := htakes.take hrun (L.frame_append rest hscan)
              have hshort := length_lt_of_fresh (hset hrun).1 hscan
              rw [hear_frame hrun hscan]
              refine .taking hnext fun hrun' => ?_
              obtain ⟨hframe, hbad⟩ := hspaced _ _ _ hnext (by simp) hrun'
              obtain ⟨u, hu⟩ : r <+: (r ++ rest).take (n - 1) := by
                refine List.prefix_of_prefix_length_le (List.prefix_append r rest)
                  (List.take_prefix _ _) ?_
                rw [List.length_take, List.length_append]
                omega
              rw [← hu] at hframe hbad
              exact ⟨fun g r' hg => hframe g _ (L.frame_append u hg),
                fun e he => hbad e (L.bad_append u he)⟩

theorem follows_run (hspaced : L.Spaced obs n st stream) {segs : List (List B)} {rest : List B}
    (hsplit : segs.flatten ++ rest = stream) (hsizes : ∀ seg ∈ segs, seg ≠ [] ∧ seg.length ≤ n) :
    L.Follows obs st stream (L.run st segs) rest := by
  have hgo : ∀ (segs : List (List B)) (x : Listening B F S),
      L.Follows obs st stream x (segs.flatten ++ rest) →
      (∀ seg ∈ segs, seg ≠ [] ∧ seg.length ≤ n) →
      L.Follows obs st stream (segs.foldl L.hear x) rest := by
    intro segs
    induction segs with
    | nil => exact fun x h _ => h
    | cons seg segs ih =>
        intro x h hsizes
        obtain ⟨hseg, hsegs⟩ := List.forall_mem_cons.mp hsizes
        rw [List.flatten_cons, List.append_assoc] at h
        exact ih _ (h.hear hspaced hseg.2) hsegs
  refine hgo segs { state := st } ?_ hsizes
  refine .taking ?_ fun _ => ⟨fun f r hf => ?_, fun e he => ?_⟩
  · rw [hsplit]
    exact .start
  · cases L.scan_nil.symm.trans hf
  · cases L.scan_nil.symm.trans he

theorem Spaced.uniform (h : L.Spaced obs n st stream) : L.Uniform obs n st stream := by
  rintro part ⟨rest, rfl⟩ segs segs' hsegs hsegs'
  have hset := (follows_run h (by rw [hsegs.flatten]) hsegs.sizes).settled
  have hset' := (follows_run h (by rw [hsegs'.flatten]) hsegs'.sizes).settled
  -- both end where a settled party would
  have hsame : done (L.settle (L.run st segs)) = done (L.settle (L.run st segs')) := by
    rw [run, run, done_settle_run, done_settle_run, hsegs.flatten, hsegs'.flatten]
  have hlog : (L.settle (L.run st segs)).log = (L.settle (L.run st segs')).log :=
    congrArg Prod.snd hsame
  have hstate : (L.settle (L.run st segs)).state = (L.settle (L.run st segs')).state :=
    congrArg Prod.fst hsame
  refine ⟨?_, ?_, fun hrun => (hset hrun).1⟩
  · rw [← hset.settle.1, hlog, hset'.settle.1]
  · rw [← hset.settle.2, hstate, hset'.settle.2]

/-! Frames too close. -/

/-- Byte by byte, a frame shows itself at its last byte. -/
theorem hear_bytes (u v : List B) (hrun : L.running x.state = true) (hv : v ≠ []) {f : F}
    (hscan : L.scan (x.buf ++ u ++ v) = .frame f []) :
    (u.map fun b => [b]).foldl L.hear x = { x with buf := x.buf ++ u } := by
  induction u generalizing x with
  | nil => simp
  | cons b u ih =>
      have hwait : L.scan (x.buf ++ [b]) = .wait :=
        Scanner.scan_wait_of_append (t := u ++ v) (f := f) (by simpa using hscan) (by simp [hv])
      rw [List.map_cons, List.foldl_cons, hear_wait hrun hwait,
        ih (x := { x with buf := x.buf ++ [b] }) hrun (by simpa using hscan)]
      simp

theorem exists_last {t : List B} {f : F} (h : L.scan t = .frame f []) : ∃ u b, t = u ++ [b] := by
  have hne : t ≠ [] := by
    rintro rfl
    cases L.scan_nil.symm.trans h
  exact ⟨_, _, (List.dropLast_concat_getLast hne).symm⟩

/-- The bytes of the frames taken so far, with a cut after every byte. -/
theorem Takes.bytes (hn : 0 < n) {log : List F} {st' : S} {r : List B}
    (h : L.Takes st stream log st' r) :
    ∃ c segs, stream = c ++ r ∧ Segmentation n c segs ∧
      L.run st segs = { state := st', log := log } := by
  induction h with
  | start => exact ⟨[], [], rfl, .nil, rfl⟩
  | @take log st' s r f h hrun hscan ih =>
      obtain ⟨c, segs, rfl, hsegs, hreach⟩ := ih
      obtain ⟨t, rfl, ht⟩ := L.exact hscan
      obtain ⟨u, b, rfl⟩ := exists_last ht
      refine ⟨c ++ (u ++ [b]), segs ++ (u ++ [b]).map fun b => [b], by simp,
        hsegs.append (.bytes hn _), ?_⟩
      rw [run, List.foldl_append, ← run, hreach, List.map_append, List.foldl_append,
        hear_bytes u [b] hrun (by simp) (by simpa using ht)]
      exact hear_frame hrun (by simpa using ht)

theorem Uniform.spaced (hn : 0 < n) (h : L.Uniform obs n st stream) : L.Spaced obs n st stream := by
  intro log st' r htakes hlog hrun'
  cases htakes with
  | start => exact absurd rfl hlog
  | @take log st₀ s r f hbefore hrun hscan =>
      obtain ⟨c, segs, rfl, hsegs, hreach⟩ := hbefore.bytes hn
      obtain ⟨t, rfl, ht⟩ := L.exact hscan
      obtain ⟨u, b, rfl⟩ := exists_last ht
      have hx : (r.take (n - 1)).length ≤ n - 1 := List.length_take_le _ _
      have hpart : c ++ (u ++ ([b] ++ r.take (n - 1))) <+: c ++ (u ++ [b] ++ r) := by
        simpa using List.take_prefix (n - 1) r
      generalize r.take (n - 1) = y at hx hpart
      -- up to the last byte of the frame
      have hedge : L.run st (segs ++ u.map fun b => [b]) = { state := st₀, log := log, buf := u } := by
        rw [run, List.foldl_append, ← run, hreach,
          hear_bytes u [b] hrun (by simp) (by simpa using ht)]
        simp
      -- its last byte together with what follows
      have hheld : L.run st (segs ++ (u.map (fun b => [b]) ++ [[b] ++ y])) =
          { state := L.take log st₀ f, log := log ++ [f], buf := y } := by
        rw [← List.append_assoc, run, List.foldl_append, ← run, hedge]
        exact hear_frame hrun (by simpa using L.frame_append y ht)
      have hclose : Segmentation n (c ++ (u ++ ([b] ++ y)))
          (segs ++ (u.map (fun b => [b]) ++ [[b] ++ y])) :=
        hsegs.append ((Segmentation.bytes hn u).append
          (.single (by simp) (by simp only [List.length_append, List.length_singleton]; omega)))
      refine ⟨fun g r' hg => ?_, fun e he => ?_⟩
      · have hnone := (h _ hpart _ _ hclose hclose).2.2
        rw [hheld] at hnone
        exact hnone hrun' g r' hg
      · -- the same bytes, but the last two segments apart
        have hne : y ≠ [] := by
          rintro rfl
          cases L.scan_nil.symm.trans he
        have hapart : Segmentation n (c ++ (u ++ ([b] ++ y)))
            (segs ++ (u.map (fun b => [b]) ++ ([[b]] ++ [y]))) :=
          hsegs.append ((Segmentation.bytes hn u).append
            (.append (.single (by simp) hn) (.single hne (by omega))))
        have hseen : L.run st (segs ++ (u.map (fun b => [b]) ++ ([[b]] ++ [y]))) =
            { state := L.reject (log ++ [f]) (L.take log st₀ f) e, log := log ++ [f], buf := y } := by
          have hframe : L.hear { state := st₀, log := log, buf := u } [b] =
              { state := L.take log st₀ f, log := log ++ [f], buf := [] } := hear_frame hrun ht
          rw [← List.append_assoc, run, List.foldl_append, ← run, hedge, List.singleton_append,
            List.foldl_cons, hframe]
          exact hear_bad hrun' he
        have hsame := (h _ hpart _ _ hapart hclose).2.1
        rwa [hheld, hseen] at hsame

theorem uniform_iff_spaced (hn : 0 < n) : L.Uniform obs n st stream ↔ L.Spaced obs n st stream :=
  ⟨Uniform.spaced hn, Spaced.uniform⟩

end Listener

end Framing
