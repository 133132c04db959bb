import TransferFabric.Runtime.Bytes
import TransferFabric.Runtime.Gauges

/-!
What a client may conclude from a terminal state. `finalize` publishes the state
first and then moves the counters and gives the staging buffers back, so a client
that looks in between sees a transfer that has ended and is recorded nowhere. The
conclusion holds in runs in which nobody looks in between and no submission gives
up because of a dependency, which no counter records.
-/

namespace TransferFabric

open Interaction Relation

/-- The answer says that the transfer has ended. -/
def sawEnd : RtEvent → Option Ref
  | ⟨.load r, t⟩ => if (Transfer.state t).isTerminal then some r else none
  | ⟨.stateOf r, s⟩ => if TransferState.isTerminal s then some r else none
  | ⟨.awaitTerminal r, _⟩ => some r
  | _ => none

/-- The call ends the transfer. -/
def settles (r : Ref) : RtEvent → Bool
  | ⟨.setTerminal r' _ _, _⟩ => r' = r
  | _ => false

/-- A call of a client that asks about transfers, or about nothing. -/
def Op.asks (op : Op) : Bool := !op.isSubmit && !op.isWork

namespace Runtime

variable {rt : Runtime} {σ σ' : System} {i : Tid} {r : Ref}

/-- A client has been told that the transfer has ended. -/
def Observed (σ : System) (r : Ref) : Prop :=
  ∃ (i : Tid) (op : Op), σ.world.calls[i]? = some op ∧ op.asks = true ∧
    ∃ ev ∈ σ.world.past i, sawEnd ev = some r

/-- No thread is still busy with the end of the transfer. -/
def settledFor (σ : System) (r : Ref) : Bool :=
  (List.range σ.threads.length).all fun j =>
    !(σ.world.past j).any (settles r) || (returned σ j).isSome

/-- A client is told of the end of a transfer only after the thread that ended it has returned,
and a submission is told of completed dependencies only. -/
def patient (σ : System) (i : Tid) (ev : RtEvent) : Bool :=
  match σ.world.calls[i]? with
  | none => true
  | some op =>
      (!op.asks || (sawEnd ev).all (settledFor σ)) &&
        (!op.isSubmit || (waits [ev]).all fun p => p.2 = .completed)

/-- Every transfer is recorded: none is counted as active, each is counted under its outcome and
with its bytes, and no staging buffer is out. -/
structure Recorded (rt : Runtime) (σ : System) : Prop where
  active : σ.world.telemetry.active = 0
  ended : ∀ r < σ.world.next, (σ.world.heap r).state = .completed ∨
    (σ.world.heap r).state = .cancelled ∨ (σ.world.heap r).state = .failed
  completed : σ.world.telemetry.completed = UInt64.ofNat (inState σ .completed)
  failed : σ.world.telemetry.failed = UInt64.ofNat (inState σ .failed)
  cancelled : σ.world.telemetry.cancelled = UInt64.ofNat (inState σ .cancelled)
  moved : σ.world.telemetry.bytesMoved = completedBytes σ fun _ => True
  verified : σ.world.telemetry.bytesVerified = completedBytes σ (Transfer.verifies rt)
  staging : ∀ r < σ.world.next, σ.world.heldBy r = []

/-- What patience buys: a transfer seen ended has ended, and nobody is busy with it. -/
structure Patience (σ : System) : Prop where
  ended : ∀ r, Observed σ r → r < σ.world.next ∧ (σ.world.heap r).state.isTerminal = true
  idle : ∀ r, Observed σ r → ∀ j s e, (⟨.setTerminal r s e, ()⟩ : RtEvent) ∈ σ.world.past j →
    (returned σ j).isSome = true

theorem sawEnd_ended {w : World} {l : Tid → View} {n : Nat} {careful : Prop} {c : RtCall}
    {x : RtAnswer c} (h : Coupled rt w l n) (hi : i < n) (hp : (l i).Permits rt careful c)
    (hx : w.Answers c x) (hsaw : sawEnd ⟨c, x⟩ = some r) :
    r < w.next ∧ (w.heap r).state.isTerminal = true := by
  have hfound : ∀ r, (l i).Found r → r < w.next := by
    rintro r ⟨id, hmem⟩
    exact (h.truth.found i hi id r hmem).1
  cases c with
  | load r' =>
      obtain rfl := hx.load
      change (if (w.heap r').state.isTerminal then some r' else none) = some r at hsaw
      split_ifs at hsaw with hterm
      obtain rfl := Option.some.inj hsaw
      refine ⟨?_, hterm⟩
      rcases hp with ⟨t, hown⟩ | hfind
      · exact (h.records.own i hi r' t hown).1
      · exact hfound r' hfind
  | stateOf r' =>
      obtain ⟨ch, hx⟩ := hx
      obtain rfl := Option.some.inj hx
      change (if (w.heap r').state.isTerminal then some r' else none) = some r at hsaw
      split_ifs at hsaw with hterm
      obtain rfl := Option.some.inj hsaw
      exact ⟨hfound r' hp, hterm⟩
  | awaitTerminal r' =>
      obtain rfl := Option.some.inj hsaw
      obtain ⟨rfl, hterm⟩ := hx.awaitTerminal
      exact ⟨hfound r' hp, hterm⟩
  | _ => cases hsaw

/-- An observation is an old one or the one of this step. -/
theorem Observed.act {c : RtCall} {x : RtAnswer c} {threads : List (Prog RtSig Result)}
    (h : Observed ⟨σ.world.after i c x, threads⟩ r) :
    Observed σ r ∨ ∃ op, σ.world.calls[i]? = some op ∧ op.asks = true ∧
      sawEnd ⟨c, x⟩ = some r := by
  obtain ⟨j, op, hop, hasks, ev, hev, hsaw⟩ := h
  have hw := σ.world.after_changes i c x
  rw [hw.calls] at hop
  rw [hw.past, Function.update_apply] at hev
  split_ifs at hev with hj
  · subst hj
    rcases List.mem_append.mp hev with hev | hev
    · exact Or.inl ⟨j, op, hop, hasks, ev, hev, hsaw⟩
    · rw [List.mem_singleton.mp hev] at hsaw
      exact Or.inr ⟨op, hop, hasks, hsaw⟩
  · exact Or.inl ⟨j, op, hop, hasks, ev, hev, hsaw⟩

theorem Patience.act (h : Patience σ) (hreach : rt.Reaches σ) {c : RtCall}
    {next : RtAnswer c → Prog RtSig Result} {x : RtAnswer c}
    (hi : σ.threads[i]? = some (.call c next)) (hx : σ.world.Answers c x)
    (hok : patient σ i ⟨c, x⟩ = true) :
    Patience ⟨σ.world.after i c x, σ.threads.set i (next x)⟩ := by
  obtain ⟨l, hl, hpermits, -⟩ := hreach.known
  obtain ⟨hlt, hp⟩ := hpermits i c next hi
  have hw := σ.world.after_changes i c x
  have hstep : rt.Step σ ⟨σ.world.after i c x, σ.threads.set i (next x)⟩ := .act hi ⟨hx, rfl⟩
  have hreturned : ∀ j, (returned σ j).isSome = true →
      (returned ⟨σ.world.after i c x, σ.threads.set i (next x)⟩ j).isSome = true := by
    intro j hj
    obtain ⟨res, hres⟩ := Option.isSome_iff_exists.mp hj
    rw [returned_step hstep hres]
    rfl
  unfold patient at hok
  -- in the state before the step, the record has ended and nobody is busy with it
  have hbefore : ∀ r, Observed ⟨σ.world.after i c x, σ.threads.set i (next x)⟩ r →
      (r < σ.world.next ∧ (σ.world.heap r).state.isTerminal = true) ∧
        ∀ j s e, (⟨.setTerminal r s e, ()⟩ : RtEvent) ∈ σ.world.past j →
          (returned σ j).isSome = true := by
    intro r hobs
    rcases hobs.act with hobs | ⟨op, hop, hasks, hsaw⟩
    · exact ⟨h.ended r hobs, h.idle r hobs⟩
    · refine ⟨sawEnd_ended hl hlt hp hx hsaw, fun j s e hmem => ?_⟩
      simp only [hop, hasks, hsaw, Option.all_some, Bool.not_true, Bool.false_or,
        Bool.and_eq_true] at hok
      have hj : j < σ.threads.length := by
        by_contra hge
        rw [hl.history.silent j (Nat.le_of_not_lt hge)] at hmem
        cases hmem
      have hsettled := List.all_eq_true.mp hok.1 j (List.mem_range.mpr hj)
      have hany : (σ.world.past j).any (settles r) = true :=
        List.any_eq_true.mpr ⟨_, hmem, by simp [settles]⟩
      simpa [hany] using hsettled
  refine ⟨fun r hobs => ?_, fun r hobs j s e hmem => ?_⟩
  · obtain ⟨⟨hr, hterm⟩, -⟩ := hbefore r hobs
    refine ⟨Nat.lt_of_lt_of_le hr (Records.grows hp hx).1, ?_⟩
    show ((σ.world.after i c x).heap r).state.isTerminal = true
    rwa [Transfer.state, Truth.final hl.records hlt hp hx hr hterm]
  · obtain ⟨⟨hr, hterm⟩, hidle⟩ := hbefore r hobs
    refine hreturned j ?_
    change _ ∈ (σ.world.after i c x).past j at hmem
    rw [hw.past, Function.update_apply] at hmem
    split_ifs at hmem with hj
    · subst hj
      rcases List.mem_append.mp hmem with hmem | hmem
      · exact hidle j s e hmem
      · -- a record that has ended is not ended again
        cases List.mem_singleton.mp hmem
        obtain ⟨⟨t, hown, hlive, -⟩, -⟩ := hp
        rw [(hl.records.own j hlt r t hown).2, hlive] at hterm
        cases hterm
    · exact hidle j s e hmem

theorem Patience.start (h : Patience σ) (hreach : rt.Reaches σ) {prog : Prog RtSig Result}
    {w' : World} (hs : rt.Starts σ.world prog w') : Patience ⟨w', σ.threads ++ [prog]⟩ := by
  obtain ⟨hpast, hheap, hnext, new, hcalls⟩ := hs.same
  have hstep : rt.Step σ ⟨w', σ.threads ++ [prog]⟩ := .start hs
  -- the new thread has not been told anything
  have hold : ∀ i op, w'.calls[i]? = some op → σ.world.calls[i]? = some op ∨ σ.world.past i = [] := by
    intro i op hop
    rw [hcalls] at hop
    by_cases hi : i < σ.world.calls.length
    · rw [List.getElem?_append_left hi] at hop
      exact Or.inl hop
    · exact Or.inr (hreach.kept.silent i (hreach.calls_length ▸ Nat.le_of_not_lt hi))
  have hobs : ∀ r, Observed ⟨w', σ.threads ++ [prog]⟩ r → Observed σ r := by
    rintro r ⟨i, op, hop, hasks, ev, hev, hsaw⟩
    change ev ∈ w'.past i at hev
    rw [hpast] at hev
    rcases hold i op hop with hop | hsilent
    · exact ⟨i, op, hop, hasks, ev, hev, hsaw⟩
    · rw [hsilent] at hev
      cases hev
  refine ⟨fun r hr => ?_, fun r hr j s e hmem => ?_⟩
  · show r < w'.next ∧ (w'.heap r).state.isTerminal = true
    rw [hnext, hheap]
    exact h.ended r (hobs r hr)
  · change _ ∈ w'.past j at hmem
    rw [hpast] at hmem
    obtain ⟨res, hres⟩ := Option.isSome_iff_exists.mp (h.idle r (hobs r hr) j s e hmem)
    rw [returned_step hstep hres]
    rfl

theorem ReachesWhere.patience (h : rt.ReachesWhere patient σ) : Patience σ := by
  induction h with
  | refl =>
      refine ⟨?_, ?_⟩
      · rintro r ⟨i, op, hop, -⟩
        cases hop
      · rintro r ⟨i, op, hop, -⟩
        cases hop
  | @tail σ₁ σ₂ hrun hstep ih =>
      have hreach := ReachesWhere.reaches hrun
      cases hstep with
      | act hi he hok =>
          obtain ⟨hx, rfl⟩ := he
          exact ih.act hreach hi hx hok
      | start hs => exact ih.start hreach hs

theorem ReachesWhere.calm (h : rt.ReachesWhere patient σ) {op : Op}
    (hop : σ.world.calls[i]? = some op) (hsubmit : op.isSubmit = true) :
    ∀ p ∈ waits (σ.world.past i), p.2 = .completed := by
  have hevents := h.events (fun op ev => op.isSubmit = true →
    ∀ p ∈ waits [ev], p.2 = .completed) ?_ hop
  · intro p hp
    obtain ⟨ev, hev, hw⟩ := List.mem_filterMap.mp hp
    exact hevents ev hev hsubmit p (List.mem_filterMap.mpr ⟨ev, List.mem_singleton_self ev, hw⟩)
  · intro σ i op ev hop hok hsubmit p hp
    unfold patient at hok
    simp only [hop, hsubmit, Bool.not_true, Bool.false_or, Bool.and_eq_true] at hok
    simpa using List.all_eq_true.mp hok.2 p hp

/-! When everybody has seen every transfer end. -/

section Seen

variable {l : Tid → Sheet} (hp : Patience σ) (hseen : ∀ r < σ.world.next, Observed σ r)
  (hl : rt.audit.Holds σ l)

include hp hseen hl

/-- A thread that has ended its record has returned. -/
theorem Patience.closer (hi : i < σ.threads.length) {s : TransferState}
    (hclosed : (l i).1.closed = some s) : (returned σ i).isSome = true := by
  obtain ⟨r, e, hmem⟩ := hl.1.closings.closed i hi s hclosed
  obtain ⟨-, t, hown⟩ := hl.1.closings.past i hi r s e hmem
  exact hp.idle r (hseen r (hl.1.coupled.records.own i hi r t hown).1) i s e hmem

/-- Every record was ended by a thread that still has it and that has returned. -/
theorem Patience.ender (hr : r < σ.world.next) :
    ∃ i < σ.threads.length, ∃ t, (l i).1.own = some (r, t) ∧
      (l i).1.closed = some (σ.world.heap r).state ∧ (returned σ i).isSome = true := by
  obtain ⟨-, hterm⟩ := hp.ended r (hseen r hr)
  obtain ⟨i, hi, e, hmem⟩ := hl.1.closings.ended r hr hterm
  obtain ⟨hclosed, t, hown⟩ := hl.1.closings.past i hi r _ e hmem
  exact ⟨i, hi, t, hown, hclosed, hp.idle r (hseen r hr) i _ e hmem⟩

theorem Patience.finished : Finished σ := by
  obtain ⟨hcoupled, -, -, hequipped, -⟩ := hl.1
  refine ⟨List.eq_nil_iff_forall_not_mem.mpr fun task htask => ?_, fun i task hop => ?_⟩
  · obtain ⟨hr, hready, -⟩ := hcoupled.records.queued task htask
    have hterm := (hp.ended task.ref (hseen task.ref hr)).2
    rw [hready.queued] at hterm
    cases hterm
  · have hi : i < σ.threads.length := by
      rw [← hcoupled.history.length]
      exact (List.getElem?_eq_some_iff.mp hop).1
    obtain ⟨t, hown⟩ := hequipped i hi task
      (Option.some.inj ((hcoupled.history.op i hi).symm.trans hop))
    obtain ⟨j, hj, t', hown', -, hret⟩ :=
      hp.ender hseen hl (hcoupled.records.own i hi task.ref t hown).1
    rwa [hcoupled.records.apart i hi j hj task.ref t t' hown hown']

/-- No submission has seen a dependency fail, so every outcome that was given was counted. -/
theorem Patience.counted (hcalm : ∀ i op, σ.world.calls[i]? = some op → op.isSubmit = true →
    ∀ p ∈ waits (σ.world.past i), p.2 = .completed) (hi : i < σ.threads.length)
    (s : TransferState) :
    (l i).1.counted = some s ↔ (l i).1.closed = some s := by
  obtain ⟨hcoupled, -, hclosings, -, -⟩ := hl.1
  refine ⟨hclosings.counted i hi s, fun hclosed => ?_⟩
  obtain ⟨res, hres⟩ := Option.isSome_iff_exists.mp (hp.closer hseen hl hi hclosed)
  have hrest := (hl.returned (returned_eq hres)).1.1.atRest
  have hnone : (l i).1.sawFailure = false := by
    rw [View.sawFailure, Bool.and_eq_false_imp]
    intro hsubmit
    rw [List.any_eq_false, show (l i).1.awaited = waits (σ.world.past i) from
      hcoupled.history.awaited i hi]
    intro p hmem
    simp [hcalm i _ (hcoupled.history.op i hi) hsubmit p hmem]
  rcases hrest.terminal s hclosed with rfl | rfl | rfl
  · exact (hrest.outcome _ (Or.inl rfl)).mp hclosed
  · exact (hrest.outcome _ (Or.inr rfl)).mp hclosed
  · have hfailed := hrest.failed
    rw [hnone, decide_eq_true hclosed] at hfailed
    simpa using hfailed.symm

/-- The thread that ended a transfer has given back its staging buffers. -/
theorem Patience.staging (hr : r < σ.world.next) : σ.world.heldBy r = [] := by
  obtain ⟨hcoupled, hholdings, -, -, -⟩ := hl.1
  obtain ⟨i, hi, t, hown, -, hret⟩ := hp.ender hseen hl hr
  obtain ⟨res, hres⟩ := Option.isSome_iff_exists.mp hret
  obtain ⟨⟨-, hcareful⟩, hworked⟩ := hl.returned (returned_eq hres)
  have hbufs : (l i).1.bufs = [] := by
    cases hop : (l i).1.op with
    | submit opts => exact hcareful (by rw [hop]; rfl) _ hown
    | work task =>
        obtain ⟨t', e, hw⟩ := hworked task hop
        exact hw.bufs
    | _ =>
        have hidle : (l i).1.Idle := hcoupled.ledger.aside i hi (by simp [hop, Op.isSubmit])
          (by simp [hop, Op.isWork])
        rw [hidle.own] at hown
        cases hown
  have hperm := hholdings.mine i hi r t hown
  exact List.perm_nil.mp (hbufs ▸ hperm.symm :)

end Seen

/-- In a run in which no client is told of the end of a transfer before the thread that ended it
has returned, and no submission is told of a dependency that did not complete: once clients have
been told of the end of every transfer, every transfer is recorded. -/
theorem observed_recorded (h : rt.ReachesWhere patient σ)
    (hseen : ∀ r < σ.world.next, Observed σ r) : Recorded rt σ := by
  have hp := h.patience
  have hreach := h.reaches
  obtain ⟨l, hl⟩ := hreach.audited
  have hfinished := hp.finished hseen hl
  have hledger := hl.1.coupled.ledger
  have houtcome : ∀ s, TransferState.isTerminal s = true →
      σ.world.telemetry.outcome s = UInt64.ofNat (inState σ s) := by
    intro s hterm
    rw [hledger.outcome s]
    refine congrArg UInt64.ofNat (Eq.trans ?_ (hledger.closed s hterm).symm)
    exact tally_congr fun i hi => decide_eq_decide.mpr
      (hp.counted hseen hl (fun _ _ hop hsubmit => h.calm hop hsubmit) hi s)
  refine ⟨?_, fun r hr => ?_, houtcome .completed rfl, houtcome .failed rfl,
    houtcome .cancelled rfl, hfinished.bytesMoved hreach, hfinished.bytesVerified hreach,
    fun r hr => hp.staging hseen hl hr⟩
  · rw [hreach.gauges.active, hfinished.running hreach]
    rfl
  · obtain ⟨i, hi, t, -, hclosed, hret⟩ := hp.ender hseen hl hr
    obtain ⟨res, hres⟩ := Option.isSome_iff_exists.mp hret
    exact (hl.returned (returned_eq hres)).1.1.atRest.terminal _ hclosed

theorem observed_of_check (hop : (σ.world.calls[i]?).any Op.asks = true)
    (hsaw : ((σ.world.past i).any fun ev => sawEnd ev = some r) = true) : Observed σ r := by
  obtain ⟨ev, hev, hsaw⟩ := List.any_eq_true.mp hsaw
  cases hcall : σ.world.calls[i]? with
  | none =>
      rw [hcall] at hop
      cases hop
  | some op =>
      rw [hcall] at hop
      exact ⟨i, op, hcall, hop, ev, hev, of_decide_eq_true hsaw⟩

/-- One transfer of sixteen bytes; a client waits for it after `k` steps of its worker. -/
def waitAfter (k : Nat) : List Move :=
  oneTransfer ++ .task :: (List.replicate k (.act 3 (fair 0)) ++
    Move.whole 4 2 (.wait { hi := 0, lo := 7 }) 0)

theorem waitAfter_recorded :
    (loopback.play (waitAfter 40)).world.next = 1 ∧
      Recorded loopback (loopback.play (waitAfter 40)) := by
  have hnext : (loopback.play (waitAfter 40)).world.next = 1 := by decide +kernel
  refine ⟨hnext, observed_recorded (play_where (by decide +kernel)) fun r hr => ?_⟩
  obtain rfl : r = 0 := by rw [hnext] at hr; exact Nat.lt_one_iff.mp hr
  exact observed_of_check (i := 4) (by decide +kernel) (by decide +kernel)

/-- The worker has published the end and not yet counted it: the wait has returned, and the only
transfer is counted as active and not as completed. -/
theorem waitAfter_unrecorded :
    loopback.Reaches (loopback.play (waitAfter 12)) ∧
      (loopback.play (waitAfter 12)).world.next = 1 ∧ Observed (loopback.play (waitAfter 12)) 0 ∧
      (returned (loopback.play (waitAfter 12)) 4).isSome = true ∧
      (loopback.play (waitAfter 12)).world.telemetry.active = 1 ∧
      (loopback.play (waitAfter 12)).world.telemetry.completed = 0 ∧
      ¬ Recorded loopback (loopback.play (waitAfter 12)) := by
  have hactive : (loopback.play (waitAfter 12)).world.telemetry.active = 1 := by decide +kernel
  refine ⟨loopback.play_reaches _, by decide +kernel,
    observed_of_check (i := 4) (by decide +kernel) (by decide +kernel), by decide +kernel, hactive,
    by decide +kernel, fun hrec => ?_⟩
  have hzero := hrec.active
  rw [hactive] at hzero
  cases hzero

end Runtime

end TransferFabric
