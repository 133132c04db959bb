import TransferFabric.Runtime.Discipline
import TransferFabric.Runtime.Moves

/-!
The life of a transfer in every run of the runtime: how its state moves, and what
it means when it has ended.
-/

namespace TransferFabric

open Interaction Relation

namespace Runtime

variable {rt : Runtime} {σ σ' : System} {r : Ref}

/-- A change of a record's state is an entry of the table, except where a request
that moves nothing leaves the active state. -/
theorem state_change_listed_iff (h : rt.Reaches σ) (hs : rt.Step σ σ') (hr : r < σ.world.next)
    (hne : (σ'.world.heap r).state ≠ (σ.world.heap r).state) :
    (σ.world.heap r).state.allowed (σ'.world.heap r).state = true ↔
      ¬ ((σ.world.heap r).Empty ∧ (σ.world.heap r).state = .active) := by
  rcases h.writes hs hr with heq | ⟨m, hwrite⟩
  · exact absurd (congrArg Transfer.state heq) hne
  · exact hwrite.listed hne

/-- A submission up to the moment where its record becomes planned. -/
def planning : List Move := twoRegions 16 ++ Move.whole 2 8 (.submit firstToSecond) 7

theorem planning_listed :
    ((loopback.play planning).world.heap 0).state = .created ∧
      ((loopback.play planning).world.heap 0).state.allowed
        ((actOne (loopback.play planning) 2 (fair 0)).world.heap 0).state = true :=
  ⟨by decide +kernel, (state_change_listed_iff (loopback.play_reaches planning)
    (loopback.actOne_step (by decide +kernel)) (by decide +kernel) (by decide +kernel)).mpr
    (by decide +kernel)⟩

/-- A transfer of no bytes, up to the moment where its worker ends it. -/
def emptyRequest : List Move :=
  twoRegions 0 ++ Move.whole 2 30 (.submit firstToSecond) 7 ++
    .task :: List.replicate 6 (.act 3 (fair 0))

/-- The worker moves the empty request from active to completed. -/
theorem empty_request_unlisted :
    ∃ σ σ' : System, loopback.Reaches σ ∧ loopback.Step σ σ' ∧ 0 < σ.world.next ∧
      (σ.world.heap 0).state = .active ∧ (σ'.world.heap 0).state = .completed ∧
      (σ.world.heap 0).state.allowed (σ'.world.heap 0).state = false :=
  ⟨loopback.play emptyRequest, actOne (loopback.play emptyRequest) 3 (fair 0),
    loopback.play_reaches _, loopback.actOne_step (by decide +kernel), by decide +kernel,
    by decide +kernel, by decide +kernel, by decide +kernel⟩

/-! What a condition on the calls of a run says about the history. -/

theorem ReachesWhere.events {ok : System → Tid → RtEvent → Bool} (good : Op → RtEvent → Prop)
    (hgood : ∀ σ i op ev, σ.world.calls[i]? = some op → ok σ i ev = true → good op ev)
    (h : rt.ReachesWhere ok σ) {i : Tid} {op : Op} (hop : σ.world.calls[i]? = some op) :
    ∀ ev ∈ σ.world.past i, good op ev := by
  induction h with
  | refl => cases hop
  | @tail σ₁ σ₂ hrun hstep ih =>
      have hreach := ReachesWhere.reaches hrun
      cases hstep with
      | @act j c next x w' hj he hok =>
          obtain ⟨-, rfl⟩ := he
          have hw := σ₁.world.after_changes j c x
          change (σ₁.world.after j c x).calls[i]? = some op at hop
          show ∀ ev ∈ (σ₁.world.after j c x).past i, good op ev
          rw [hw.calls] at hop
          rw [hw.past, Function.update_apply]
          split_ifs with hij
          · subst hij
            rw [List.forall_mem_append]
            refine ⟨ih hop, fun ev hev => ?_⟩
            rw [List.mem_singleton.mp hev]
            exact hgood σ₁ i op _ hop hok
          · exact ih hop
      | @start prog w' hs =>
          obtain ⟨hpast, -, -, new, hcalls⟩ := hs.same
          change w'.calls[i]? = some op at hop
          show ∀ ev ∈ w'.past i, good op ev
          rw [hcalls] at hop
          rw [hpast]
          by_cases hi : i < σ₁.world.calls.length
          · rw [List.getElem?_append_left hi] at hop
            exact ih hop
          · have hsilent : σ₁.world.past i = [] :=
              hreach.kept.silent i (hreach.calls_length ▸ Nat.le_of_not_lt hi)
            rw [hsilent]
            exact fun _ hev => by cases hev

/-! The end of a transfer. -/

theorem final_step (h : rt.Reaches σ) (hs : rt.Step σ σ') (hr : r < σ.world.next)
    (hterm : (σ.world.heap r).state.isTerminal = true) :
    (σ'.world.heap r).status = (σ.world.heap r).status := by
  rcases h.writes hs hr with heq | ⟨m, hwrite⟩
  · rw [heq]
  · exact (hwrite.final hterm).1

/-- A record that has ended keeps its status for the rest of the run. -/
theorem final_run (h : rt.Reaches σ) (hrun : ReflTransGen rt.Step σ σ') (hr : r < σ.world.next)
    (hterm : (σ.world.heap r).state.isTerminal = true) :
    r < σ'.world.next ∧ (σ'.world.heap r).status = (σ.world.heap r).status := by
  induction hrun with
  | refl => exact ⟨hr, rfl⟩
  | @tail σ₁ σ₂ hrun hstep ih =>
      obtain ⟨hr₁, heq⟩ := ih
      have h₁ : rt.Reaches σ₁ := ReflTransGen.trans h hrun
      have hterm₁ : (σ₁.world.heap r).state.isTerminal = true := by
        rw [Transfer.state, heq]
        exact hterm
      exact ⟨Nat.lt_of_lt_of_le hr₁ (h₁.next_le hstep),
        (final_step h₁ hstep hr₁ hterm₁).trans heq⟩

/-- A transfer that has just ended was ended by `set_terminal`. -/
theorem Reaches.ended_by {i : Tid} {c : RtCall} {next : RtAnswer c → Prog RtSig Result}
    {x : RtAnswer c} (h : rt.Reaches σ) (hi : σ.threads[i]? = some (.call c next)) (hx : σ.world.Answers c x)
    (hr : r < σ.world.next) (hlive : (σ.world.heap r).state.isTerminal = false)
    (hterm : ((σ.world.after i c x).heap r).state.isTerminal = true) :
    ∃ s e, c = .setTerminal r s e := by
  obtain ⟨l, -, hpermits, -⟩ := h.known
  obtain ⟨-, hp⟩ := hpermits i c next hi
  have hinsert : ∀ t, c ≠ .insert t := by
    rintro t rfl
    obtain rfl := hx.insert
    rw [World.insert_heap_lt i t hr, hlive] at hterm
    cases hterm
  have hheap := (σ.world.after_changes i c x).heap hinsert r
  split_ifs at hheap with hedits
  · rw [hheap] at hterm
    obtain ⟨s, e, rfl, -⟩ := hp.ends hedits hlive hterm
    exact ⟨s, e, rfl⟩
  · rw [hheap, hlive] at hterm
    cases hterm

/-! Cancellation. -/

/-- What `run_transfer` does for a record grows by one answered call at a time. -/
theorem done_step (h : rt.Reaches σ) (hs : rt.Step σ σ') (hr : r < σ.world.next) :
    (σ'.world.heap r).done = (σ.world.heap r).done ∨
      ∃ (i : Tid) (c : ExecCall) (x : ExecAnswer c), σ.world.Answers (.exec r c) x ∧
        σ'.world = σ.world.after i (.exec r c) x ∧
        (σ'.world.heap r).done = (σ.world.heap r).done ++ [⟨c, x⟩] := by
  obtain ⟨l, hl, ⟨i, c, x, hi, hp, hx, heq⟩ | ⟨heq, -⟩⟩ := h.step_cases hs
  · rw [heq]
    by_cases hinsert : ∃ t, c = .insert t
    · obtain ⟨t, rfl⟩ := hinsert
      obtain rfl := hx.insert
      exact Or.inl (congrArg Transfer.done (Function.update_of_ne (Nat.ne_of_lt hr) _ _))
    rw [(σ.world.after_changes i c x).heap (not_exists.mp hinsert) r]
    split_ifs with hedits
    · by_cases hexec : ∃ r' ec, c = .exec r' ec
      · obtain ⟨r', ec, rfl⟩ := hexec
        obtain rfl := Option.some.inj hedits
        refine Or.inr ⟨i, ec, x, hx, rfl, ?_⟩
        show ((σ.world.heap r').ran ⟨ec, x⟩).done = _
        rw [Transfer.ran_eq]
      · exact Or.inl (RtCall.edit_done _ x fun r' ec hc => hexec ⟨r', ec, hc⟩)
    · exact Or.inl rfl
  · rw [heq]
    exact Or.inl rfl

/-- Nothing has been done for a record that is not made yet. -/
theorem done_new (h : rt.Reaches σ) (hs : rt.Step σ σ') (hr : r < σ'.world.next) :
    r < σ.world.next ∨ (σ'.world.heap r).done = [] := by
  obtain ⟨l, hl, ⟨i, c, x, hi, hp, hx, heq⟩ | ⟨-, heq⟩⟩ := h.step_cases hs
  · rw [heq] at hr ⊢
    refine ((Records.grows hp hx).2 r hr).imp_right ?_
    rintro ⟨-, t, -, hfresh, hnew⟩
    rw [hnew]
    exact hfresh.idle
  · exact Or.inl (heq ▸ hr)

theorem cancelChecks_concat (t : ExecTrace) (c : ExecCall) (x : ExecAnswer c) :
    cancelChecks (t ++ [⟨c, x⟩]) = cancelChecks t ∨ ∃ b : Bool,
      (⟨c, x⟩ : ExecEvent) = ⟨.loadCancel, b⟩ ∧
        cancelChecks (t ++ [⟨c, x⟩]) = cancelChecks t ++ [b] := by
  cases c with
  | loadCancel => exact Or.inr ⟨x, rfl, List.filterMap_append ..⟩
  | _ => exact Or.inl (by simp [cancelChecks])

/-- The step in which the executor made its last check of the flag of `r`, and what
the flag was. -/
structure LastCheck (rt : Runtime) (σ : System) (r : Ref) (flag : Bool) (σ₀ σ₁ : System) :
    Prop where
  before : rt.Reaches σ₀
  step : rt.Step σ₀ σ₁
  later : ReflTransGen rt.Step σ₁ σ
  check : (σ₁.world.heap r).done = (σ₀.world.heap r).done ++ [⟨.loadCancel, flag⟩]
  flag_eq : σ₀.world.cancel r = flag
  last : cancelChecks (σ.world.heap r).done = cancelChecks (σ₁.world.heap r).done

theorem lastCheck_exists (h : rt.Reaches σ) {flag : Bool} (hr : r < σ.world.next)
    (hlast : (cancelChecks (σ.world.heap r).done).getLast? = some flag) :
    ∃ σ₀ σ₁, LastCheck rt σ r flag σ₀ σ₁ := by
  -- along the run, the last check only changes with a step that makes one
  induction h with
  | refl => exact absurd hr (Nat.not_lt_zero r)
  | @tail σ₁ σ₂ hrun hstep ih =>
      have hreach : rt.Reaches σ₁ := hrun
      have hold : cancelChecks (σ₂.world.heap r).done = cancelChecks (σ₁.world.heap r).done →
          r < σ₁.world.next → ∃ σ₀ σ, LastCheck rt σ₂ r flag σ₀ σ := by
        intro heq hr₁
        obtain ⟨τ₀, τ₁, hcheck⟩ := ih hr₁ (heq ▸ hlast)
        exact ⟨τ₀, τ₁, { hcheck with
          later := hcheck.later.tail hstep
          last := heq.trans hcheck.last }⟩
      rcases done_new hreach hstep hr with hr₁ | hnone
      · rcases done_step hreach hstep hr₁ with heq | ⟨-, c, x, hx, -, heq⟩
        · exact hold (by rw [heq]) hr₁
        · rcases cancelChecks_concat (σ₁.world.heap r).done c x with hsame | ⟨b, hev, hmore⟩
          · exact hold (by rw [heq, hsame]) hr₁
          · rw [heq, hmore, List.getLast?_concat] at hlast
            obtain rfl := Option.some.inj hlast
            cases hev
            exact ⟨σ₁, σ₂, hreach, hstep, .refl, heq, hx.loadCancel.symm, rfl⟩
      · rw [hnone] at hlast
        cases hlast

/-- A call of `cancel` has raised the flag of `r`. -/
def CancelCalled (σ : System) (r : Ref) : Prop :=
  ∃ (j : Tid) (id : TransferId), σ.world.calls[j]? = some (.cancel id) ∧
    r ∈ raises (σ.world.past j)

theorem cancelCalled_of_flag (h : rt.Reaches σ) (hflag : σ.world.cancel r = true) :
    CancelCalled σ r := by
  obtain ⟨l, hl, -⟩ := h.views
  obtain ⟨j, hj, hraised, id, hop⟩ := hl.truth.flags r hflag
  exact ⟨j, id, by rw [hl.history.op j hj, hop], hl.history.raised j hj ▸ hraised⟩

/-- The calls of a `cancel` that ends with an error only read. -/
theorem cancel_error_reads {id : TransferId} {err : Error} {u : RtTrace}
    (hrun : Runs (cancel id) (.cancelled err) u) (herr : err.ok = false) :
    ∀ ev ∈ u, (∃ id, ev.1 = .find id) ∨ ∃ r, ev.1 = .stateOf r := by
  obtain ⟨found, u₁, rfl, hfound⟩ := (runs_request_bind (S := RtSig) ..).mp hrun
  cases found with
  | none =>
      obtain ⟨-, rfl⟩ := hfound
      simp
  | some r =>
      obtain ⟨s, u₂, rfl, hstate⟩ := (runs_request_bind (S := RtSig) ..).mp hfound
      by_cases hterm : s.isTerminal = true
      · rw [if_pos hterm] at hstate
        obtain ⟨-, rfl⟩ := hstate
        simp
      · rw [if_neg hterm] at hstate
        obtain ⟨-, u₃, rfl, hres, -⟩ := (runs_request_bind (S := RtSig) ..).mp hstate
        cases hres
        cases herr

/-- A call that has returned ran its program to the end. -/
theorem Reaches.returned (h : rt.Reaches σ) {i : Tid} {op : Op} {res : Result}
    (hop : σ.world.calls[i]? = some op) (hi : σ.threads[i]? = some (.done res)) :
    Runs (rt.program op) res (σ.world.past i) :=
  follows_done (h.follows hop hi)

/-- A terminal state is final and means what it says: nothing in the status of a
record changes once its state is terminal; a completed transfer reports all its bytes
and has passed every chunk through every leg; a transfer whose backends kept the
cancellation category to themselves is cancelled only if a `cancel` had raised its
flag before the executor looked for the last time; and a `cancel` that returns an
error has not touched a record or a flag. -/
theorem terminal_final_and_meant (h : rt.Reaches σ) (hr : r < σ.world.next) :
    ((σ.world.heap r).state.isTerminal = true → ∀ σ', ReflTransGen rt.Step σ σ' →
      (σ'.world.heap r).state = (σ.world.heap r).state ∧
      (σ'.world.heap r).status.error = (σ.world.heap r).status.error ∧
      (σ'.world.heap r).status.bytesCompleted = (σ.world.heap r).status.bytesCompleted ∧
      (σ'.world.heap r).status.bytesVerified = (σ.world.heap r).status.bytesVerified) ∧
    ((σ.world.heap r).state = .completed → (σ.world.heap r).Delivered rt) ∧
    ((σ.world.heap r).state = .cancelled → Honest (σ.world.heap r).done →
      ∃ σ₀ σ₁, LastCheck rt σ r true σ₀ σ₁ ∧ CancelCalled σ₀ r) ∧
    ∀ (i : Tid) (id : TransferId) (err : Error), σ.world.calls[i]? = some (.cancel id) →
      σ.threads[i]? = some (.done (.cancelled err)) → err.ok = false →
      ∀ ev ∈ σ.world.past i, ∀ w : World,
        (w.after i ev.1 ev.2).heap = w.heap ∧ (w.after i ev.1 ev.2).cancel = w.cancel := by
  obtain ⟨l, hl, -⟩ := h.views
  have hsound := hl.truth.sound r hr
  refine ⟨fun hterm σ' hrun => ?_, hsound.completed, fun hcancelled hhonest => ?_, ?_⟩
  · obtain ⟨-, heq⟩ := final_run h hrun hr hterm
    rw [Transfer.state, Transfer.state, heq]
    exact ⟨rfl, rfl, rfl, rfl⟩
  · obtain ⟨σ₀, σ₁, hcheck⟩ := lastCheck_exists h hr (hsound.cancelled hcancelled hhonest)
    exact ⟨σ₀, σ₁, hcheck, cancelCalled_of_flag hcheck.before hcheck.flag_eq⟩
  · rintro i id err hop hi herr ⟨c, x⟩ hev w
    rcases cancel_error_reads (h.returned hop hi) herr _ hev with ⟨id, hc⟩ | ⟨r', hc⟩
    · obtain rfl : c = .find id := hc
      exact ⟨rfl, rfl⟩
    · obtain rfl : c = .stateOf r' := hc
      exact ⟨rfl, rfl⟩

/-- A transfer that is cancelled while it waits in the queue. -/
def cancelledInQueue : List Move :=
  twoRegions 16 ++ Move.whole 2 30 (.submit firstToSecond) 7 ++
    Move.whole 3 3 (.cancel { hi := 0, lo := 7 }) 0 ++ .task :: List.replicate 40 (.act 4 (fair 0))

theorem cancelledInQueue_asked :
    ((loopback.play cancelledInQueue).world.heap 0).state = .cancelled ∧
      ∃ σ₀ σ₁, LastCheck loopback (loopback.play cancelledInQueue) 0 true σ₀ σ₁ ∧
        CancelCalled σ₀ 0 :=
  have hstate : ((loopback.play cancelledInQueue).world.heap 0).state = .cancelled := by
    decide +kernel
  ⟨hstate, (terminal_final_and_meant (loopback.play_reaches cancelledInQueue)
    (by decide +kernel)).2.2.1 hstate (by decide +kernel)⟩

end Runtime

end TransferFabric
