import TransferFabric.Runtime.Outcomes

/-!
How soon a cancelled transfer stops. The executor looks at the cancellation flag
before each chunk. Between two looks it makes at most one copy per leg, and after a
look that found the flag up it makes none. Since the flag is never lowered, a
transfer whose flag is up copies at most the rest of the chunk it is at, and it
completes only if it does not look again.

Nothing is said about how long a single copy takes, nor about copies that a backend
carries out later than it accepted them.
-/

namespace TransferFabric

open Interaction Relation

/-- A request to move bytes. -/
def ExecEvent.copies : ExecEvent → Bool
  | ⟨.copy .., _⟩ | ⟨.asyncCopy .., _⟩ => true
  | _ => false

/-! The copies that may still be made before the next look at the flag. -/

namespace Budget

variable {legs b : Nat}

def step (legs b : Nat) : ExecEvent → Nat
  | ⟨.loadCancel, raised⟩ => cond raised 0 legs
  | ⟨.copy .., _⟩ | ⟨.asyncCopy .., _⟩ => b - 1
  | _ => b

def spending (legs : Nat) : Effect ExecSig Nat := fun b c x b' => b' = step legs b ⟨c, x⟩

def Allows (b : Nat) : ExecCall → Prop
  | .copy .. | .asyncCopy .. => 0 < b
  | _ => True

/-- A call that changes nothing here. -/
def Idle : ExecCall → Prop
  | .loadCancel | .copy .. | .asyncCopy .. => False
  | _ => True

theorem step_idle {c : ExecCall} (hc : Idle c) (x : ExecAnswer c) : step legs b ⟨c, x⟩ = b := by
  cases c with
  | loadCancel | copy | asyncCopy => exact hc.elim
  | _ => rfl

theorem allows_idle {c : ExecCall} (hc : Idle c) : Allows b c := by
  cases c with
  | loadCancel | copy | asyncCopy => exact hc.elim
  | _ => trivial

theorem path_spending (t : ExecTrace) (b : Nat) :
    Path (spending legs) b t (t.foldl (step legs) b) := by
  induction t generalizing b with
  | nil => rfl
  | cons ev t ih => exact ⟨_, rfl, ih _⟩

theorem foldl_le (t : ExecTrace) (hb : b ≤ legs) : t.foldl (step legs) b ≤ legs := by
  induction t generalizing b with
  | nil => exact hb
  | cons ev t ih =>
      obtain ⟨c, x⟩ := ev
      refine ih ?_
      cases c with
      | loadCancel =>
          cases x with
          | true => exact Nat.zero_le _
          | false => exact Nat.le_refl _
      | copy | asyncCopy => exact Nat.le_trans (Nat.sub_le _ _) hb
      | _ => exact hb

/-- As long as no check finds the flag down, copies are made on the budget that is left. -/
theorem copies_le {α : Type} {prog q : Prog ExecSig α} {Q : α → Nat → Prop} {u : ExecTrace}
    (h : wp Allows (spending legs) prog Q b) (hf : Follows u prog q)
    (hu : false ∉ cancelChecks u) : u.countP ExecEvent.copies ≤ b := by
  induction u generalizing prog b with
  | nil => exact Nat.zero_le _
  | cons ev u ih =>
      cases prog with
      | done a => cases hf
      | call c next =>
          obtain ⟨x, rfl, hf⟩ := hf
          have hrest := fun hu => ih (h.2 x _ rfl) hf hu
          cases c with
          | loadCancel =>
              have hu : false ∉ x :: cancelChecks u := hu
              obtain ⟨hx, hu⟩ := List.mem_cons.not.trans not_or |>.mp hu
              rw [List.countP_cons_of_neg (by simp [ExecEvent.copies])]
              refine Nat.le_trans (hrest hu) ?_
              cases x with
              | true => exact Nat.zero_le _
              | false => exact absurd rfl hx
          | copy | asyncCopy =>
              have hpos : 0 < b := h.1
              have hle : u.countP ExecEvent.copies ≤ b - 1 := hrest hu
              rw [List.countP_cons_of_pos rfl]
              omega
          | _ =>
              rw [List.countP_cons_of_neg (by simp [ExecEvent.copies])]
              exact hrest hu

end Budget

/-! The executor keeps within the budget. -/

namespace RunContext

open Budget

variable (ctx : RunContext) {k b : Nat}

abbrev Spends {α : Type} (prog : Prog ExecSig α) (Q : α → Nat → Prop) (b : Nat) : Prop :=
  wp Allows (spending ctx.nlegs) prog Q b

variable {ctx}

theorem spends_idle {α : Type} {prog : Prog ExecSig α} (h : Calls (S := ExecSig) Idle prog) :
    ctx.Spends prog (fun _ b' => b' = b) b := by
  refine h.wp_invariant (· = b) (fun _ _ hc _ => allows_idle hc) ?_ rfl
  rintro _ c x _ hc rfl rfl
  exact step_idle hc x

theorem spends_runLeg {li : Nat} {c : Chunk} (h : k + 1 ≤ b) :
    ctx.Spends (ctx.runLeg li c) (fun _ b' => k ≤ b') b := by
  unfold runLeg
  dsimp only
  split
  · exact Nat.le_of_succ_le h
  · refine wp_request_bind trivial ?_
    rintro (able : Bool) _ rfl
    cases able with
    | true =>
        refine ⟨Nat.lt_of_lt_of_le (Nat.succ_pos k) h, ?_⟩
        rintro x _ rfl
        exact Nat.le_sub_one_of_lt (Nat.lt_of_succ_le h)
    | false => exact Nat.le_of_succ_le h

/-- The legs before the last leave one copy for it. -/
theorem spends_runLegs {c : Chunk} (hlegs : 0 < ctx.nlegs) :
    ctx.Spends (ctx.runLegs c) (fun _ b' => 1 ≤ b') ctx.nlegs := by
  refine wp_mono _ (wp_forLoop _ (fun i _ b => ctx.nlegs - i ≤ b) (fun _ b => 1 ≤ b)
    (ctx.nlegs - 1) 0 ?_ (Nat.le_refl _)) ?_
  · intro i s b _ hi hb
    refine (wp_bind _ _ _ _).mpr (wp_mono _
      (spends_runLeg (k := ctx.nlegs - (i + 1)) (by omega)) fun e b' hb' => ?_)
    split_ifs
    · exact hb'
    · exact Nat.le_trans (by omega) hb'
  · rintro e b' (hb' | hb')
    · exact Nat.le_trans (by omega) hb'
    · exact hb'

theorem spends_finalLeg {useAsync : Bool} {si : Nat} {c : Chunk} (h : 1 ≤ b) :
    ctx.Spends (ctx.finalLeg useAsync si c) (fun _ _ => True) b := by
  unfold finalLeg
  split_ifs
  · refine wp_request_bind trivial ?_
    rintro (able : Bool) _ rfl
    cases able with
    | true => exact ⟨h, fun _ _ _ => trivial⟩
    | false => trivial
  · exact wp_mono _ (spends_runLeg h) fun _ _ _ => trivial

theorem spends_chunkStep {useAsync : Bool} {ci : Nat} {s : LoopState} (hlegs : 0 < ctx.nlegs) :
    ctx.Spends (ctx.chunkStep useAsync ci s) (fun _ _ => True) b := by
  refine wp_request_bind trivial ?_
  rintro (raised : Bool) _ rfl
  cases raised with
  | true => trivial
  | false =>
      rw [if_neg Bool.false_ne_true]
      dsimp only
      split_ifs
      · refine (wp_bind _ _ _ _).mpr
          (wp_mono _ (spends_idle (ctx.calls_syncForReuse (fun _ => trivial) _ _)) ?_)
        rintro _ _ rfl
        refine (wp_bind _ _ _ _).mpr (wp_mono _ (spends_runLegs hlegs) fun e b' hb' => ?_)
        split_ifs
        · refine (wp_bind _ _ _ _).mpr (wp_mono _ (spends_finalLeg hb') fun e b' _ => ?_)
          split_ifs
          · exact ⟨trivial, fun _ _ _ => trivial⟩
          · trivial
        · trivial
      · trivial

theorem spends_moveChunks {useAsync : Bool} (hlegs : 0 < ctx.nlegs) :
    ctx.Spends (ctx.moveChunks useAsync) (fun _ _ => True) b := by
  refine (wp_bind _ _ _ _).mpr (wp_mono _ (wp_forLoop _ (fun _ _ _ => True) (fun _ _ => True)
    ctx.count 0 ?_ trivial) fun s b _ => ?_)
  · exact fun i s b _ _ _ => wp_mono _ (spends_chunkStep hlegs) fun f _ _ => by cases f <;> trivial
  · have hrest : Calls (S := ExecSig) Idle (ctx.drain useAsync s >>= fun s => do
        ctx.releaseRings
        destroyStreams (if useAsync then ctx.depth else 0)
        pure s) :=
      calls_bind (ctx.calls_drain (fun _ => trivial) _ _) fun s =>
        calls_bind (ctx.calls_releaseRings (fun _ _ => trivial) trivial) fun _ =>
        calls_bind (calls_destroyStreams (fun _ => trivial) _) fun _ => calls_pure s
    exact hrest.wp (fun _ _ => allows_idle) b

theorem spends_runTransfer (ctx : RunContext) :
    ctx.Spends ctx.runTransfer (fun _ _ => True) 0 := by
  unfold runTransfer
  split_ifs with hempty hmissing
  · exact ⟨trivial, fun _ _ _ => trivial⟩
  · trivial
  · have hlegs : 0 < ctx.nlegs :=
      nlegs_pos fun hnil => hempty (Or.inl (List.isEmpty_iff.mpr hnil))
    split
    · trivial
    · refine (wp_bind _ _ _ _).mpr (wp_mono _
        (spends_idle (ctx.calls_openIfWanted (fun _ => trivial) (fun _ => trivial) _)) ?_)
      rintro useAsync _ rfl
      refine (wp_bind _ _ _ _).mpr (wp_mono _ (spends_moveChunks hlegs) fun s b _ => ?_)
      split_ifs
      · trivial
      · exact (ctx.calls_verify (fun _ => trivial) fun _ _ => trivial).wp (fun _ _ => allows_idle) b

/-- A transfer that succeeds has never found the flag up. -/
theorem unraised_of_ok {e : Error} {t : ExecTrace} (h : Runs ctx.runTransfer e t)
    (hok : e.ok = true) : true ∉ cancelChecks t := by
  have hclean : Clean t := by
    cases runTransfer_cases h with
    | empty _ => simp [Clean, ExecEvent.stops]
    | refused _ he =>
        rw [he] at hok
        cases hok
    | failed hcount hlegs hk hasync hopen hmove hs =>
        rcases moveChunks_outcome hk hcount hmove with ⟨hf, -⟩ | ⟨-, hres, -⟩
        · rw [hs] at hf
          cases hf
        · rw [hres] at hok
          cases hok
    | moved hcount hlegs hk hasync hopen hmove hs hverify =>
        rcases moveChunks_outcome hk hcount hmove with ⟨-, -, hcl⟩ | ⟨hf, -⟩
        · simp [clean_of_setup hopen, hcl, ((verify_cases hverify).ok_iff.mp hok).1]
        · rw [hs] at hf
          cases hf
  intro hmem
  obtain ⟨⟨c, x⟩, hev, hcheck⟩ := List.mem_filterMap.mp hmem
  have hgoes := hclean _ hev
  cases c with
  | loadCancel =>
      obtain rfl : x = true := Option.some.inj hcheck
      cases hgoes
  | _ => cases hcheck

end RunContext

/-! In the runtime. -/

namespace Runtime

open Budget

variable {rt : Runtime} {σ σ' : System} {r : Ref}

/-- The flag of a record is never lowered. -/
theorem flag_step (hs : rt.Step σ σ') (hflag : σ.world.cancel r = true) :
    σ'.world.cancel r = true := by
  cases hs with
  | @act i c next x w' hi he =>
      obtain ⟨-, rfl⟩ := he
      by_cases hstore : ∃ r', c = .storeCancel r'
      · obtain ⟨r', rfl⟩ := hstore
        show Function.update σ.world.cancel r' true r = true
        rw [Function.update_apply]
        split_ifs
        · rfl
        · exact hflag
      · rw [(σ.world.after_changes i c x).cancel (not_exists.mp hstore)]
        exact hflag
  | start hs =>
      cases hs with
      | call op hop => exact hflag
      | task hdepth hbusy hpop => exact hflag

/-- Once the flag is up every check finds it up. -/
theorem flagged_run (h : rt.Reaches σ) (hr : r < σ.world.next) (hflag : σ.world.cancel r = true)
    (hrun : ReflTransGen rt.Step σ σ') :
    σ'.world.cancel r = true ∧ r < σ'.world.next ∧
      (σ'.world.heap r).body.unstaged = (σ.world.heap r).body.unstaged ∧
      ∃ u, (σ'.world.heap r).done = (σ.world.heap r).done ++ u ∧ false ∉ cancelChecks u := by
  induction hrun with
  | refl => exact ⟨hflag, hr, rfl, [], (List.append_nil _).symm, List.not_mem_nil⟩
  | @tail σ₁ σ₂ hrun hstep ih =>
      obtain ⟨hflag₁, hr₁, hbody, u, hdone, hchecks⟩ := ih
      have hreach : rt.Reaches σ₁ := ReflTransGen.trans h hrun
      refine ⟨flag_step hstep hflag₁, Nat.lt_of_lt_of_le hr₁ (hreach.next_le hstep), ?_, ?_⟩
      · rw [← hbody]
        cases hstep with
        | act hi he =>
            obtain ⟨hx, rfl⟩ := he
            exact heap_after_unstaged hr₁ hx _
        | start hs =>
            obtain ⟨-, hheap, -⟩ := hs.same
            rw [hheap]
      · rcases done_step hreach hstep hr₁ with heq | ⟨-, c, x, hx, -, heq⟩
        · exact ⟨u, heq.trans hdone, hchecks⟩
        · refine ⟨u ++ [⟨c, x⟩], by rw [heq, hdone, List.append_assoc], ?_⟩
          rcases cancelChecks_concat u c x with hsame | ⟨b, hev, hmore⟩
          · rwa [hsame]
          · cases hev
            rw [hmore, hx.loadCancel, hflag₁]
            simpa using hchecks

/-- A transfer whose flag is up begins no other chunk: it makes at most one more copy per leg,
none at all if it had not been started, and it completes only if it looks at the flag no more. -/
theorem cancelled_within_chunk (h : rt.Reaches σ) (hr : r < σ.world.next)
    (hflag : σ.world.cancel r = true) (hrun : ReflTransGen rt.Step σ σ') :
    ∃ u, (σ'.world.heap r).done = (σ.world.heap r).done ++ u ∧ false ∉ cancelChecks u ∧
      u.countP ExecEvent.copies ≤ (σ.world.heap r).body.route.legs.length ∧
      ((σ.world.heap r).done = [] → u.countP ExecEvent.copies = 0) ∧
      ((σ'.world.heap r).state = .completed → cancelChecks u = []) := by
  obtain ⟨-, hr', hbody, u, hdone, hchecks⟩ := flagged_run h hr hflag hrun
  have hreach : rt.Reaches σ' := ReflTransGen.trans h hrun
  obtain ⟨hgiven, q, hfollows⟩ := hreach.course hr'
  have hroute : (rt.running σ'.world r).legs = (σ.world.heap r).body.route.legs :=
    (congrArg (fun b : TransferRecord => b.route.legs) (hgiven.trans hbody) :)
  obtain ⟨q', hbefore, hafter⟩ := (hdone ▸ hfollows).split
  have hcopies := copies_le (wp_follows (rt.running σ'.world r).spends_runTransfer hbefore
    (path_spending _ _)) hafter hchecks
  refine ⟨u, hdone, hchecks, ?_, fun hnone => ?_, fun hcompleted => ?_⟩
  · exact Nat.le_trans hcopies (hroute ▸ foldl_le _ (Nat.zero_le _))
  · rw [hnone] at hcopies
    exact Nat.le_zero.mp hcopies
  · obtain ⟨e, hok, hruns⟩ := hreach.completed_run hr' hcompleted
    have hup := RunContext.unraised_of_ok hruns hok
    rw [hdone, cancelChecks_append, List.mem_append, not_or] at hup
    refine List.eq_nil_iff_forall_not_mem.mpr fun raised hmem => ?_
    cases raised with
    | true => exact hup.2 hmem
    | false => exact hchecks hmem

/-- Worker 3 has looked at the flag before the second of three chunks when thread 4 cancels. -/
def cancelledMidway : List Move := underWay 14 ++ Move.whole 4 20 (.cancel { hi := 0, lo := 1 }) 1

def cancelledMidwayEnd : System :=
  (List.replicate 60 (Move.act 3 (fair 1))).foldl hostToDevice.move
    (hostToDevice.play cancelledMidway)

/-- The chunk is still moved, over both legs, and the third is not. -/
theorem cancelledMidway_moves_chunk :
    ∃ u, (cancelledMidwayEnd.world.heap 0).state = .cancelled ∧
      (cancelledMidwayEnd.world.heap 0).done =
        ((hostToDevice.play cancelledMidway).world.heap 0).done ++ u ∧
      u.countP ExecEvent.copies = 2 ∧
      ((hostToDevice.play cancelledMidway).world.heap 0).body.route.legs.length = 2 := by
  have hreach := hostToDevice.play_reaches cancelledMidway
  have hmade : 0 < (hostToDevice.play cancelledMidway).world.next := by decide +kernel
  have hflag : (hostToDevice.play cancelledMidway).world.cancel 0 = true := by decide +kernel
  have hrun : ReflTransGen hostToDevice.Step (hostToDevice.play cancelledMidway)
      cancelledMidwayEnd := hostToDevice.moves_run _ _
  have hstate : (cancelledMidwayEnd.world.heap 0).state = .cancelled := by decide +kernel
  have hlegs : ((hostToDevice.play cancelledMidway).world.heap 0).body.route.legs.length = 2 := by
    decide +kernel
  have hcount : (cancelledMidwayEnd.world.heap 0).done.countP ExecEvent.copies =
      ((hostToDevice.play cancelledMidway).world.heap 0).done.countP ExecEvent.copies + 2 := by
    decide +kernel
  -- The states would be evaluated with their traces.
  generalize cancelledMidwayEnd = σ' at hrun hstate hcount ⊢
  generalize hostToDevice.play cancelledMidway = σ at hreach hmade hflag hrun hlegs hcount ⊢
  obtain ⟨u, hdone, -⟩ := cancelled_within_chunk hreach hmade hflag hrun
  rw [hdone, List.countP_append] at hcount
  exact ⟨u, hstate, hdone, Nat.add_left_cancel hcount, hlegs⟩

end Runtime

end TransferFabric
