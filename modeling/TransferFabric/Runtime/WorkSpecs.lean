import TransferFabric.Runtime.CallSpecs
import TransferFabric.Runtime.ExecutorOutcome
import TransferFabric.Runtime.RecordEdits
import Mathlib.Data.List.Induction

/-!
The task of a worker, verified from the view of the worker that runs it. The
executor's calls are followed along its traces, so what is known about every run
of `run_transfer` becomes knowledge about the record the worker has in hand.
-/

namespace TransferFabric

open Interaction

variable {rt : Runtime} {careful : Prop} {m : View} {r : Ref} {t : Transfer}

/-! A record after the calls of a trace. -/

namespace Transfer

def ranAll (t : Transfer) (u : ExecTrace) : Transfer := u.foldl ran t

theorem ranAll_concat (t : Transfer) (u : ExecTrace) (ev : ExecEvent) :
    t.ranAll (u ++ [ev]) = (t.ranAll u).ran ev := by
  simp [ranAll]

theorem ran_scheduled (t : Transfer) (ev : ExecEvent) :
    (t.ran ev).status.bytesScheduled = t.status.bytesScheduled := by
  obtain ⟨c, x⟩ := ev
  cases c with
  | status u => cases u <;> rfl
  | _ => rfl

theorem ranAll_eq (t : Transfer) (u : ExecTrace) :
    t.ranAll u = { t with status := (t.ranAll u).status, done := t.done ++ u } := by
  induction u using List.reverseRecOn with
  | nil => simp [ranAll]
  | append_singleton u ev ih =>
      rw [ranAll_concat, ran_eq, ih]
      simp

theorem ranAll_scheduled (t : Transfer) (u : ExecTrace) :
    (t.ranAll u).status.bytesScheduled = t.status.bytesScheduled := by
  induction u using List.reverseRecOn with
  | nil => rfl
  | append_singleton u ev ih => rw [ranAll_concat, ran_scheduled, ih]

theorem ranAll_state (t : Transfer) (u : ExecTrace) :
    (t.ranAll u).state = if u.any ExecEvent.isVerifying then .verifying else t.state := by
  induction u using List.reverseRecOn with
  | nil => rfl
  | append_singleton u ev ih =>
      rw [ranAll_concat, ran_state, ih, List.any_append]
      cases hev : ExecEvent.isVerifying ev <;> cases u.any ExecEvent.isVerifying <;> simp [hev]

end Transfer

theorem any_verifying_of_only {u : ExecTrace} (h : u.Only fun ev => !ExecEvent.isVerifying ev) :
    u.any ExecEvent.isVerifying = false :=
  List.any_eq_false.mpr fun ev hev => by simpa using h ev hev

/-- The announcement of the verification comes at most once, and never for an empty
request. -/
theorem RunContext.RunResult.announced {ctx : RunContext} {e : Error} {u v : ExecTrace}
    {x : ExecAnswer (.status .verifying)}
    (h : ctx.RunResult e (u ++ (⟨.status .verifying, x⟩ : ExecEvent) :: v)) :
    u.any ExecEvent.isVerifying = false ∧ ctx.legs ≠ [] ∧ ctx.plan.chunkCount ≠ 0 := by
  have hcount : (u ++ (⟨.status .verifying, x⟩ : ExecEvent) :: v).countP ExecEvent.isVerifying ≤ 1 →
      u.any ExecEvent.isVerifying = false := by
    intro hle
    rw [List.countP_append, List.countP_cons_of_pos rfl] at hle
    have hzero : u.countP ExecEvent.isVerifying = 0 := by omega
    exact List.any_eq_false.mpr (List.countP_eq_zero.mp hzero)
  have hnone : ∀ w : ExecTrace, (w.Only fun ev => !ExecEvent.isVerifying ev) →
      w.countP ExecEvent.isVerifying = 0 :=
    fun w hw => List.countP_eq_zero.mpr fun ev hev => by simpa using hw ev hev
  cases h with
  | empty hempty he ht =>
      exfalso
      have : (⟨.status .verifying, x⟩ : ExecEvent) ∈ u ++ ⟨.status .verifying, x⟩ :: v := by simp
      rw [ht] at this
      cases List.mem_singleton.mp this
  | stopped hlegs hchunks he hcat hquiet =>
      refine ⟨hcount ?_, hlegs, hchunks⟩
      rw [hnone _ hquiet]
      exact Nat.zero_le 1
  | verified before mid w hlegs hchunks hcat ht hbefore hmid hw hclose hpassed =>
      refine ⟨hcount ?_, hlegs, hchunks⟩
      have hlast : ExecEvent.isVerifying ⟨.status w, ()⟩ = false := by
        cases w <;> first | rfl | exact absurd rfl hw
      rw [ht, List.countP_append, List.countP_cons_of_pos rfl, List.countP_append, hnone _ hbefore,
        hnone _ (not_verifying_of_moving hmid), List.countP_singleton, hlast]
      exact Nat.le_refl 1

/-! The end of a run. -/

section Ends

variable {e : Error} {u : ExecTrace}

/-- The result of a run justifies the terminal state `finalize` gives the record. -/
theorem RunContext.RunResult.ends (h : (rt.context t.body).RunResult e u)
    (hactive : t.state = .active) (hsched : t.status.bytesScheduled = t.body.chunkPlan.plan.total)
    (hidle : t.done = []) : (t.ranAll u).Ends rt (terminalFor e) := by
  have hbody : (t.ranAll u).body = t.body := by rw [t.ranAll_eq u]
  have hdone : (t.ranAll u).done = u := by rw [t.ranAll_eq u, hidle]; rfl
  have hempty : (t.ranAll u).Empty ↔ t.Empty := by
    unfold Transfer.Empty
    rw [hbody]
  have hstate : (u.Only fun ev => !ExecEvent.isVerifying ev) → (t.ranAll u).state = .active :=
    fun hu => by rw [t.ranAll_state, any_verifying_of_only hu, hactive]; rfl
  have hterminal := terminalFor_cases e
  cases h with
  | empty hnone he ht =>
      subst he ht
      have hstate := hstate (Trace.only_cons.mpr ⟨rfl, Trace.only_nil⟩)
      refine ⟨hterminal, fun _ => ⟨?_, [], ?_⟩, fun hc => (by cases hc), ?_⟩
      · exact hsched.symm
      · intro ctx ci hci li hli
        rcases hnone with hlegs | hchunks
        · exact absurd (hli.trans_eq (congrArg List.length hlegs)) (Nat.not_lt_zero li)
        · exact absurd (hci.trans_eq (congrArg UInt64.toNat hchunks)) (Nat.not_lt_zero ci)
      · rw [hstate]
        have : t.Empty := hnone
        simp only [hempty, this]
        decide
  | stopped hlegs hchunks he hcat hquiet =>
      have hstate := hstate hquiet
      have hnot : ¬ t.Empty := fun h => h.elim hlegs hchunks
      have hne : terminalFor e ≠ .completed := fun h => by
        rw [(terminalFor_completed e).mp h] at he
        cases he
      refine ⟨hterminal, fun h => absurd h hne, fun hc hh => ?_, ?_⟩
      · rw [hdone] at hh ⊢
        refine hcat ?_ hh
        unfold terminalFor at hc
        split_ifs at hc with hok hcancel
        exact hcancel
      · rw [hstate, hempty]
        simp only [hnot, false_and, not_false_eq_true, iff_true]
        rcases hterminal with h | h | h
        · exact absurd h hne
        · rw [h]; rfl
        · rw [h]; rfl
  | verified before mid w hlegs hchunks hcat ht hbefore hmid hw hclose hpassed =>
      have hnot : ¬ t.Empty := fun h => h.elim hlegs hchunks
      have hstate : (t.ranAll u).state = .verifying := by
        rw [t.ranAll_state, ht, if_pos]
        simp [ExecEvent.isVerifying]
      have hne : terminalFor e ≠ .cancelled := fun h => by
        unfold terminalFor at h
        split_ifs at h
      refine ⟨hterminal, fun hok => ⟨?_, t.body.stagingBufs, ?_⟩, fun h => absurd h hne, ?_⟩
      · rw [t.ranAll_scheduled, hsched]
        have hsplit : u = (before ++ ⟨.status .verifying, ()⟩ :: mid) ++ [⟨.status w, ()⟩] := by
          rw [ht]
          simp
        rw [hsplit, t.ranAll_concat]
        rcases (hclose ((terminalFor_completed e).mp hok)).reports with rfl | rfl
        · rfl
        · rfl
      · rw [hbody, hdone]
        exact hpassed
      · rw [hstate, hempty]
        simp only [hnot, false_and, not_false_eq_true, iff_true]
        rcases hterminal with h | h | h
        · rw [h]; rfl
        · exact absurd h hne
        · rw [h]; rfl

end Ends

/-! The driver. -/

instance (c : IoCall) : Inhabited (IoAnswer c) :=
  ⟨match c with
    | .seek .. | .flushFileBuffers _ | .store .. => ()
    | .readFile .. => none
    | .writeFile .. => none
    | .load .. => []
    | .deviceToHost .. => DeviceRead.mk false []⟩

instance : ∀ c : ExecSig.Call, Nonempty (ExecSig.Answer c)
  | .loadCancel | .canCopy .. => ⟨false⟩
  | .createStream _ | .copy .. | .asyncCopy .. | .sync .. => ⟨({} : Error)⟩
  | .destroyStream _ | .status _ | .release .. | .stagingPoolHit _ => ⟨()⟩
  | .io _ c => ⟨(default : IoAnswer c)⟩

/-- Along the executor's calls the record in hand is the one the calls made of it. A
careful thread keeps its buffers. -/
theorem keeps_runTransfer {Q : Error → View → Prop} (hown : m.own = some (r, t))
    (hwork : m.op.isWork = true) (hactive : t.state = .active) (hsilent : t.notified = false)
    (hring : careful → (rt.context t.body).Ringless)
    (hQ : ∀ e u left, (rt.context t.body).RunResult e u → (careful → left = m.bufs) →
      Q e { m with own := some (r, t.ranAll u), bufs := left }) :
    Keeps rt careful ((rt.context t.body).runTransfer.embed (execHom r)) Q m := by
  refine (wp_embed _ _ _ _).mpr (wp_of_runs _
    (fun u m' => ∃ left, (careful → left = m.bufs) ∧
      m' = { m with own := some (r, t.ranAll u), bufs := left }) ?_ ?_ ?_)
  · refine ⟨m.bufs, fun _ => rfl, ?_⟩
    show m = { m with own := some (r, t), bufs := m.bufs }
    rw [← hown]
  · rintro u c _ ⟨x, v, e, hrun⟩ ⟨left, hleft, rfl⟩
    have hresult := RunContext.runTransfer_result hrun
    have hkeep : careful → ∀ k b, c ≠ .release k b := by
      rintro hc k b rfl
      have := (hring hc).keeps hrun _ (List.mem_append_right _ List.mem_cons_self)
      cases this
    refine ⟨⟨t.ranAll u, rfl, ⟨?_, ?_, ?_⟩, hwork, hkeep⟩, ?_⟩
    · rw [t.ranAll_state, hactive]
      split_ifs
      · exact Or.inr rfl
      · exact Or.inl rfl
    · rw [t.ranAll_eq u]
      exact hsilent
    · rintro rfl
      obtain ⟨hnone, hlegs, hchunks⟩ := hresult.announced
      refine ⟨by rw [t.ranAll_state, hnone, hactive]; rfl, ?_⟩
      rw [t.ranAll_eq u]
      exact fun h => h.elim hlegs hchunks
    · rintro x _ ⟨_, rfl, -, rfl⟩
      rw [View.after, View.edit_own _ rfl rfl, t.ranAll_concat]
      cases c with
      | release k b =>
          refine ⟨if b.null then left else left.erase (k, b), fun hc => absurd rfl (hkeep hc k b), ?_⟩
          show View.dropBuf _ k b = _
          unfold View.dropBuf
          split_ifs <;> rfl
      | _ => exact ⟨left, hleft, rfl⟩
  · rintro e u _ hrun ⟨left, hleft, rfl⟩
    exact hQ e u left (RunContext.runTransfer_result hrun) hleft

theorem keeps_work {task : Task} (hown : m.own = some (task.ref, t)) (hready : t.Ready)
    (hwork : m.op.isWork = true) (hmade : m.made = none) (hcreated : m.created = false)
    (hhanded : m.handed = false) (hclosed : m.closed = none) (hcounted : m.counted = none)
    (hheld : careful → m.bufs.Perm t.staged) (hring : careful → (rt.context t.body).Ringless) :
    Keeps rt careful (rt.work task) (View.Post careful) m := by
  refine keeps_bind (keeps_bind (keeps_setState hown rfl (by simp [hready.queued])
    (fun h => by cases h) ?_))
  rw [setState_allowed (by rw [hready.queued]; rfl)]
  refine keeps_bind (keeps_storeStarted rfl (keeps_bind (keeps_count ⟨by simp, rfl⟩
    (keeps_bind (keeps_count ⟨by simp, rfl⟩ (keeps_bind (keeps_load rfl (keeps_bind ?_))))))))
  refine keeps_runTransfer rfl hwork rfl hready.silent hring fun e u left hresult hleft => ?_
  have hends := hresult.ends rfl hready.scheduled hready.idle
  refine keeps_finalize rfl ?_ hends hclosed hcounted ?_ fun t' left' _ hleft' => ?_
  · rw [Transfer.ranAll_state]
    split_ifs <;> rfl
  · intro hc
    rw [hleft hc, Transfer.ranAll_eq]
    exact hheld hc
  · refine keeps_bind (keeps_plain trivial rfl (fun _ => rfl) fun _ => ?_)
    exact ⟨⟨hmade, hcreated, hhanded, ⟨_, rfl, terminalFor_cases e⟩, rfl, hwork⟩,
      fun hc _ _ => hleft' hc⟩

end TransferFabric
