import TransferFabric.Runtime.ExecutorFailure
import TransferFabric.Runtime.View

/-!
What the result of a run of `run_transfer` says about the run: success means
that every chunk went through every leg and that all bytes are reported, and the
cancellation category means that the flag was found raised at the last check,
unless a backend made the category up. Nothing is assumed about the answers.
-/

namespace TransferFabric

open Interaction

namespace ExecEvent

def isReleasing : ExecEvent → Bool
  | ⟨.release .., _⟩ => true
  | _ => false

def isCheck : ExecEvent → Bool
  | ⟨.loadCancel, _⟩ => true
  | _ => false

/-- A call of the move itself: no resource is given back, nothing is verified. -/
def isMoving (ev : ExecEvent) : Bool := !isVerifying ev && !isReleasing ev

end ExecEvent

theorem cancelChecks_append (t u : ExecTrace) :
    cancelChecks (t ++ u) = cancelChecks t ++ cancelChecks u := List.filterMap_append

theorem cancelChecks_eq_nil {t : ExecTrace} (h : t.Only fun ev => !ExecEvent.isCheck ev) :
    cancelChecks t = [] := by
  refine List.filterMap_eq_nil_iff.mpr ?_
  rintro ⟨c, x⟩ hev
  have := h _ hev
  cases c <;> first | rfl | cases this

/-- The last check found the flag raised. -/
def Raised (t : ExecTrace) : Prop := (cancelChecks t).getLast? = some true

theorem Raised.append_left {u : ExecTrace} (t : ExecTrace) (h : Raised u) : Raised (t ++ u) := by
  unfold Raised at h ⊢
  rw [cancelChecks_append, List.getLast?_append, h]
  rfl

theorem Raised.append_right {t u : ExecTrace} (h : Raised t)
    (hu : u.Only fun ev => !ExecEvent.isCheck ev) : Raised (t ++ u) := by
  unfold Raised at h ⊢
  rw [cancelChecks_append, cancelChecks_eq_nil hu, List.append_nil]
  exact h

theorem honest_append {t u : ExecTrace} : Honest (t ++ u) ↔ Honest t ∧ Honest u :=
  Trace.only_append

theorem honest_cons {ev : ExecEvent} {t : ExecTrace} :
    Honest (ev :: t) ↔ ExecEvent.honest ev = true ∧ Honest t := Trace.only_cons

namespace RunContext

variable {ctx : RunContext}

theorem Passed.mono {t u : ExecTrace} {li ci : Nat} (h : ctx.Passed t li ci)
    (htu : ∀ ev ∈ t, ev ∈ u) : ctx.Passed u li ci := by
  obtain ⟨e, hok, hcopy | ⟨k, hasync⟩⟩ := h
  · exact ⟨e, hok, Or.inl (htu _ hcopy)⟩
  · exact ⟨e, hok, Or.inr ⟨k, htu _ hasync⟩⟩

/-! One chunk. -/

theorem runLeg_result {li : Nat} {c : Chunk} {e : Error} {t : ExecTrace}
    (h : Runs (ctx.runLeg li c) e t) :
    (e.ok = true →
      (⟨.copy (ctx.leg li).backend (ctx.legSpec li c), e⟩ : ExecEvent) ∈ t) ∧
    (Honest t → e.category ≠ .cancellation) := by
  unfold runLeg at h
  cases hb : ctx.backends (ctx.leg li).backend with
  | none =>
      simp only [hb] at h
      obtain ⟨rfl, rfl⟩ := h
      exact ⟨by simp [Error.ok], by simp⟩
  | some b =>
      simp only [hb] at h
      obtain ⟨able, rest, rfl, hr⟩ := h
      cases able with
      | false =>
          obtain ⟨rfl, rfl⟩ := hr
          exact ⟨by simp [Error.ok], by simp⟩
      | true =>
          obtain rfl := (runs_exec _ _ _).mp hr
          refine ⟨fun _ => by simp, fun hh => ?_⟩
          simpa [ExecEvent.honest] using hh _ (List.mem_cons_of_mem _ List.mem_cons_self)

theorem runLegs_result {c : Chunk} {e : Error} {t : ExecTrace} (h : Runs (ctx.runLegs c) e t) :
    (e.ok = true → ∀ li < ctx.nlegs - 1, ∃ e' : Error, e'.ok = true ∧
      (⟨.copy (ctx.leg li).backend (ctx.legSpec li c), e'⟩ : ExecEvent) ∈ t) ∧
    (Honest t → e.category ≠ .cancellation) := by
  have loop := runs_forLoop
    (I := fun i e t => e = {} ∧ ∀ li < i, ∃ e' : Error, e'.ok = true ∧
      (⟨.copy (ctx.leg li).backend (ctx.legSpec li c), e'⟩ : ExecEvent) ∈ t)
    (J := fun e t => e.ok = false ∧ (Honest t → e.category ≠ .cancellation))
    h (u := []) ⟨rfl, by simp⟩ ?_ ?_
  · simp only [List.nil_append, Nat.zero_add] at loop
    rcases loop with ⟨rfl, hcopied⟩ | ⟨hbad, hcat⟩
    · exact ⟨fun _ => hcopied, fun _ => by simp⟩
    · exact ⟨fun hok => absurd hok (by simp [hbad]), hcat⟩
  · rintro i _ s' t₀ t _ _ ⟨rfl, hcopied⟩ hrun
    obtain ⟨e, t₁, t₂, rfl, hleg, hrest⟩ := (runs_bind _ _ _ _).mp hrun
    by_cases hok : e.ok = true
    · rw [if_pos hok] at hrest
      obtain ⟨hs, rfl⟩ := hrest
      cases hs
      refine ⟨rfl, fun li hli => ?_⟩
      rcases Nat.lt_succ_iff_lt_or_eq.mp hli with hlt | rfl
      · obtain ⟨e', hok', hmem⟩ := hcopied li hlt
        exact ⟨e', hok', List.mem_append_left _ hmem⟩
      · exact ⟨e, hok, List.mem_append_right _ (by simpa using (runLeg_result hleg).1 hok)⟩
    · rw [if_neg hok] at hrest
      cases hrest.1
  · rintro i _ s' t₀ t _ _ ⟨rfl, _⟩ hrun
    obtain ⟨e, t₁, t₂, rfl, hleg, hrest⟩ := (runs_bind _ _ _ _).mp hrun
    by_cases hok : e.ok = true
    · rw [if_pos hok] at hrest
      cases hrest.1
    · rw [if_neg hok] at hrest
      obtain ⟨hs, rfl⟩ := hrest
      cases hs
      refine ⟨by simpa using hok, fun hh => (runLeg_result hleg).2 ?_⟩
      simpa [honest_append] using (honest_append.mp hh).2

theorem legSpec_last (hlegs : ctx.legs ≠ []) (c : Chunk) :
    ctx.legSpec (ctx.nlegs - 1) c = ctx.finalSpec c := by
  have hpos : 0 < ctx.nlegs := List.length_pos_iff.mpr hlegs
  unfold legSpec finalSpec
  rw [Nat.sub_add_cancel hpos]
  rfl

theorem finalLeg_result {useAsync : Bool} {si ci : Nat} {e : Error} {t : ExecTrace}
    (hlegs : ctx.legs ≠ [])
    (h : Runs (ctx.finalLeg useAsync si (ctx.plan.chunkOf ci)) e t) :
    (e.ok = true → ctx.Passed t (ctx.nlegs - 1) ci) ∧
    (Honest t → e.category ≠ .cancellation) := by
  cases useAsync with
  | false =>
      obtain ⟨hcopy, hcat⟩ := runLeg_result
        (show Runs (ctx.runLeg (ctx.nlegs - 1) (ctx.plan.chunkOf ci)) e t from h)
      exact ⟨fun hok => ⟨e, hok, Or.inl (hcopy hok)⟩, hcat⟩
  | true =>
      unfold finalLeg at h
      rw [if_pos rfl] at h
      obtain ⟨able, rest, rfl, hr⟩ := h
      cases able with
      | false =>
          obtain ⟨rfl, rfl⟩ := hr
          exact ⟨by simp [Error.ok], by simp⟩
      | true =>
          obtain rfl := (runs_exec _ _ _).mp hr
          refine ⟨fun hok => ⟨e, hok, Or.inr ⟨si, ?_⟩⟩, fun hh => ?_⟩
          · rw [legSpec_last hlegs]
            exact List.mem_cons_of_mem _ (List.mem_singleton.mpr rfl)
          · simpa [ExecEvent.honest] using hh _ (List.mem_cons_of_mem _ List.mem_cons_self)

/-- One iteration either takes its chunk through all legs, or stops; it stops with the
cancellation category only on a raised flag. -/
theorem ChunkRun.result {useAsync : Bool} {ci : Nat} {s : LoopState} {f : Flow LoopState}
    {t : ExecTrace} (hlegs : ctx.legs ≠ []) (h : ChunkRun ctx useAsync ci s f t) :
    match f with
    | .next s' => s'.failed = s.failed ∧ ∀ li < ctx.nlegs, ctx.Passed t li ci
    | .stop s' => s'.failed = true ∧
        (s'.result.category = .cancellation → Honest t → Raised t) := by
  cases h with
  | cancelled => exact ⟨rfl, fun _ _ => rfl⟩
  | @legFailed sync legs e hsync hlegsRun he =>
      refine ⟨rfl, fun hcat hh => absurd hcat ?_⟩
      rw [honest_cons, honest_append] at hh
      exact (runLegs_result hlegsRun).2 hh.2.2
  | @finalFailed sync legs final e₀ e hsync hlegsRun he₀ hfinal he =>
      refine ⟨rfl, fun hcat hh => absurd hcat ?_⟩
      rw [honest_cons, honest_append] at hh
      exact (finalLeg_result hlegs hfinal).2 hh.2.2
  | @moved sync legs final e₀ e hsync hlegsRun he₀ hfinal he completed hcompleted =>
      refine ⟨rfl, fun li hli => ?_⟩
      by_cases hlast : li = ctx.nlegs - 1
      · subst hlast
        refine ((finalLeg_result hlegs hfinal).1 he).mono fun ev hev => ?_
        simp [hev]
      · obtain ⟨e', hok, hmem⟩ := (runLegs_result hlegsRun).1 he₀ li (by omega)
        exact ⟨e', hok, Or.inl (by simp [hmem])⟩

/-! The phases. -/

theorem chunkLoop_result {useAsync : Bool} {s : LoopState} {t : ExecTrace}
    (hlegs : ctx.legs ≠ []) (h : Runs (forLoop (ctx.chunkStep useAsync) ctx.count 0 {}) s t) :
    (s.failed = false → ∀ ci < ctx.count, ∀ li < ctx.nlegs, ctx.Passed t li ci) ∧
      (s.failed = true → s.result.category = .cancellation → Honest t → Raised t) := by
  have loop := runs_forLoop
    (I := fun i s t => s.failed = false ∧ ∀ ci < i, ∀ li < ctx.nlegs, ctx.Passed t li ci)
    (J := fun s t => s.failed = true ∧
      (s.result.category = .cancellation → Honest t → Raised t))
    h (u := []) ⟨rfl, by simp⟩ ?_ ?_
  · simp only [List.nil_append, Nat.zero_add] at loop
    rcases loop with ⟨hs, hpassed⟩ | ⟨hs, hcat⟩
    · exact ⟨fun _ => hpassed, fun hf => absurd hf (by simp [hs])⟩
    · exact ⟨fun hf => absurd hf (by simp [hs]), fun _ => hcat⟩
  · rintro i s s' t₀ t _ hi ⟨hs, hpassed⟩ hrun
    obtain ⟨hfailed, hall⟩ := (chunkStep_cases (by omega) hrun).result hlegs
    refine ⟨hfailed.trans hs, fun ci hci li hli => ?_⟩
    rcases Nat.lt_succ_iff_lt_or_eq.mp hci with hlt | rfl
    · exact (hpassed ci hlt li hli).mono fun ev hev => List.mem_append_left _ hev
    · exact (hall li hli).mono fun ev hev => List.mem_append_right _ hev
  · rintro i s s' t₀ t _ hi - hrun
    obtain ⟨hfailed, hcat⟩ := (chunkStep_cases (by omega) hrun).result hlegs
    exact ⟨hfailed, fun hc hh => (hcat hc (honest_append.mp hh).2).append_left t₀⟩

theorem drain_result {useAsync : Bool} {s s' : LoopState} {t : ExecTrace}
    (h : Runs (ctx.drain useAsync s) s' t) :
    s' = s ∨ (s'.failed = true ∧ (Honest t → s'.result.category ≠ .cancellation)) := by
  unfold drain at h
  split at h
  · have loop := runs_forLoop (I := fun _ s' _ => s' = s)
      (J := fun s' t => s'.failed = true ∧ (Honest t → s'.result.category ≠ .cancellation))
      h (u := []) rfl ?_ ?_
    · exact loop
    · rintro k s₀ s' t₀ t _ _ rfl hrun
      obtain ⟨e, rfl, hf⟩ := drainStep_cases hrun
      split at hf <;> cases hf
      rfl
    · rintro k s₀ s' t₀ t _ _ rfl hrun
      obtain ⟨e, rfl, hf⟩ := drainStep_cases hrun
      split at hf <;> cases hf
      refine ⟨rfl, fun hh => ?_⟩
      simpa [ExecEvent.honest] using (honest_append.mp hh).2 _ List.mem_cons_self
  · exact Or.inl h.1

theorem Returned.unchecked {t : ExecTrace} (h : ctx.Returned t) :
    t.Only fun ev => !ExecEvent.isCheck ev := by
  obtain ⟨rel, des, rfl, hrel, hdes⟩ := h
  refine Trace.only_append.mpr ⟨(releaseRings_only hrel).mono ?_, hdes.mono ?_⟩ <;>
  · rintro ⟨c, x⟩ hev
    cases c <;> first | rfl | cases hev

/-- The calls of the move pass for moving. -/
theorem moving_of_moves (c : ExecCall) (hc : c.moves = true) (x : ExecAnswer c) :
    ExecEvent.isMoving ⟨c, x⟩ = true := by
  cases c with
  | status u => cases u <;> first | rfl | cases hc
  | _ => first | rfl | cases hc

theorem moveChunks_quiet {useAsync : Bool} {s : LoopState} {t : ExecTrace}
    (h : Runs (ctx.moveChunks useAsync) s t) : t.Only fun ev => !ExecEvent.isVerifying ev :=
  (ctx.calls_moveChunks (fun c hc x => (Bool.and_eq_true_iff.mp (moving_of_moves c hc x)).1)
    (fun _ _ _ => rfl) (fun _ => rfl) (fun _ _ => rfl) useAsync).only h

theorem moveChunks_result {useAsync : Bool} {s : LoopState} {t : ExecTrace}
    (hlegs : ctx.legs ≠ []) (h : Runs (ctx.moveChunks useAsync) s t) :
    (s.failed = false → ∀ ci < ctx.count, ∀ li < ctx.nlegs, ctx.Passed t li ci) ∧
      (s.failed = true → s.result.category = .cancellation → Honest t → Raised t) := by
  obtain ⟨s₀, loop, drained, returned, rfl, hloop, hdrain, hret⟩ := moveChunks_cases h
  obtain ⟨hpassed, hcat⟩ := chunkLoop_result hlegs hloop
  refine ⟨fun hs ci hci li hli => ?_, fun hs hc hh => ?_⟩
  · rcases drain_result hdrain with rfl | ⟨hf, -⟩
    · exact (hpassed hs ci hci li hli).mono fun ev hev =>
        List.mem_append_left _ (List.mem_append_left _ hev)
    · rw [hs] at hf
      cases hf
  · rw [List.append_assoc] at hh ⊢
    have hh₁ := honest_append.mp hh
    rcases drain_result hdrain with rfl | ⟨-, hnot⟩
    · exact (hcat hs hc hh₁.1).append_right (Trace.only_append.mpr
        ⟨(ctx.calls_drain (fun _ _ => rfl) useAsync _).only hdrain, hret.unchecked⟩)
    · exact absurd hc (hnot (honest_append.mp hh₁.2).1)

theorem hashEndpointRegion_category {ep : EndpointRecord} {offset len : ByteCount}
    {mode : VerificationMode} {e : Error} {d : List Byte} {t : IoTrace}
    (h : Runs (hashEndpointRegion ep offset len mode) (e, d) t) :
    e.category ≠ .cancellation := by
  unfold hashEndpointRegion at h
  split at h
  · cases h.1
    simp
  split at h
  · obtain ⟨s, t₁, t₂, rfl, -, h⟩ := (runs_bind _ _ _ _).mp h
    split at h <;> cases h.1 <;> simp
  split at h
  · obtain ⟨s, t₁, t₂, rfl, -, h⟩ := (runs_bind _ _ _ _).mp h
    cases h.1
    simp
  · obtain ⟨data, rest, -, hdone⟩ := (runs_request_bind _ _ _ _).mp h
    cases hdone.1
    simp

theorem compareDigests_result {es ed r : Error} {sd dd : List Byte} {t : ExecTrace}
    (hs : es.category ≠ .cancellation) (hd : ed.category ≠ .cancellation)
    (h : Runs (ctx.compareDigests es ed sd dd) r t) :
    r.category ≠ .cancellation ∧ ∃ u, t = [⟨.status u, ()⟩] ∧ u ≠ .verifying ∧
      (r.ok = true → u = .verified ctx.plan.total) := by
  unfold compareDigests at h
  split at h
  · rename_i hes
    obtain ⟨⟨⟩, rest, rfl, rfl, rfl⟩ := (runs_exec_bind _ _ _ _).mp h
    exact ⟨hs, _, rfl, by simp, fun hok => absurd hok hes⟩
  split at h
  · rename_i hed
    obtain ⟨⟨⟩, rest, rfl, rfl, rfl⟩ := (runs_exec_bind _ _ _ _).mp h
    exact ⟨hd, _, rfl, by simp, fun hok => absurd hok hed⟩
  split at h
  · obtain ⟨⟨⟩, rest, rfl, rfl, rfl⟩ := (runs_exec_bind _ _ _ _).mp h
    exact ⟨by simp, _, rfl, by simp, by simp [Error.ok]⟩
  · obtain ⟨⟨⟩, rest, rfl, rfl, rfl⟩ := (runs_exec_bind _ _ _ _).mp h
    exact ⟨by simp, _, rfl, by simp, fun _ => rfl⟩

/-- The status update that closes a transfer whose bytes have all arrived. -/
def Closes (ctx : RunContext) (u : StatusUpdate) : Prop :=
  u = if ctx.effectiveMode ≠ .none ∧ ctx.plan.total > 0 then .verified ctx.plan.total
    else .unverified ctx.plan.total

theorem Closes.reports {u : StatusUpdate} (h : ctx.Closes u) :
    u = .verified ctx.plan.total ∨ u = .unverified ctx.plan.total := by
  unfold Closes at h
  split_ifs at h
  · exact Or.inl h
  · exact Or.inr h

theorem io_quiet (site : IoSite) (u : IoTrace) :
    Trace.Only (fun ev => !ExecEvent.isVerifying ev && !ExecEvent.isReleasing ev)
      (u.map (liftIo site)) := by
  intro ev hev
  obtain ⟨ev', -, rfl⟩ := List.mem_map.mp hev
  rfl

/-- Verification announces itself once, never reports a cancellation, and ends with
the update that reports all bytes if it succeeds. -/
theorem verify_result {r : Error} {t : ExecTrace} (h : Runs ctx.verify r t) :
    r.category ≠ .cancellation ∧ ∃ (mid : ExecTrace) (u : StatusUpdate),
      t = ⟨.status .verifying, ()⟩ :: (mid ++ [⟨.status u, ()⟩]) ∧
      mid.Only ExecEvent.isMoving ∧ u ≠ .verifying ∧ (r.ok = true → ctx.Closes u) := by
  obtain ⟨⟨⟩, rest, rfl, hrest⟩ := (runs_exec_bind _ _ _ _).mp h
  clear h
  unfold Closes
  split_ifs at hrest ⊢
  · obtain ⟨⟨es, sd⟩, t₁, t₂, rfl, hsrc, hafter⟩ := (runs_bind _ _ _ _).mp hrest
    obtain ⟨⟨ed, dd⟩, t₃, t₄, rfl, hdst, hcompare⟩ := (runs_bind _ _ _ _).mp hafter
    obtain ⟨us, hus, rfl⟩ := runs_embed_io hsrc
    obtain ⟨ud, hud, rfl⟩ := runs_embed_io hdst
    obtain ⟨hcat, u, rfl, hu, hok⟩ := compareDigests_result (hashEndpointRegion_category hus)
      (hashEndpointRegion_category hud) hcompare
    refine ⟨hcat, us.map (liftIo .hashSource) ++ ud.map (liftIo .hashDest), u, by simp, ?_, hu, hok⟩
    exact Trace.only_append.mpr ⟨io_quiet _ us, io_quiet _ ud⟩
  · obtain ⟨⟨⟩, rest, rfl, rfl, rfl⟩ := (runs_exec_bind _ _ _ _).mp hrest
    exact ⟨by simp, [], _, rfl, Trace.only_nil, by simp, fun _ => rfl⟩

/-! The whole run. -/

/-- The run leaves every ring to others: it has none, or it does not get that far. -/
def Ringless (ctx : RunContext) : Prop :=
  ctx.nlegs ≤ 1 ∨ ctx.plan.chunkCount = 0 ∨ ctx.backends ctx.lastLeg.backend = none

/-- What a run of `run_transfer` with a result tells about its trace. -/
inductive RunResult (ctx : RunContext) (e : Error) (t : ExecTrace) : Prop
  | empty (hempty : ctx.legs = [] ∨ ctx.plan.chunkCount = 0) (he : e = {})
      (ht : t = [⟨.status (.emptyDone ctx.plan.total), ()⟩])
  | stopped (hlegs : ctx.legs ≠ []) (hcount : ctx.plan.chunkCount ≠ 0) (he : e.ok = false)
      (hcat : e.category = .cancellation → Honest t → Raised t)
      (hquiet : t.Only fun ev => !ExecEvent.isVerifying ev)
  | verified (before mid : ExecTrace) (u : StatusUpdate) (hlegs : ctx.legs ≠ [])
      (hcount : ctx.plan.chunkCount ≠ 0) (hcat : e.category ≠ .cancellation)
      (ht : t = before ++ ⟨.status .verifying, ()⟩ :: (mid ++ [⟨.status u, ()⟩]))
      (hbefore : before.Only fun ev => !ExecEvent.isVerifying ev)
      (hmid : mid.Only ExecEvent.isMoving) (hu : u ≠ .verifying) (hclose : e.ok = true → ctx.Closes u)
      (hpassed : ∀ ci < ctx.count, ∀ li < ctx.nlegs, ctx.Passed t li ci)

theorem count_pos_iff (ctx : RunContext) : 0 < ctx.count ↔ ctx.plan.chunkCount ≠ 0 := by
  rw [← toNat_ne_zero]
  exact Nat.pos_iff_ne_zero

theorem runTransfer_result {e : Error} {t : ExecTrace} (h : Runs ctx.runTransfer e t) :
    ctx.RunResult e t := by
  by_cases hempty : ctx.legs = [] ∨ ctx.plan.chunkCount = 0
  · unfold runTransfer at h
    have hcond : ctx.record.route.empty = true ∨ ctx.plan.chunkCount = 0 :=
      hempty.imp_left List.isEmpty_iff.mpr
    rw [if_pos hcond] at h
    obtain ⟨⟨⟩, rest, rfl, rfl, rfl⟩ := (runs_exec_bind _ _ _ _).mp h
    exact .empty hempty rfl rfl
  obtain ⟨hlegs, hcount⟩ := not_or.mp hempty
  unfold runTransfer at h
  rw [if_neg (fun hc => hempty (hc.imp_left List.isEmpty_iff.mp))] at h
  split at h
  · obtain ⟨rfl, rfl⟩ := h
    exact .stopped hlegs hcount rfl (by simp) Trace.only_nil
  split at h
  · obtain ⟨rfl, rfl⟩ := h
    exact .stopped hlegs hcount rfl (by simp) Trace.only_nil
  rename_i finalBackend hb
  obtain ⟨useAsync, opened, rest, rfl, hopen, h⟩ := (runs_bind _ _ _ _).mp h
  obtain ⟨s, moved, after, rfl, hmove, h⟩ := (runs_bind _ _ _ _).mp h
  have hvo : opened.Only fun ev => !ExecEvent.isVerifying ev :=
    (ctx.calls_openIfWanted (fun _ _ => rfl) (fun _ _ => rfl) _).only hopen
  have hvm := moveChunks_quiet hmove
  obtain ⟨hpassed, hcat⟩ := moveChunks_result hlegs hmove
  cases hs : s.failed with
  | true =>
      rw [if_pos hs] at h
      obtain ⟨rfl, rfl⟩ := h
      rw [List.append_nil]
      have hk : ctx.Known (ctx.nlegs - 1) := by
        unfold Known
        rw [show (ctx.leg (ctx.nlegs - 1)).backend = ctx.lastLeg.backend from rfl, hb]
        rfl
      have hbad : s.result.ok = false := by
        rcases moveChunks_outcome hk ((count_pos_iff ctx).mpr hcount) hmove with ⟨hf, -⟩ | ⟨-, hres, -⟩
        · rw [hs] at hf
          cases hf
        · exact hres
      exact .stopped hlegs hcount hbad
        (fun hc hh => (hcat hs hc (honest_append.mp hh).2).append_left opened)
        (Trace.only_append.mpr ⟨hvo, hvm⟩)
  | false =>
      rw [if_neg (by simp [hs])] at h
      obtain ⟨hrcat, mid, u, rfl, hmid, hu, hclose⟩ := verify_result h
      refine .verified (opened ++ moved) mid u hlegs hcount hrcat (by simp)
        (Trace.only_append.mpr ⟨hvo, hvm⟩) hmid hu hclose fun ci hci li hli => ?_
      exact (hpassed hs ci hci li hli).mono fun ev hev =>
        List.mem_append_right _ (List.mem_append_left _ hev)

theorem not_verifying_of_moving {t : ExecTrace} (h : t.Only ExecEvent.isMoving) :
    t.Only fun ev => !ExecEvent.isVerifying ev :=
  h.mono fun _ hev => (Bool.and_eq_true_iff.mp hev).1

theorem ring_of_single_leg (h : ctx.nlegs ≤ 1) (j : Nat) : ctx.ring j = {} := by
  refine if_neg fun hj => ?_
  have hnodes : ctx.nnodes ≤ 2 := by
    by_cases hlegs : ctx.record.route.legs = []
    · simp [nnodes, nodes, Route.nodes, hlegs]
    · have hlen : ctx.nnodes = ctx.nlegs + 1 := Route.length_nodes _ hlegs
      omega
  have := hj.1
  have := hj.2
  omega

/-- A run that has no rings gives no staging buffer back. -/
theorem Ringless.keeps {e : Error} {t : ExecTrace} (hring : ctx.Ringless)
    (h : Runs ctx.runTransfer e t) : t.Only fun ev => !ExecEvent.isReleasing ev := by
  unfold runTransfer at h
  split at h
  · obtain ⟨⟨⟩, rest, rfl, rfl, rfl⟩ := (runs_exec_bind _ _ _ _).mp h
    exact Trace.only_cons.mpr ⟨rfl, Trace.only_nil⟩
  rename_i hne
  split at h
  · obtain ⟨rfl, rfl⟩ := h
    exact Trace.only_nil
  split at h
  · obtain ⟨rfl, rfl⟩ := h
    exact Trace.only_nil
  rename_i finalBackend hb
  have hsingle : ctx.nlegs ≤ 1 := by
    rcases hring with h | h | h
    · exact h
    · exact absurd (Or.inr h) hne
    · rw [h] at hb
      cases hb
  obtain ⟨useAsync, opened, rest, rfl, hopen, h⟩ := (runs_bind _ _ _ _).mp h
  obtain ⟨s, moved, after, rfl, hmove, hafter⟩ := (runs_bind _ _ _ _).mp h
  obtain ⟨s₀, loop, drained, returned, rfl, hloop, hdrain, rel, des, rfl, hrel, hdes⟩ :=
    moveChunks_cases hmove
  have hrel₀ : rel = [] := by
    rw [releaseRings_trace hrel]
    refine List.flatMap_eq_nil_iff.mpr fun j _ => ?_
    rw [ring_of_single_leg hsingle j]
    rfl
  subst hrel₀
  simp only [Trace.only_append, List.nil_append]
  refine ⟨(ctx.calls_openIfWanted (fun _ _ => rfl) (fun _ _ => rfl) _).only hopen,
    ⟨⟨(calls_forLoop (ctx.calls_chunkStep (fun c hc x =>
        (Bool.and_eq_true_iff.mp (moving_of_moves c hc x)).2) useAsync) _ _ _).only hloop,
      (ctx.calls_drain (fun _ _ => rfl) useAsync s₀).only hdrain⟩, hdes.mono ?_⟩, ?_⟩
  · rintro ⟨c, x⟩ hev
    cases c <;> first | rfl | cases hev
  · split at hafter
    · obtain ⟨rfl, rfl⟩ := hafter
      exact Trace.only_nil
    · exact (ctx.calls_verify (fun _ _ => rfl) fun _ _ _ => rfl).only hafter

end RunContext

end TransferFabric
