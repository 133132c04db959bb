import TransferFabric.Runtime.ExecutorCalls

/-!
What the executor's traces look like: one inversion per function of the
source, so that properties of runs are read off the phases of a trace and never
off the program text. Nothing is assumed about the answers.
-/

namespace TransferFabric

open Interaction

abbrev ExecEvent := Event ExecSig
abbrev ExecTrace := Trace ExecSig

namespace ExecEvent

/-- A file read that gave fewer bytes than asked for, or failed. -/
def shortRead : (c : IoCall) → IoAnswer c → Bool
  | .readFile _ n _, x => match x with
    | none => true
    | some data => data.length ≠ n.toNat
  | .seek .., _ | .writeFile .., _ | .flushFileBuffers _, _ | .load .., _ | .store .., _
  | .deviceToHost .., _ => false

/-- The answers on which the executor gives up. An error of a synchronisation
before slot reuse is not among them. -/
def stops : ExecEvent → Bool
  | ⟨.loadCancel, x⟩ => x
  | ⟨.canCopy .., x⟩ => !x
  | ⟨.copy .., e⟩ => !Error.ok e
  | ⟨.asyncCopy .., e⟩ => !Error.ok e
  | ⟨.sync .drain _, e⟩ => !Error.ok e
  | ⟨.io _ c, x⟩ => shortRead c x
  | ⟨.sync .reuse _, _⟩ | ⟨.createStream _, _⟩ | ⟨.destroyStream _, _⟩ | ⟨.status _, _⟩
  | ⟨.release .., _⟩ | ⟨.stagingPoolHit _, _⟩ => false

/-- A synchronous copy or the question whether one is possible. -/
def isCopy : ExecEvent → Bool
  | ⟨.canCopy .., _⟩ | ⟨.copy .., _⟩ => true
  | _ => false

/-- A call made while chunks are moved. -/
def isMove : ExecEvent → Bool
  | ⟨.loadCancel, _⟩ | ⟨.canCopy .., _⟩ | ⟨.copy .., _⟩ | ⟨.asyncCopy .., _⟩ | ⟨.sync .., _⟩
  | ⟨.status _, _⟩ => true
  | _ => false

/-- A call that gives resources back. -/
def isRelease : ExecEvent → Bool
  | ⟨.release .., _⟩ | ⟨.stagingPoolHit _, _⟩ | ⟨.destroyStream _, _⟩ => true
  | _ => false

def isStreamSetup : ExecEvent → Bool
  | ⟨.createStream _, _⟩ | ⟨.destroyStream _, _⟩ => true
  | _ => false

theorem isMove_of_isCopy (ev : ExecEvent) (h : isCopy ev = true) : isMove ev = true := by
  obtain ⟨c, x⟩ := ev
  cases c <;> simp_all [isCopy, isMove]

end ExecEvent

/-- No answer made the executor give up. -/
def Clean (t : ExecTrace) : Prop := t.Only fun ev => !ExecEvent.stops ev

@[simp] theorem clean_nil : Clean [] := Trace.only_nil

@[simp] theorem clean_append (t u : ExecTrace) : Clean (t ++ u) ↔ Clean t ∧ Clean u :=
  Trace.only_append

@[simp] theorem clean_cons (ev : ExecEvent) (t : ExecTrace) :
    Clean (ev :: t) ↔ ExecEvent.stops ev = false ∧ Clean t := by
  simp [Clean]

theorem runs_exec (c : ExecCall) (r : ExecAnswer c) (t : ExecTrace) :
    Runs (exec c) r t ↔ t = [⟨c, r⟩] := runs_request (S := ExecSig) c r t

theorem runs_exec_bind {β : Type} (c : ExecCall) (f : ExecAnswer c → Prog ExecSig β) (r : β)
    (t : ExecTrace) :
    Runs (exec c >>= f) r t ↔ ∃ x rest, t = ⟨c, x⟩ :: rest ∧ Runs (f x) r rest := Iff.rfl

namespace RunContext

variable {ctx : RunContext}

/-- The leg names a registered backend. -/
def Known (ctx : RunContext) (li : Nat) : Prop := (ctx.backends (ctx.leg li).backend).isSome

theorem depth_pos (ctx : RunContext) : 0 < ctx.depth := by
  unfold depth
  split <;> omega

theorem runLeg_trace {li : Nat} {c : Chunk} {e : Error} {t : ExecTrace}
    (h : Runs (ctx.runLeg li c) e t) :
    t.Only ExecEvent.isCopy ∧ (e.ok = true ↔ ctx.Known li ∧ Clean t) := by
  unfold runLeg at h
  unfold Known
  cases hb : ctx.backends (ctx.leg li).backend with
  | none =>
      simp only [hb] at h
      obtain ⟨rfl, rfl⟩ := h
      exact ⟨by simp, by simp [Error.ok]⟩
  | some b =>
      simp only [hb] at h
      obtain ⟨able, rest, rfl, hr⟩ := h
      cases able with
      | false =>
          obtain ⟨rfl, rfl⟩ := hr
          exact ⟨by simp [ExecEvent.isCopy], by simp [Error.ok, ExecEvent.stops]⟩
      | true =>
          obtain rfl := (runs_exec _ _ _).mp hr
          exact ⟨by simp [ExecEvent.isCopy], by simp [ExecEvent.stops]⟩

theorem runLegs_trace {c : Chunk} {e : Error} {t : ExecTrace} (h : Runs (ctx.runLegs c) e t) :
    t.Only ExecEvent.isCopy ∧
      (e.ok = true ↔ (∀ li < ctx.nlegs - 1, ctx.Known li) ∧ Clean t) := by
  have loop := runs_forLoop
    (I := fun i e t => t.Only ExecEvent.isCopy ∧ e.ok = true ∧ (∀ li < i, ctx.Known li) ∧ Clean t)
    (J := fun e t => t.Only ExecEvent.isCopy ∧ e.ok = false ∧
      ¬ ((∀ li < ctx.nlegs - 1, ctx.Known li) ∧ Clean t))
    h (u := []) ⟨by simp, rfl, by simp, clean_nil⟩ ?_ ?_
  · simp only [List.nil_append, Nat.zero_add] at loop
    rcases loop with ⟨hc, ok, hk, hclean⟩ | ⟨hc, ok, hbad⟩
    · exact ⟨hc, fun _ => ⟨hk, hclean⟩, fun _ => ok⟩
    · exact ⟨hc, fun hok => absurd hok (by simp [ok]), fun hgood => absurd hgood hbad⟩
  · rintro i _ s' t₀ t _ _ ⟨hc, _, hk, hclean⟩ hrun
    obtain ⟨e, t₁, t₂, rfl, hleg, hrest⟩ := (runs_bind _ _ _ _).mp hrun
    obtain ⟨hcopy, hiff⟩ := runLeg_trace hleg
    by_cases hok : e.ok = true
    · rw [if_pos hok] at hrest
      obtain ⟨hs, rfl⟩ := hrest
      cases hs
      obtain ⟨hknown, hcl⟩ := hiff.mp hok
      refine ⟨by simpa using ⟨hc, hcopy⟩, rfl, ?_, by simpa using ⟨hclean, hcl⟩⟩
      · intro li hli
        rcases Nat.lt_succ_iff_lt_or_eq.mp hli with h | rfl
        · exact hk li h
        · exact hknown
    · rw [if_neg hok] at hrest
      cases hrest.1
  · rintro i _ s' t₀ t _ hi ⟨hc, _, hk, hclean⟩ hrun
    obtain ⟨e, t₁, t₂, rfl, hleg, hrest⟩ := (runs_bind _ _ _ _).mp hrun
    obtain ⟨hcopy, hiff⟩ := runLeg_trace hleg
    by_cases hok : e.ok = true
    · rw [if_pos hok] at hrest
      cases hrest.1
    · rw [if_neg hok] at hrest
      obtain ⟨hs, rfl⟩ := hrest
      cases hs
      refine ⟨by simpa using ⟨hc, hcopy⟩, by simpa using hok, ?_⟩
      · rintro ⟨hall, hcl⟩
        simp only [List.append_nil, clean_append] at hcl
        exact hok (hiff.mpr ⟨hall i (by omega), hcl.2⟩)

theorem finalLeg_async {si : Nat} {c : Chunk} {e : Error} {t : ExecTrace}
    (h : Runs (ctx.finalLeg true si c) e t) :
    (e.ok = false ∧ t = [⟨.canCopy ctx.lastLeg.backend (ctx.finalSpec c), false⟩]) ∨
      t = [⟨.canCopy ctx.lastLeg.backend (ctx.finalSpec c), true⟩,
        ⟨.asyncCopy ctx.lastLeg.backend (ctx.finalSpec c) si, e⟩] := by
  unfold finalLeg at h
  rw [if_pos rfl] at h
  obtain ⟨able, rest, rfl, hr⟩ := h
  cases able with
  | false =>
      obtain ⟨rfl, rfl⟩ := hr
      exact Or.inl ⟨rfl, rfl⟩
  | true =>
      obtain rfl := (runs_exec _ _ _).mp hr
      exact Or.inr rfl

theorem finalLeg_trace {useAsync : Bool} {si : Nat} {c : Chunk} {e : Error} {t : ExecTrace}
    (hk : ctx.Known (ctx.nlegs - 1)) (h : Runs (ctx.finalLeg useAsync si c) e t) :
    t.Only ExecEvent.isMove ∧ (e.ok = true ↔ Clean t) := by
  cases useAsync with
  | false =>
      obtain ⟨hcopy, hiff⟩ := runLeg_trace (show Runs (ctx.runLeg (ctx.nlegs - 1) c) e t from h)
      exact ⟨hcopy.mono fun ev => ExecEvent.isMove_of_isCopy ev, hiff.trans (and_iff_right hk)⟩
  | true =>
      rcases finalLeg_async h with ⟨he, rfl⟩ | rfl
      · simp [he, ExecEvent.isMove, ExecEvent.stops]
      · simp [ExecEvent.isMove, ExecEvent.stops]

/-- The synchronisation iteration `ci` makes before it reuses a ring slot. -/
def ReuseSync (ctx : RunContext) (useAsync : Bool) (ci : Nat) (t : ExecTrace) : Prop :=
  if useAsync = true ∧ ci ≥ ctx.depth then
    ∃ e, t = [⟨.sync .reuse (ctx.streamOf useAsync ci), e⟩]
  else t = []

/-- Everything one iteration of the chunk loop can do. -/
inductive ChunkRun (ctx : RunContext) (useAsync : Bool) (ci : Nat) (s : LoopState) :
    Flow LoopState → ExecTrace → Prop
  | cancelled :
      ChunkRun ctx useAsync ci s
        (.stop { s with
          result := { category := .cancellation, message := "cancelled during transfer" }
          failed := true })
        [⟨.loadCancel, true⟩]
  | legFailed {sync legs : ExecTrace} {e : Error} (hsync : ctx.ReuseSync useAsync ci sync)
      (hlegs : Runs (ctx.runLegs (ctx.plan.chunkOf ci)) e legs) (he : e.ok = false) :
      ChunkRun ctx useAsync ci s (.stop { s with result := e, failed := true })
        (⟨.loadCancel, false⟩ :: (sync ++ legs))
  | finalFailed {sync legs final : ExecTrace} {e₀ e : Error}
      (hsync : ctx.ReuseSync useAsync ci sync)
      (hlegs : Runs (ctx.runLegs (ctx.plan.chunkOf ci)) e₀ legs) (he₀ : e₀.ok = true)
      (hfinal : Runs (ctx.finalLeg useAsync (ctx.streamOf useAsync ci) (ctx.plan.chunkOf ci)) e
        final) (he : e.ok = false) :
      ChunkRun ctx useAsync ci s (.stop { s with result := e, failed := true })
        (⟨.loadCancel, false⟩ :: (sync ++ legs ++ final))
  | moved {sync legs final : ExecTrace} {e₀ e : Error} (hsync : ctx.ReuseSync useAsync ci sync)
      (hlegs : Runs (ctx.runLegs (ctx.plan.chunkOf ci)) e₀ legs) (he₀ : e₀.ok = true)
      (hfinal : Runs (ctx.finalLeg useAsync (ctx.streamOf useAsync ci) (ctx.plan.chunkOf ci)) e
        final) (he : e.ok = true) (completed : ByteCount)
      (hcompleted : completed = s.completed + (ctx.plan.chunkOf ci).length) :
      ChunkRun ctx useAsync ci s (.next { s with completed := completed })
        (⟨.loadCancel, false⟩ :: (sync ++ legs ++ final ++
          [⟨.status (.progress completed (UInt64.ofNat (ci + 1))), ()⟩]))

theorem chunkAt_plan (ctx : RunContext) {ci : Nat} (hci : ci < ctx.count) :
    ctx.plan.chunkAt (UInt64.ofNat ci) {} = ({}, ctx.plan.chunkOf ci) := by
  have hcount : ctx.plan.chunkCount ≠ 0 := by
    rw [← toNat_ne_zero]
    unfold count at hci
    omega
  have built := ctx.record.chunkPlan.built
  exact ChunkPlan.chunkAt_eq (built.covers (built.total_ne_zero hcount)) hci {}

theorem syncForReuse_trace {useAsync : Bool} {ci : Nat} {u : Unit} {t : ExecTrace}
    (h : Runs (ctx.syncForReuse useAsync ci) u t) : ctx.ReuseSync useAsync ci t := by
  unfold syncForReuse at h
  unfold ReuseSync
  split at h
  · rename_i hreuse
    obtain ⟨e, rest, rfl, -, rfl⟩ := h
    rw [if_pos hreuse]
    exact ⟨e, rfl⟩
  · rename_i hreuse
    rw [if_neg hreuse]
    exact h.2

theorem chunkStep_cases {useAsync : Bool} {ci : Nat} {s : LoopState} {f : Flow LoopState}
    {t : ExecTrace} (hci : ci < ctx.count) (hrun : Runs (ctx.chunkStep useAsync ci s) f t) :
    ChunkRun ctx useAsync ci s f t := by
  unfold chunkStep at hrun
  obtain ⟨cancelled, rest, rfl, h⟩ := (runs_exec_bind _ _ _ _).mp hrun
  clear hrun
  cases cancelled with
  | true =>
      obtain ⟨rfl, rfl⟩ := h
      exact .cancelled
  | false =>
      rw [chunkAt_plan ctx hci] at h
      obtain ⟨u, sync, moves, rfl, hsync, hmove⟩ := (runs_bind _ _ _ _).mp h
      replace hsync := syncForReuse_trace hsync
      obtain ⟨e₀, legs, rest, rfl, hlegs, hmove⟩ := (runs_bind _ _ _ _).mp hmove
      by_cases he₀ : e₀.ok = true
      · rw [if_neg (not_not.mpr he₀)] at hmove
        obtain ⟨e, final, rest, rfl, hfinal, hmove⟩ := (runs_bind _ _ _ _).mp hmove
        by_cases he : e.ok = true
        · rw [if_neg (not_not.mpr he)] at hmove
          obtain ⟨x, rest, rfl, rfl, rfl⟩ := hmove
          rw [← List.append_assoc, ← List.append_assoc]
          exact .moved hsync hlegs he₀ hfinal he _ rfl
        · rw [if_pos he] at hmove
          obtain ⟨rfl, rfl⟩ := hmove
          rw [List.append_nil, ← List.append_assoc]
          exact .finalFailed hsync hlegs he₀ hfinal (by simpa using he)
      · rw [if_pos he₀] at hmove
        obtain ⟨rfl, rfl⟩ := hmove
        rw [List.append_nil]
        exact .legFailed hsync hlegs (by simpa using he₀)

/-- Every leg but the last names a registered backend. -/
def LegsKnown (ctx : RunContext) : Prop := ∀ li < ctx.nlegs - 1, ctx.Known li

/-- A phase of the transfer either went through with a clean trace or stopped on a reason. -/
def Outcome (ctx : RunContext) (s : LoopState) (t : ExecTrace) : Prop :=
  (s.failed = false ∧ ctx.LegsKnown ∧ Clean t) ∨
    (s.failed = true ∧ s.result.ok = false ∧ ¬ (ctx.LegsKnown ∧ Clean t))

theorem ReuseSync.clean {useAsync : Bool} {ci : Nat} {t : ExecTrace}
    (h : ctx.ReuseSync useAsync ci t) : Clean t ∧ t.Only ExecEvent.isMove := by
  unfold ReuseSync at h
  split at h
  · obtain ⟨e, rfl⟩ := h
    simp [ExecEvent.stops, ExecEvent.isMove]
  · subst h
    simp

/-- One iteration: it goes on with a clean trace, or it stops on a reason. -/
theorem ChunkRun.outcome {useAsync : Bool} {ci : Nat} {s : LoopState} {f : Flow LoopState}
    {t : ExecTrace} (hk : ctx.Known (ctx.nlegs - 1)) (h : ChunkRun ctx useAsync ci s f t) :
    t.Only ExecEvent.isMove ∧
      match f with
      | .next s' => s'.failed = s.failed ∧ ctx.LegsKnown ∧ Clean t
      | .stop s' => s'.failed = true ∧ s'.result.ok = false ∧ ¬ (ctx.LegsKnown ∧ Clean t) := by
  cases h with
  | cancelled => simp [ExecEvent.isMove, ExecEvent.stops, Error.ok]
  | legFailed hsync hlegs he =>
      obtain ⟨hcopy, hiff⟩ := runLegs_trace hlegs
      have hmove := hcopy.mono fun ev => ExecEvent.isMove_of_isCopy ev
      refine ⟨by simp [ExecEvent.isMove, hsync.clean.2, hmove], rfl, he, ?_⟩
      rintro ⟨hknown, hclean⟩
      simp only [clean_cons, clean_append] at hclean
      rw [hiff.mpr ⟨hknown, hclean.2.2⟩] at he
      cases he
  | finalFailed hsync hlegs he₀ hfinal he =>
      have hmove := (runLegs_trace hlegs).1.mono fun ev => ExecEvent.isMove_of_isCopy ev
      obtain ⟨hlast, hiff⟩ := finalLeg_trace hk hfinal
      refine ⟨by simp [ExecEvent.isMove, hsync.clean.2, hmove, hlast], rfl, he, ?_⟩
      rintro ⟨-, hclean⟩
      simp only [clean_cons, clean_append] at hclean
      rw [hiff.mpr hclean.2.2] at he
      cases he
  | moved hsync hlegs he₀ hfinal he completed hcompleted =>
      obtain ⟨hcopy, hlegsIff⟩ := runLegs_trace hlegs
      have hmove := hcopy.mono fun ev => ExecEvent.isMove_of_isCopy ev
      obtain ⟨hlast, hfinalIff⟩ := finalLeg_trace hk hfinal
      obtain ⟨hknown, hclean⟩ := hlegsIff.mp he₀
      exact ⟨by simp [ExecEvent.isMove, hsync.clean.2, hmove, hlast], rfl, hknown,
        by simp [ExecEvent.stops, hsync.clean.1, hclean, hfinalIff.mp he]⟩

theorem chunkLoop_outcome {useAsync : Bool} {s : LoopState} {t : ExecTrace}
    (hk : ctx.Known (ctx.nlegs - 1)) (hcount : 0 < ctx.count)
    (h : Runs (forLoop (ctx.chunkStep useAsync) ctx.count 0 {}) s t) :
    t.Only ExecEvent.isMove ∧ ctx.Outcome s t := by
  have loop := runs_forLoop
    (I := fun i s t => t.Only ExecEvent.isMove ∧ s.failed = false ∧
      (0 < i → ctx.LegsKnown) ∧ Clean t)
    (J := fun s t => t.Only ExecEvent.isMove ∧ s.failed = true ∧ s.result.ok = false ∧
      ¬ (ctx.LegsKnown ∧ Clean t))
    h (u := []) ⟨by simp, rfl, by simp, clean_nil⟩ ?_ ?_
  · simp only [List.nil_append, Nat.zero_add] at loop
    rcases loop with ⟨hm, hs, hknown, hclean⟩ | ⟨hm, hstop⟩
    · exact ⟨hm, Or.inl ⟨hs, hknown hcount, hclean⟩⟩
    · exact ⟨hm, Or.inr hstop⟩
  · rintro i s s' t₀ t _ hi ⟨hm, hs, _, hclean⟩ hrun
    obtain ⟨hmove, hfailed, hknown, hcl⟩ := (chunkStep_cases (by omega) hrun).outcome hk
    exact ⟨by simp [hm, hmove], hfailed.trans hs, fun _ => hknown, by simp [hclean, hcl]⟩
  · rintro i s s' t₀ t _ hi ⟨hm, _, _, _⟩ hrun
    obtain ⟨hmove, hfailed, hres, hbad⟩ := (chunkStep_cases (by omega) hrun).outcome hk
    refine ⟨by simp [hm, hmove], hfailed, hres, ?_⟩
    rintro ⟨hknown, hcl⟩
    exact hbad ⟨hknown, ((clean_append _ _).mp hcl).2⟩

theorem drainStep_cases {k : Nat} {s : LoopState} {f : Flow LoopState} {t : ExecTrace}
    (h : Runs (drainStep k s) f t) :
    ∃ e : Error, t = [⟨.sync .drain k, e⟩] ∧
      f = if e.ok then .next s else .stop { s with result := e, failed := true } := by
  obtain ⟨e, rest, rfl, hrest⟩ := (runs_exec_bind _ _ _ _).mp h
  refine ⟨e, ?_⟩
  by_cases he : Error.ok e = true
  · rw [if_pos he] at hrest
    obtain ⟨rfl, rfl⟩ := hrest
    exact ⟨rfl, (if_pos he).symm⟩
  · rw [if_neg he] at hrest
    obtain ⟨rfl, rfl⟩ := hrest
    exact ⟨rfl, (if_neg he).symm⟩

theorem drainLoop_outcome {s s' : LoopState} {t : ExecTrace}
    (h : Runs (forLoop drainStep ctx.depth 0 s) s' t) :
    t.Only ExecEvent.isMove ∧
      ((s' = s ∧ Clean t) ∨ (s'.failed = true ∧ s'.result.ok = false ∧ ¬ Clean t)) := by
  have loop := runs_forLoop
    (I := fun _ s' t => t.Only ExecEvent.isMove ∧ s' = s ∧ Clean t)
    (J := fun s' t => t.Only ExecEvent.isMove ∧
      s'.failed = true ∧ s'.result.ok = false ∧ ¬ Clean t)
    h (u := []) ⟨by simp, rfl, clean_nil⟩ ?_ ?_
  · simp only [List.nil_append] at loop
    rcases loop with ⟨hm, rfl, hclean⟩ | ⟨hm, hstop⟩
    · exact ⟨hm, Or.inl ⟨rfl, hclean⟩⟩
    · exact ⟨hm, Or.inr hstop⟩
  · rintro k s₀ s' t₀ t _ _ ⟨hm, hs₀, hclean⟩ hrun
    obtain ⟨e, rfl, hf⟩ := drainStep_cases hrun
    by_cases he : e.ok = true
    · rw [if_pos he] at hf
      cases hf
      exact ⟨by simp [hm, ExecEvent.isMove], hs₀, by simp [hclean, ExecEvent.stops, he]⟩
    · rw [if_neg he] at hf
      cases hf
  · rintro k s₀ s' t₀ t _ _ ⟨hm, _, _⟩ hrun
    obtain ⟨e, rfl, hf⟩ := drainStep_cases hrun
    by_cases he : e.ok = true
    · rw [if_pos he] at hf
      cases hf
    · rw [if_neg he] at hf
      cases hf
      exact ⟨by simp [hm, ExecEvent.isMove], rfl, by simpa using he,
        by simp [ExecEvent.stops, he]⟩

/-! Giving resources back. -/

/-- The calls that give one buffer back. -/
def releaseEvents (ctx : RunContext) (pool : PoolKind) (b : StagingBuffer) : ExecTrace :=
  ⟨.release pool b, ()⟩ :: if ctx.telemetry then [⟨.stagingPoolHit false, ()⟩] else []

theorem releaseOne_trace {pool : PoolKind} {b : StagingBuffer} {u : Unit} {t : ExecTrace}
    (h : Runs (ctx.releaseOne pool b) u t) : t = ctx.releaseEvents pool b := by
  obtain ⟨⟨⟩, rest, rfl, hrest⟩ := (runs_exec_bind _ _ _ _).mp h
  unfold releaseEvents
  by_cases htel : ctx.telemetry = true
  · rw [if_pos htel] at hrest
    obtain ⟨⟨⟩, rest, rfl, -, rfl⟩ := (runs_exec_bind _ _ _ _).mp hrest
    rw [if_pos htel]
  · rw [if_neg htel] at hrest
    rw [if_neg htel, hrest.2]

theorem releaseAll_trace {pool : PoolKind} {bufs : List StagingBuffer} {u : Unit} {t : ExecTrace}
    (h : Runs (ctx.releaseAll pool bufs) u t) : t = bufs.flatMap (ctx.releaseEvents pool) := by
  induction bufs generalizing t with
  | nil => exact h.2
  | cons b rest ih =>
      obtain ⟨_, t₁, t₂, rfl, hone, hrest⟩ := (runs_bind _ _ _ _).mp h
      rw [List.flatMap_cons, releaseOne_trace hone, ih hrest]

theorem releaseRings_trace {u : Unit} {t : ExecTrace} (h : Runs ctx.releaseRings u t) :
    t = (List.range ctx.nnodes).flatMap fun j =>
      (ctx.ring j).bufs.flatMap (ctx.releaseEvents (poolFor (ctx.ring j).domain)) := by
  have loop := runs_forLoop
    (I := fun i _ t => t = (List.range i).flatMap fun j =>
      (ctx.ring j).bufs.flatMap (ctx.releaseEvents (poolFor (ctx.ring j).domain)))
    (J := fun _ _ => False) h (u := []) rfl ?_ ?_
  · simpa using loop
  · intro j _ _ t₀ t _ _ ht₀ hrun
    obtain ⟨_, t₁, t₂, rfl, hrel, -, rfl⟩ := (runs_bind _ _ _ _).mp hrun
    rw [ht₀, releaseAll_trace hrel, List.range_succ, List.flatMap_append]
    simp
  · intro j _ _ t₀ t _ _ _ hrun
    obtain ⟨_, t₁, t₂, rfl, -, hstop, -⟩ := (runs_bind _ _ _ _).mp hrun
    cases hstop

theorem mem_releaseRings {j : Nat} {b : StagingBuffer} {t : ExecTrace} {u : Unit}
    (h : Runs ctx.releaseRings u t) (hj : j < ctx.nnodes) (hb : b ∈ (ctx.ring j).bufs) :
    (⟨.release (poolFor (ctx.ring j).domain) b, ()⟩ : ExecEvent) ∈ t := by
  rw [releaseRings_trace h]
  simp only [List.mem_flatMap, List.mem_range]
  exact ⟨j, hj, b, hb, List.mem_cons_self⟩

theorem releaseRings_only {t : ExecTrace} {u : Unit} (h : Runs ctx.releaseRings u t) :
    t.Only ExecEvent.isRelease :=
  (ctx.calls_releaseRings (fun _ _ _ => rfl) fun _ => rfl).only h

theorem destroyStreams_trace {n : Nat} {u : Unit} {t : ExecTrace}
    (h : Runs (destroyStreams n) u t) : t.Only ExecEvent.isStreamSetup :=
  (calls_destroyStreams (fun _ _ => rfl) n).only h

theorem openIfWanted_trace {finalBackend : Backend} {b : Bool} {t : ExecTrace}
    (h : Runs (ctx.openIfWanted finalBackend) b t) : t.Only ExecEvent.isStreamSetup :=
  (ctx.calls_openIfWanted (fun _ _ => rfl) (fun _ _ => rfl) _).only h

/-- The asynchronous path needs an intermediate node. -/
theorem openIfWanted_nlegs {finalBackend : Backend} {t : ExecTrace}
    (h : Runs (ctx.openIfWanted finalBackend) true t) : 2 ≤ ctx.nlegs := by
  unfold openIfWanted at h
  split at h
  · rename_i hw
    unfold wantsAsync at hw
    exact (of_decide_eq_true hw).2.1
  · cases h.1

/-! The phases of a transfer. -/

/-- What follows the chunk loop and the drain. -/
def Returned (ctx : RunContext) (t : ExecTrace) : Prop :=
  ∃ rel des : ExecTrace, t = rel ++ des ∧ Runs ctx.releaseRings () rel ∧
    des.Only ExecEvent.isStreamSetup

theorem moveChunks_cases {useAsync : Bool} {s : LoopState} {t : ExecTrace}
    (h : Runs (ctx.moveChunks useAsync) s t) :
    ∃ s₀ loop drained returned, t = loop ++ drained ++ returned ∧
      Runs (forLoop (ctx.chunkStep useAsync) ctx.count 0 {}) s₀ loop ∧
      Runs (ctx.drain useAsync s₀) s drained ∧ ctx.Returned returned := by
  obtain ⟨s₀, loop, t₁, rfl, hloop, h⟩ := (runs_bind _ _ _ _).mp h
  obtain ⟨s₁, drained, t₂, rfl, hdrain, h⟩ := (runs_bind _ _ _ _).mp h
  obtain ⟨⟨⟩, rel, t₃, rfl, hrel, h⟩ := (runs_bind _ _ _ _).mp h
  obtain ⟨⟨⟩, des, t₄, rfl, hdes, rfl, rfl⟩ := (runs_bind _ _ _ _).mp h
  exact ⟨s₀, loop, drained, rel ++ des, by simp, hloop, hdrain, rel, des, rfl, hrel,
    destroyStreams_trace hdes⟩

/-- Everything a transfer can do, phase by phase. -/
inductive TransferRun (ctx : RunContext) : Error → ExecTrace → Prop
  | empty (h : ctx.record.route.empty = true ∨ ctx.plan.chunkCount = 0) :
      TransferRun ctx {} [⟨.status (.emptyDone ctx.plan.total), ()⟩]
  | refused {e : Error} (hlegs : ctx.legs ≠ []) (he : e.ok = false) : TransferRun ctx e []
  | failed {useAsync : Bool} {s : LoopState} {opened moved : ExecTrace}
      (hcount : 0 < ctx.count) (hlegs : ctx.legs ≠ []) (hk : ctx.Known (ctx.nlegs - 1))
      (hasync : useAsync = true → 2 ≤ ctx.nlegs) (hopen : opened.Only ExecEvent.isStreamSetup)
      (hmove : Runs (ctx.moveChunks useAsync) s moved) (hs : s.failed = true) :
      TransferRun ctx s.result (opened ++ moved)
  | moved {useAsync : Bool} {s : LoopState} {r : Error} {opened moved verified : ExecTrace}
      (hcount : 0 < ctx.count) (hlegs : ctx.legs ≠ []) (hk : ctx.Known (ctx.nlegs - 1))
      (hasync : useAsync = true → 2 ≤ ctx.nlegs) (hopen : opened.Only ExecEvent.isStreamSetup)
      (hmove : Runs (ctx.moveChunks useAsync) s moved) (hs : s.failed = false)
      (hverify : Runs ctx.verify r verified) :
      TransferRun ctx r (opened ++ moved ++ verified)

theorem runTransfer_cases {r : Error} {t : ExecTrace} (h : Runs ctx.runTransfer r t) :
    ctx.TransferRun r t := by
  unfold runTransfer at h
  split at h
  · rename_i hempty
    obtain ⟨⟨⟩, rest, rfl, rfl, rfl⟩ := (runs_exec_bind _ _ _ _).mp h
    exact .empty hempty
  rename_i hne
  have hlegs : ctx.legs ≠ [] := fun hnil => hne (Or.inl (List.isEmpty_iff.mpr hnil))
  split at h
  · obtain ⟨rfl, rfl⟩ := h
    exact .refused hlegs rfl
  split at h
  · obtain ⟨rfl, rfl⟩ := h
    exact .refused hlegs rfl
  · rename_i finalBackend hb
    obtain ⟨useAsync, opened, rest, rfl, hopen, h⟩ := (runs_bind _ _ _ _).mp h
    obtain ⟨s, moved, verified, rfl, hmove, h⟩ := (runs_bind _ _ _ _).mp h
    have hasync : useAsync = true → 2 ≤ ctx.nlegs := fun ha => openIfWanted_nlegs (ha ▸ hopen)
    replace hopen := openIfWanted_trace hopen
    have hcount : 0 < ctx.count := by
      have := (toNat_ne_zero ctx.plan.chunkCount).mpr (fun h => hne (Or.inr h))
      exact Nat.pos_of_ne_zero this
    have hk : ctx.Known (ctx.nlegs - 1) := by
      unfold Known
      rw [show (ctx.leg (ctx.nlegs - 1)).backend = ctx.lastLeg.backend from rfl, hb]
      rfl
    cases hs : s.failed with
    | true =>
        rw [if_pos hs] at h
        obtain ⟨rfl, rfl⟩ := h
        rw [List.append_nil]
        exact .failed hcount hlegs hk hasync hopen hmove hs
    | false =>
        rw [if_neg (by simp [hs])] at h
        rw [← List.append_assoc]
        exact .moved hcount hlegs hk hasync hopen hmove hs h

end RunContext

end TransferFabric
