import TransferFabric.Runtime.ExecutorFailure
import TransferFabric.Runtime.Layout

/-!
When staging buffers go back to their pools while a stream may still use them.
The ledger of a trace keeps the asynchronous copies that no successful
synchronisation of their stream has followed. On the way out of the chunk loop
the executor drains the streams only if nothing failed, and it releases the
rings either way, so most early exits release buffers that are still in use.
-/

namespace TransferFabric

open Interaction

/-- What a trace says about the streams. -/
structure StreamLedger where
  /-- Accepted asynchronous copies not followed by a successful `sync` of their stream. -/
  outstanding : List (Nat × CopySpec) := []
  /-- Some asynchronous copy was accepted. -/
  issued : Bool := false
  /-- Some answer made the chunk loop stop. -/
  stopped : Bool := false
  cancelled : Bool := false
  /-- The answer of the latest `sync`. -/
  syncOk : Bool := true
  /-- The streams whose final `sync` failed. -/
  undrained : List Nat := []

namespace StreamLedger

def accept (l : StreamLedger) (k : Nat) (spec : CopySpec) : StreamLedger :=
  { l with outstanding := l.outstanding ++ [(k, spec)], issued := true }

def synced (l : StreamLedger) (site : SyncSite) (k : Nat) (ok : Bool) : StreamLedger :=
  { l with
    outstanding := if ok then l.outstanding.filter (fun q => q.1 ≠ k) else l.outstanding
    syncOk := ok
    undrained := if site = .drain ∧ ok = false then k :: l.undrained else l.undrained }

def step (l : StreamLedger) : ExecEvent → StreamLedger
  | ⟨.loadCancel, x⟩ => { l with stopped := l.stopped || x, cancelled := l.cancelled || x }
  | ⟨.canCopy .., x⟩ => { l with stopped := l.stopped || !x }
  | ⟨.copy .., e⟩ => { l with stopped := l.stopped || !Error.ok e }
  | ⟨.asyncCopy _ spec k, e⟩ => if Error.ok e then l.accept k spec else { l with stopped := true }
  | ⟨.sync site k, e⟩ => l.synced site k (Error.ok e)
  | _ => l

theorem step_not_cancelled (l : StreamLedger) : l.step ⟨.loadCancel, false⟩ = l := by
  simp [step]

end StreamLedger

def ledger (t : ExecTrace) : StreamLedger := t.foldl StreamLedger.step {}

theorem ledger_append (t u : ExecTrace) :
    ledger (t ++ u) = u.foldl StreamLedger.step (ledger t) := List.foldl_append

/-- Events the ledger does not look at. -/
def ExecEvent.isNeutral : ExecEvent → Bool
  | ⟨.loadCancel, _⟩ | ⟨.canCopy .., _⟩ | ⟨.copy .., _⟩ | ⟨.asyncCopy .., _⟩ | ⟨.sync .., _⟩ =>
      false
  | _ => true

def ExecEvent.isSynchronous : ExecEvent → Bool
  | ⟨.asyncCopy .., _⟩ => false
  | _ => true

theorem StreamLedger.step_neutral (l : StreamLedger) (ev : ExecEvent)
    (h : ExecEvent.isNeutral ev = true) : l.step ev = l := by
  obtain ⟨c, x⟩ := ev
  cases c <;> first | rfl | cases h

theorem StreamLedger.foldl_neutral (l : StreamLedger) {t : ExecTrace}
    (h : t.Only ExecEvent.isNeutral) : t.foldl StreamLedger.step l = l := by
  induction t generalizing l with
  | nil => rfl
  | cons ev t ih =>
      obtain ⟨hev, ht⟩ := Trace.only_cons.mp h
      rw [List.foldl_cons, l.step_neutral ev hev, ih l ht]

theorem ledger_append_neutral {t u : ExecTrace} (h : u.Only ExecEvent.isNeutral) :
    ledger (t ++ u) = ledger t := by
  rw [ledger_append, StreamLedger.foldl_neutral _ h]

theorem ledger_neutral_append {t u : ExecTrace} (h : t.Only ExecEvent.isNeutral) :
    ledger (t ++ u) = ledger u := by
  rw [ledger_append, ledger, StreamLedger.foldl_neutral _ h, ledger]

/-- The byte ranges `[a, a+n)` and `[b, b+m)` of the address space share a byte. -/
def Overlap (a : Address) (n : ByteCount) (b : Address) (m : ByteCount) : Prop :=
  ∃ i < n.toNat, ∃ j < m.toNat, a + UInt64.ofNat i = b + UInt64.ofNat j

/-- The copy reads or writes the buffer. -/
def CopySpec.Touches (spec : CopySpec) (b : StagingBuffer) : Prop :=
  (isStorage spec.srcKind = false ∧ Overlap spec.srcPtr spec.bytes b.data b.size) ∨
    (isStorage spec.dstKind = false ∧ Overlap spec.dstPtr spec.bytes b.data b.size)

/-- Whenever a buffer is released, no outstanding copy touches it. -/
def SafeReleases (t : ExecTrace) : Prop :=
  ∀ before after pool b, t = before ++ ⟨.release pool b, ()⟩ :: after →
    ∀ q ∈ (ledger before).outstanding, ¬ q.2.Touches b

namespace RunContext

variable {ctx : RunContext}

/-- Which ledgers leave nothing outstanding when the rings are released. -/
def Settled (ctx : RunContext) (l : StreamLedger) : Prop :=
  l.issued = false ∨
    (l.stopped = false ∧ ∀ k ∈ l.undrained, ctx.count ≤ k) ∨
    (ctx.depth = 1 ∧ l.cancelled = false ∧ l.syncOk = true)

/-- At the head of iteration `i`: nothing stopped, what is outstanding belongs to earlier
chunks, and every stream used so far still has a copy outstanding. -/
structure InFlight (ctx : RunContext) (i : Nat) (l : StreamLedger) : Prop where
  running : l.stopped = false ∧ l.cancelled = false ∧ l.undrained = []
  issued : l.issued = decide (0 < i)
  entries : ∀ q ∈ l.outstanding, ∃ c < i, q = ctx.entry c
  busy : ∀ k < ctx.depth, k < i → ∃ q ∈ l.outstanding, q.1 = k
  known : 0 < i → ctx.LegsKnown

theorem inFlight_zero (ctx : RunContext) : ctx.InFlight 0 {} where
  running := ⟨rfl, rfl, rfl⟩
  issued := rfl
  entries := fun q hq => absurd hq List.not_mem_nil
  busy := fun _ _ h => absurd h (by omega)
  known := fun h => absurd h (by omega)

theorem InFlight.outstanding_nil_iff {i : Nat} {l : StreamLedger} (h : ctx.InFlight i l) :
    l.outstanding = [] ↔ i = 0 := by
  constructor
  · intro hnil
    by_contra hi
    obtain ⟨q, hq, -⟩ := h.busy 0 ctx.depth_pos (by omega)
    rw [hnil] at hq
    cases hq
  · rintro rfl
    refine List.eq_nil_iff_forall_not_mem.mpr fun q hq => ?_
    obtain ⟨c, hc, -⟩ := h.entries q hq
    omega

/-- Synchronous copies only tell the ledger whether the loop goes on. -/
theorem foldl_copies (l : StreamLedger) {t : ExecTrace} (hcopy : t.Only ExecEvent.isCopy) :
    ∃ b, t.foldl StreamLedger.step l = { l with stopped := l.stopped || b } ∧
      (Clean t ↔ b = false) := by
  induction t generalizing l with
  | nil => exact ⟨false, by simp, by simp⟩
  | cons ev t ih =>
      obtain ⟨hev, ht⟩ := Trace.only_cons.mp hcopy
      have hstep : l.step ev = { l with stopped := l.stopped || ExecEvent.stops ev } := by
        obtain ⟨c, x⟩ := ev
        cases c <;> first | rfl | cases hev
      obtain ⟨b, hb, hclean⟩ := ih (l.step ev) ht
      refine ⟨ExecEvent.stops ev || b, ?_, ?_⟩
      · rw [List.foldl_cons, hb, hstep]
        simp [Bool.or_assoc]
      · simp [hclean]

/-- The ledger after the reuse synchronisation of iteration `i`: it clears at most the
stream of that iteration, and that one only if it succeeds. -/
structure Synced (ctx : RunContext) (i : Nat) (l l₁ : StreamLedger) : Prop where
  same : l₁.stopped = l.stopped ∧ l₁.cancelled = l.cancelled ∧ l₁.undrained = l.undrained ∧
    l₁.issued = l.issued
  sub : ∀ q ∈ l₁.outstanding, q ∈ l.outstanding
  kept : ∀ q ∈ l.outstanding, q.1 ≠ i % ctx.depth → q ∈ l₁.outstanding
  cleared : ctx.depth ≤ i → l₁.syncOk = true → ∀ q ∈ l₁.outstanding, q.1 ≠ i % ctx.depth
  unsynced : ctx.depth ≤ i → l₁.syncOk = false → l₁.outstanding = l.outstanding

theorem ReuseSync.synced {i : Nat} {t : ExecTrace} (l : StreamLedger)
    (h : ctx.ReuseSync true i t) : ctx.Synced i l (t.foldl StreamLedger.step l) := by
  unfold ReuseSync at h
  by_cases hi : ctx.depth ≤ i
  · rw [if_pos ⟨rfl, hi⟩] at h
    obtain ⟨e, rfl⟩ := h
    change ctx.Synced i l (l.synced .reuse (i % ctx.depth) (Error.ok e))
    cases Error.ok e with
    | false => exact ⟨⟨rfl, rfl, rfl, rfl⟩, fun _ h => h, fun _ h _ => h, (fun _ h => by cases h), fun _ _ => rfl⟩
    | true =>
        refine ⟨⟨rfl, rfl, rfl, rfl⟩, fun q hq => (List.mem_filter.mp hq).1, fun q hq hne => ?_,
          fun _ _ q hq => ?_, (fun _ h => by cases h)⟩
        · exact List.mem_filter.mpr ⟨hq, by simpa using hne⟩
        · simpa using (List.mem_filter.mp hq).2
  · rw [if_neg (fun hc => hi hc.2)] at h
    subst h
    exact ⟨⟨rfl, rfl, rfl, rfl⟩, fun _ h => h, fun _ h _ => h, fun h => absurd h hi,
      fun h => absurd h hi⟩

/-- One more chunk: its copy joins the outstanding ones. -/
theorem InFlight.next {i : Nat} {l : StreamLedger} {s s' : LoopState} {t : ExecTrace}
    (h : ctx.InFlight i l) (hrun : ChunkRun ctx true i s (.next s') t) :
    ctx.InFlight (i + 1) (t.foldl StreamLedger.step l) := by
  cases hrun with
  | @moved sync legs final e₀ e hsync hlegs he₀ hfinal he completed hcompleted =>
      obtain ⟨hcopy, hok⟩ := runLegs_trace hlegs
      obtain ⟨hknown, hclean⟩ := hok.mp he₀
      have hs := hsync.synced l
      generalize hl₁ : sync.foldl StreamLedger.step l = l₁ at hs
      obtain ⟨b, hb, hbclean⟩ := foldl_copies l₁ hcopy
      have hfin : final = [⟨.canCopy ctx.lastLeg.backend (ctx.finalSpec (ctx.plan.chunkOf i)), true⟩,
          ⟨.asyncCopy ctx.lastLeg.backend (ctx.finalSpec (ctx.plan.chunkOf i))
            (i % ctx.depth), e⟩] := by
        rcases finalLeg_async hfinal with ⟨hbad, -⟩ | hfin
        · rw [he] at hbad
          cases hbad
        · exact hfin
      have hledger : (⟨.loadCancel, false⟩ :: (sync ++ legs ++ final ++
          [⟨.status (.progress completed (UInt64.ofNat (i + 1))), ()⟩]) : ExecTrace).foldl
          StreamLedger.step l = l₁.accept (i % ctx.depth) (ctx.finalSpec (ctx.plan.chunkOf i)) := by
        rw [List.foldl_cons, StreamLedger.step_not_cancelled, List.foldl_append, List.foldl_append,
          List.foldl_append, hl₁, hb, hbclean.mp hclean, hfin]
        simp [StreamLedger.step, StreamLedger.accept, he]
      rw [hledger]
      refine ⟨⟨hs.same.1.trans h.running.1, hs.same.2.1.trans h.running.2.1,
        hs.same.2.2.1.trans h.running.2.2⟩, by simp [StreamLedger.accept], ?_, ?_, fun _ => hknown⟩
      · intro q hq
        rcases List.mem_append.mp hq with hq | hq
        · obtain ⟨c, hc, rfl⟩ := h.entries q (hs.sub q hq)
          exact ⟨c, by omega, rfl⟩
        · exact ⟨i, by omega, List.mem_singleton.mp hq⟩
      · intro k hk hki
        by_cases heq : k = i % ctx.depth
        · exact ⟨_, List.mem_append_right _ (List.mem_singleton.mpr rfl), heq.symm⟩
        · -- a stream other than this iteration's was used by an earlier chunk
          have hlt : k < i := by
            rcases Nat.lt_succ_iff_lt_or_eq.mp hki with hlt | rfl
            · exact hlt
            · exact absurd (Nat.mod_eq_of_lt hk).symm heq
          obtain ⟨q, hq, rfl⟩ := h.busy k hk hlt
          exact ⟨q, List.mem_append_left _ (hs.kept q hq heq), rfl⟩

/-- What the ledger tells once the chunks are no longer moving: what is outstanding belongs
to chunks of the plan, and it is nothing exactly when the ledger is settled. -/
structure Quiet (ctx : RunContext) (l : StreamLedger) : Prop where
  entries : ∀ q ∈ l.outstanding, ∃ c < ctx.count, q = ctx.entry c
  settled : l.outstanding = [] ↔ ctx.Settled l

theorem InFlight.cancelled {i : Nat} {l : StreamLedger} (h : ctx.InFlight i l)
    (hi : i < ctx.count) : ctx.Quiet (l.step ⟨.loadCancel, true⟩) where
  entries := fun q hq => by
    obtain ⟨c, hc, rfl⟩ := h.entries q hq
    exact ⟨c, by omega, rfl⟩
  settled := by
    change l.outstanding = [] ↔ _
    rw [h.outstanding_nil_iff]
    simp [Settled, StreamLedger.step, h.issued]

/-- A failed leg stops the loop with everything but the iteration's own stream in flight. -/
theorem InFlight.stopped {i : Nat} {l l₁ l₂ : StreamLedger} (h : ctx.InFlight i l)
    (hi : i < ctx.count) (hs : ctx.Synced i l l₁)
    (hl₂ : l₂ = { l₁ with stopped := l₂.stopped }) (hstop : 0 < i → l₂.stopped = true) :
    ctx.Quiet l₂ := by
  have hout : l₂.outstanding = l₁.outstanding := by rw [hl₂]
  have hissued : l₂.issued = decide (0 < i) := by rw [hl₂]; exact hs.same.2.2.2.trans h.issued
  have hcancel : l₂.cancelled = false := by rw [hl₂]; exact hs.same.2.1.trans h.running.2.1
  have hsync : l₂.syncOk = l₁.syncOk := by rw [hl₂]
  refine ⟨fun q hq => ?_, ?_⟩
  · obtain ⟨c, hc, rfl⟩ := h.entries q (hs.sub q (hout ▸ hq))
    exact ⟨c, by omega, rfl⟩
  rcases Nat.eq_zero_or_pos i with rfl | hpos
  · have hnil : l₂.outstanding = [] := by
      rw [hout]
      refine List.eq_nil_iff_forall_not_mem.mpr fun q hq => ?_
      have := hs.sub q hq
      rw [h.outstanding_nil_iff.mpr rfl] at this
      cases this
    simp [hnil, Settled, hissued]
  · have hsettled : ctx.Settled l₂ ↔ ctx.depth = 1 ∧ l₁.syncOk = true := by
      simp [Settled, hissued, hpos, hstop hpos, hcancel, hsync]
    rw [hsettled, hout]
    by_cases hd : ctx.depth = 1
    · -- a single stream: the synchronisation just made decides
      have hdi : ctx.depth ≤ i := by omega
      have hmod : ∀ q ∈ l.outstanding, q.1 = i % ctx.depth := fun q hq => by
        obtain ⟨c, -, rfl⟩ := h.entries q hq
        simp [entry, hd, Nat.mod_one]
      cases hok : l₁.syncOk with
      | true =>
          simp only [hd, and_self, iff_true]
          refine List.eq_nil_iff_forall_not_mem.mpr fun q hq => ?_
          exact hs.cleared hdi hok q hq (hmod q (hs.sub q hq))
      | false =>
          rw [hs.unsynced hdi hok, h.outstanding_nil_iff]
          simp only [Bool.false_eq_true, and_false, iff_false]
          omega
    · -- the previous chunk's stream is another one and was not synchronised
      have hdepth := ctx.depth_pos
      have hprev : (i - 1) % ctx.depth ≠ i % ctx.depth := by
        intro heq
        have hzero := Nat.sub_mod_eq_zero_of_mod_eq heq.symm
        rw [show i - (i - 1) = 1 by omega, Nat.mod_eq_of_lt (by omega)] at hzero
        cases hzero
      have hlt : (i - 1) % ctx.depth < i :=
        Nat.lt_of_le_of_lt (Nat.mod_le _ _) (by omega)
      obtain ⟨q, hq, hqk⟩ := h.busy _ (Nat.mod_lt _ hdepth) hlt
      have hmem := hs.kept q hq (by rw [hqk]; exact hprev)
      simp only [hd, false_and, iff_false]
      intro hnil
      rw [hnil] at hmem
      cases hmem

theorem InFlight.stop {i : Nat} {l : StreamLedger} {s s' : LoopState} {t : ExecTrace}
    (h : ctx.InFlight i l) (hi : i < ctx.count) (hrun : ChunkRun ctx true i s (.stop s') t) :
    s'.failed = true ∧ ctx.Quiet (t.foldl StreamLedger.step l) := by
  cases hrun with
  | cancelled => exact ⟨rfl, h.cancelled hi⟩
  | @legFailed sync legs e hsync hlegs he =>
      obtain ⟨hcopy, hok⟩ := runLegs_trace hlegs
      have hs := hsync.synced l
      generalize hl₁ : sync.foldl StreamLedger.step l = l₁ at hs
      obtain ⟨b, hb, hbclean⟩ := foldl_copies l₁ hcopy
      rw [List.foldl_cons, StreamLedger.step_not_cancelled, List.foldl_append, hl₁, hb]
      refine ⟨rfl, h.stopped hi hs rfl fun hpos => ?_⟩
      have hunclean : ¬ Clean legs := fun hc => by
        rw [hok.mpr ⟨h.known hpos, hc⟩] at he
        cases he
      simpa [hbclean] using Or.inr hunclean
  | @finalFailed sync legs final e₀ e hsync hlegs he₀ hfinal he =>
      obtain ⟨hcopy, hok⟩ := runLegs_trace hlegs
      have hs := hsync.synced l
      generalize hl₁ : sync.foldl StreamLedger.step l = l₁ at hs
      obtain ⟨b, hb, hbclean⟩ := foldl_copies l₁ hcopy
      obtain rfl := hbclean.mp (hok.mp he₀).2
      rw [List.foldl_cons, StreamLedger.step_not_cancelled, List.foldl_append, List.foldl_append,
        hl₁, hb]
      rcases finalLeg_async hfinal with ⟨-, rfl⟩ | rfl
      · exact ⟨rfl, h.stopped hi hs (by simp [StreamLedger.step]) (by simp [StreamLedger.step])⟩
      · exact ⟨rfl, h.stopped hi hs (by simp [StreamLedger.step, he])
          (by simp [StreamLedger.step, he])⟩

theorem chunkLoop_ledger {s : LoopState} {t : ExecTrace}
    (h : Runs (forLoop (ctx.chunkStep true) ctx.count 0 {}) s t) :
    (s.failed = false ∧ ctx.InFlight ctx.count (ledger t)) ∨
      (s.failed = true ∧ ctx.Quiet (ledger t)) := by
  have loop := runs_forLoop
    (I := fun i s t => s.failed = false ∧ ctx.InFlight i (ledger t))
    (J := fun s t => s.failed = true ∧ ctx.Quiet (ledger t))
    h (u := []) ⟨rfl, ctx.inFlight_zero⟩ ?_ ?_
  · simpa using loop
  · rintro i s s' t₀ t _ hi ⟨hs, hfl⟩ hrun
    have hcases := chunkStep_cases (by omega) hrun
    rw [ledger_append]
    refine ⟨?_, hfl.next hcases⟩
    cases hcases
    exact hs
  · rintro i s s' t₀ t _ hi ⟨_, hfl⟩ hrun
    rw [ledger_append]
    exact hfl.stop (by omega) (chunkStep_cases (by omega) hrun)

/-- While the streams are drained in order: the first `k` have nothing outstanding. -/
structure Draining (ctx : RunContext) (k : Nat) (l : StreamLedger) : Prop where
  running : l.stopped = false ∧ l.issued = true ∧ l.undrained = []
  entries : ∀ q ∈ l.outstanding, ∃ c < ctx.count, q = ctx.entry c
  above : ∀ q ∈ l.outstanding, k ≤ q.1
  busy : ∀ j < ctx.depth, j < ctx.count → k ≤ j → ∃ q ∈ l.outstanding, q.1 = j

theorem InFlight.draining {l : StreamLedger} (h : ctx.InFlight ctx.count l)
    (hcount : 0 < ctx.count) : ctx.Draining 0 l where
  running := ⟨h.running.1, by simp [h.issued, hcount], h.running.2.2⟩
  entries := h.entries
  above := fun _ _ => Nat.zero_le _
  busy := fun j hj hc _ => h.busy j hj hc

theorem Draining.next {k : Nat} {l : StreamLedger} (h : ctx.Draining k l) :
    ctx.Draining (k + 1) (l.synced .drain k true) where
  running := h.running
  entries := fun q hq => h.entries q (List.mem_filter.mp hq).1
  above := fun q hq => by
    obtain ⟨hmem, hne⟩ := List.mem_filter.mp hq
    have := h.above q hmem
    have hne : q.1 ≠ k := by simpa using hne
    omega
  busy := fun j hj hc hkj => by
    obtain ⟨q, hq, rfl⟩ := h.busy j hj hc (by omega)
    exact ⟨q, List.mem_filter.mpr ⟨hq, by simp; omega⟩, rfl⟩

theorem Draining.done {l : StreamLedger} (h : ctx.Draining ctx.depth l) : ctx.Quiet l where
  entries := h.entries
  settled := by
    have hnil : l.outstanding = [] := List.eq_nil_iff_forall_not_mem.mpr fun q hq => by
      have hge := h.above q hq
      obtain ⟨c, -, rfl⟩ := h.entries q hq
      exact absurd (Nat.mod_lt c ctx.depth_pos) (Nat.not_lt.mpr hge)
    simp [hnil, Settled, h.running.1, h.running.2.2]

theorem Draining.failed {k : Nat} {l : StreamLedger} (h : ctx.Draining k l)
    (hk : k < ctx.depth) : ctx.Quiet (l.synced .drain k false) where
  entries := h.entries
  settled := by
    have hsettled : ctx.Settled (l.synced .drain k false) ↔ ctx.count ≤ k := by
      simp [Settled, StreamLedger.synced, h.running]
    rw [hsettled]
    change l.outstanding = [] ↔ _
    constructor
    · intro hnil
      by_contra hlt
      obtain ⟨q, hq, -⟩ := h.busy k hk (by omega) (Nat.le_refl k)
      rw [hnil] at hq
      cases hq
    · intro hle
      refine List.eq_nil_iff_forall_not_mem.mpr fun q hq => ?_
      have hge := h.above q hq
      obtain ⟨c, hc, rfl⟩ := h.entries q hq
      have : c % ctx.depth ≤ c := Nat.mod_le c ctx.depth
      simp only [entry] at hge
      omega

theorem drainLoop_ledger {s s' : LoopState} {t₀ t : ExecTrace}
    (h₀ : ctx.Draining 0 (ledger t₀)) (h : Runs (forLoop drainStep ctx.depth 0 s) s' t) :
    ctx.Quiet (ledger (t₀ ++ t)) := by
  have loop := runs_forLoop (I := fun k _ t => ctx.Draining k (ledger t))
    (J := fun _ t => ctx.Quiet (ledger t)) h h₀ ?_ ?_
  · rw [Nat.zero_add] at loop
    exact loop.elim Draining.done id
  · intro k s s' t₀ t _ _ hd hrun
    obtain ⟨e, rfl, hf⟩ := drainStep_cases hrun
    by_cases he : e.ok = true
    · rw [ledger_append]
      change ctx.Draining (k + 1) ((ledger t₀).synced .drain k e.ok)
      rw [he]
      exact hd.next
    · rw [if_neg he] at hf
      cases hf
  · intro k s s' t₀ t _ hk hd hrun
    obtain ⟨e, rfl, hf⟩ := drainStep_cases hrun
    by_cases he : e.ok = true
    · rw [if_pos he] at hf
      cases hf
    · rw [ledger_append]
      change ctx.Quiet ((ledger t₀).synced .drain k e.ok)
      rw [Bool.eq_false_iff.mpr he]
      exact hd.failed (by omega)

/-! The synchronous path never has anything outstanding. -/

theorem ledger_no_async {t : ExecTrace} (h : t.Only ExecEvent.isSynchronous) :
    (ledger t).issued = false ∧ (ledger t).outstanding = [] := by
  have hfold : ∀ l : StreamLedger, l.issued = false ∧ l.outstanding = [] →
      (t.foldl StreamLedger.step l).issued = false ∧
        (t.foldl StreamLedger.step l).outstanding = [] := by
    induction t with
    | nil => exact fun l hl => hl
    | cons ev t ih =>
        obtain ⟨hev, ht⟩ := Trace.only_cons.mp h
        intro l hl
        refine ih ht _ ?_
        obtain ⟨c, x⟩ := ev
        cases c with
        | asyncCopy name spec k => cases hev
        | sync site k => simp [StreamLedger.step, StreamLedger.synced, hl]
        | _ => exact hl
  exact hfold {} ⟨rfl, rfl⟩

theorem chunkLoop_sync {s : LoopState} {t : ExecTrace}
    (h : Runs (forLoop (ctx.chunkStep false) ctx.count 0 {}) s t) :
    t.Only ExecEvent.isSynchronous := by
  have hcopies : ∀ u : ExecTrace, u.Only ExecEvent.isCopy →
      u.Only ExecEvent.isSynchronous := fun u hu => hu.mono fun ev hev => by
    obtain ⟨c, x⟩ := ev
    cases c <;> first | rfl | cases hev
  have hstep : ∀ i s f u, i < ctx.count → Runs (ctx.chunkStep false i s) f u →
      Trace.Only ExecEvent.isSynchronous u := by
    intro i s f u hi hrun
    have hsync : ∀ v, ctx.ReuseSync false i v → v = [] := fun v hv => by
      simpa [ReuseSync] using hv
    cases chunkStep_cases hi hrun with
    | cancelled => simp [ExecEvent.isSynchronous]
    | legFailed hv hlegs _ =>
        have hl := hcopies _ (runLegs_trace hlegs).1
        simp [ExecEvent.isSynchronous, hsync _ hv, hl]
    | finalFailed hv hlegs _ hfinal _ =>
        have hl := hcopies _ (runLegs_trace hlegs).1
        have hf := hcopies _ (runLeg_trace hfinal).1
        simp [ExecEvent.isSynchronous, hsync _ hv, hl, hf]
    | moved hv hlegs _ hfinal _ completed _ =>
        have hl := hcopies _ (runLegs_trace hlegs).1
        have hf := hcopies _ (runLeg_trace hfinal).1
        simp [ExecEvent.isSynchronous, hsync _ hv, hl, hf]
  have loop := runs_forLoop (I := fun _ _ t => t.Only ExecEvent.isSynchronous)
    (J := fun _ t => t.Only ExecEvent.isSynchronous) h (u := []) Trace.only_nil
    (fun i s s' t₀ t _ hi ht hrun =>
      Trace.only_append.mpr ⟨ht, hstep i s _ t (by omega) hrun⟩)
    (fun i s s' t₀ t _ hi ht hrun =>
      Trace.only_append.mpr ⟨ht, hstep i s _ t (by omega) hrun⟩)
  simpa using loop

/-- After the loop and the drain, on either path. -/
theorem moved_quiet {useAsync : Bool} {s₀ s : LoopState} {loop drained : ExecTrace}
    (hcount : 0 < ctx.count)
    (hloop : Runs (forLoop (ctx.chunkStep useAsync) ctx.count 0 {}) s₀ loop)
    (hdrain : Runs (ctx.drain useAsync s₀) s drained) : ctx.Quiet (ledger (loop ++ drained)) := by
  cases useAsync with
  | false =>
      simp only [drain, Bool.false_eq_true, false_and, if_false] at hdrain
      rw [hdrain.2, List.append_nil]
      obtain ⟨hissued, hnil⟩ := ledger_no_async (chunkLoop_sync hloop)
      exact ⟨by simp [hnil], by simp [hnil, Settled, hissued]⟩
  | true =>
      rcases chunkLoop_ledger hloop with ⟨hs, hfl⟩ | ⟨hs, hquiet⟩
      · simp only [drain, hs, Bool.false_eq_true, not_false_eq_true, and_self, if_true] at hdrain
        exact drainLoop_ledger (hfl.draining hcount) hdrain
      · simp only [drain, hs, not_true_eq_false, and_false, if_false] at hdrain
        rw [hdrain.2, List.append_nil]
        exact hquiet

/-! From the ledger to the released buffers. -/

theorem neutral_of_setup {t : ExecTrace} (h : t.Only ExecEvent.isStreamSetup) :
    t.Only ExecEvent.isNeutral := h.mono fun ev hev => by
  obtain ⟨c, x⟩ := ev
  cases c <;> first | rfl | cases hev

theorem neutral_of_release {t : ExecTrace} (h : t.Only ExecEvent.isRelease) :
    t.Only ExecEvent.isNeutral := h.mono fun ev hev => by
  obtain ⟨c, x⟩ := ev
  cases c <;> first | rfl | cases hev

theorem VerifyRun.neutral {r : Error} {t : ExecTrace} (h : VerifyRun ctx r t) :
    t.Only ExecEvent.isNeutral := by
  have hio : ∀ site (u : IoTrace), Trace.Only ExecEvent.isNeutral (u.map (liftIo site)) := by
    intro site u ev hev
    obtain ⟨iev, -, rfl⟩ := List.mem_map.mp hev
    rfl
  cases h with
  | skipped _ => simp [ExecEvent.isNeutral]
  | compared _ _ _ _ _ => simp [ExecEvent.isNeutral, hio]

/-- An outstanding copy reads the ring buffer of its slot, which is among the released. -/
theorem entry_touches (hres : ctx.Reserved) (hlegs : ctx.legs ≠ []) (hn : 2 ≤ ctx.nlegs)
    {c : Nat} (hc : c < ctx.count) :
    ∃ b ∈ (ctx.ring (ctx.nlegs - 1)).bufs, (ctx.entry c).2.Touches b := by
  have hstaged := (staged_iff hlegs (ctx.nlegs - 1)).mpr ⟨by omega, by omega⟩
  have hslot := slot_lt hres hstaged hc
  rw [ctx.chunkOf_slot hc] at hslot
  have hb := List.getElem_mem hslot
  refine ⟨_, hb, Or.inl ?_⟩
  have hpos : 0 < (ctx.plan.chunkOf c).length.toNat := by
    rw [ctx.chunkOf_length]
    exact (ctx.covers hc).length_pos hc
  simp only [entry, finalSpec, ctx.locAt_staged hstaged hc, buildSpec]
  refine ⟨rfl, 0, hpos, 0, ?_, ?_⟩
  · rw [(hres _ hstaged).2 _ hb]
    exact (ctx.covers hc).size_pos
  · rw [List.getD_eq_getElem?_getD, List.getElem?_eq_getElem hslot, Option.getD_some]

theorem safeReleases_iff {a n : ExecTrace} (hquiet : ctx.Quiet (ledger a))
    (ha : ∀ pool b, (⟨.release pool b, ()⟩ : ExecEvent) ∉ a) (hn : n.Only ExecEvent.isNeutral)
    (hreleased : ∀ c < ctx.count, ctx.entry c ∈ (ledger a).outstanding → ∃ pool b,
      (⟨.release pool b, ()⟩ : ExecEvent) ∈ n ∧ (ctx.entry c).2.Touches b) :
    SafeReleases (a ++ n) ↔ ctx.Settled (ledger (a ++ n)) := by
  rw [ledger_append_neutral hn, ← hquiet.settled]
  constructor
  · intro hsafe
    refine List.eq_nil_iff_forall_not_mem.mpr fun q hq => ?_
    obtain ⟨c, hc, rfl⟩ := hquiet.entries q hq
    obtain ⟨pool, b, hmem, htouch⟩ := hreleased c hc hq
    obtain ⟨m, rest, rfl⟩ := List.append_of_mem hmem
    have hm : Trace.Only ExecEvent.isNeutral m := (Trace.only_append.mp hn).1
    refine hsafe (a ++ m) rest pool b (by simp) (ctx.entry c) ?_ htouch
    rw [ledger_append_neutral hm]
    exact hq
  · intro hnil before after pool b heq q hq
    -- the released event cannot stand in the first part, so the second part is cut
    rcases List.append_eq_append_iff.mp heq with ⟨m, rfl, hm⟩ | ⟨m, rfl, hm⟩
    · have hneutral : Trace.Only ExecEvent.isNeutral m := by
        rw [hm] at hn
        exact (Trace.only_append.mp hn).1
      rw [ledger_append_neutral hneutral, hnil] at hq
      cases hq
    · cases m with
      | nil =>
          rw [List.append_nil] at hnil
          rw [hnil] at hq
          cases hq
      | cons ev m =>
          obtain ⟨rfl, -⟩ := List.cons.inj hm
          exact absurd (List.mem_append_right _ List.mem_cons_self) (ha pool b)

theorem not_mem_of_move {t : ExecTrace} (h : t.Only ExecEvent.isMove) (pool : PoolKind)
    (b : StagingBuffer) : (⟨.release pool b, ()⟩ : ExecEvent) ∉ t := fun hmem => by
  cases h _ hmem

theorem not_mem_of_setup {t : ExecTrace} (h : t.Only ExecEvent.isStreamSetup) (pool : PoolKind)
    (b : StagingBuffer) : (⟨.release pool b, ()⟩ : ExecEvent) ∉ t := fun hmem => by
  cases h _ hmem

/-- A moved transfer, whatever follows the release of its rings. -/
theorem moveChunks_releases {useAsync : Bool} {s : LoopState} {opened moved : ExecTrace}
    (after : ExecTrace) (hres : ctx.Reserved) (hcount : 0 < ctx.count) (hlegs : ctx.legs ≠ [])
    (hk : ctx.Known (ctx.nlegs - 1)) (hasync : useAsync = true → 2 ≤ ctx.nlegs)
    (hopen : opened.Only ExecEvent.isStreamSetup)
    (hmove : Runs (ctx.moveChunks useAsync) s moved) (hafter : after.Only ExecEvent.isNeutral) :
    SafeReleases (opened ++ moved ++ after) ↔ ctx.Settled (ledger (opened ++ moved ++ after)) := by
  obtain ⟨s₀, loop, drained, returned, rfl, hloop, hdrain, rel, des, rfl, hrel, hdes⟩ :=
    moveChunks_cases hmove
  have hquiet := moved_quiet hcount hloop hdrain
  have hopened := neutral_of_setup hopen
  have hn : Trace.Only ExecEvent.isNeutral (rel ++ des ++ after) := by
    simp [neutral_of_release (releaseRings_only hrel), neutral_of_setup hdes, hafter]
  have hsplit : opened ++ (loop ++ drained ++ (rel ++ des)) ++ after =
      opened ++ (loop ++ drained) ++ (rel ++ des ++ after) := by simp
  rw [hsplit]
  refine safeReleases_iff (by rwa [ledger_neutral_append hopened]) ?_ hn ?_
  · intro pool b hmem
    simp only [List.mem_append] at hmem
    rcases hmem with hmem | hmem | hmem
    · exact not_mem_of_setup hopen pool b hmem
    · exact not_mem_of_move (chunkLoop_outcome hk hcount hloop).1 pool b hmem
    · exact not_mem_of_move (drain_outcome hdrain).1 pool b hmem
  · intro c hc hmem
    -- only the asynchronous path has entries, and there the last ring is staged
    have hn2 : 2 ≤ ctx.nlegs := by
      cases useAsync with
      | true => exact hasync rfl
      | false =>
          simp only [drain, Bool.false_eq_true, false_and, if_false] at hdrain
          rw [ledger_neutral_append hopened, hdrain.2, List.append_nil,
            (ledger_no_async (chunkLoop_sync hloop)).2] at hmem
          cases hmem
    obtain ⟨b, hb, htouch⟩ := entry_touches hres hlegs hn2 hc
    have hj : ctx.nlegs - 1 < ctx.nnodes := by rw [nnodes_eq hlegs]; omega
    exact ⟨_, b, List.mem_append_left _ (List.mem_append_left _ (mem_releaseRings hrel hj hb)),
      htouch⟩

/-- No buffer is released while an asynchronous copy that touches it is outstanding, in exactly
the runs that issued no asynchronous copy, or moved every chunk and drained every stream they
used, or have a single stream and stopped, not by cancellation, right after synchronising it. -/
theorem staging_released_safely_iff {r : Error} {t : ExecTrace} (hres : ctx.Reserved)
    (h : Runs ctx.runTransfer r t) : SafeReleases t ↔ ctx.Settled (ledger t) := by
  have htrivial : ∀ u : ExecTrace, u.Only ExecEvent.isNeutral →
      (∀ pool b, (⟨.release pool b, ()⟩ : ExecEvent) ∉ u) →
      (SafeReleases u ↔ ctx.Settled (ledger u)) := by
    intro u hu hno
    have hnil : ledger u = {} := StreamLedger.foldl_neutral _ hu
    rw [hnil]
    refine ⟨fun _ => Or.inl rfl, fun _ before after pool b heq => ?_⟩
    exact absurd (heq ▸ List.mem_append_right _ List.mem_cons_self) (hno pool b)
  cases runTransfer_cases h with
  | empty _ =>
      exact htrivial _ (by simp [ExecEvent.isNeutral]) fun _ _ hmem => by
        cases List.mem_singleton.mp hmem
  | refused _ _ => exact htrivial _ Trace.only_nil (by simp)
  | failed hcount hlegs hk hasync hopen hmove hs =>
      have := moveChunks_releases [] hres hcount hlegs hk hasync hopen hmove
        Trace.only_nil
      simpa using this
  | moved hcount hlegs hk hasync hopen hmove hs hverify =>
      exact moveChunks_releases _ hres hcount hlegs hk hasync hopen hmove
        (verify_cases hverify).neutral

end RunContext

/-- The transfer is cancelled once its first copy has been issued. -/
def cancelsAfterFirst (t : ExecTrace) : (c : ExecCall) → ExecAnswer c
  | .loadCancel => (ledger t).issued
  | c => obliging c

theorem pinnedToDevice_reserved : pinnedToDevice.Reserved := by
  intro j hj
  have hnodes : pinnedToDevice.nnodes = 3 := by decide +kernel
  have hj1 : j = 1 := by
    obtain ⟨h1, h2⟩ := hj
    omega
  subst hj1
  decide +kernel

def ExecEvent.releases (pool : PoolKind) (b : StagingBuffer) : ExecEvent → Bool
  | ⟨.release p d, _⟩ => p = pool ∧ d = b
  | _ => false

theorem ExecEvent.eq_of_releases {pool : PoolKind} {b : StagingBuffer} {ev : ExecEvent}
    (h : ExecEvent.releases pool b ev = true) : ev = ⟨.release pool b, ()⟩ := by
  obtain ⟨c, x⟩ := ev
  cases c with
  | release p d =>
      obtain ⟨rfl, rfl⟩ : p = pool ∧ d = b := by simpa [releases] using h
      rfl
  | _ => cases h

/-- The pinned buffer of the first chunk is released while its copy is outstanding. -/
theorem staging_released_in_use :
    let run := pinnedToDevice.runTransfer.play cancelsAfterFirst []
    Runs pinnedToDevice.runTransfer run.1 run.2 ∧ ¬ SafeReleases run.2 := by
  refine ⟨Prog.runs_play _ _, ?_⟩
  have hrelease : ((pinnedToDevice.runTransfer.play cancelsAfterFirst []).2[9]?).any
      (ExecEvent.releases .hostPinned { data := 0x10000, size := 4096 }) = true := by
    decide +kernel
  have hout : (ledger ((pinnedToDevice.runTransfer.play cancelsAfterFirst []).2.take 9)).outstanding =
      [pinnedToDevice.entry 0] := by decide +kernel
  have htouch : (pinnedToDevice.entry 0).2.Touches { data := 0x10000, size := 4096 } :=
    Or.inl ⟨by decide +kernel, 0, by decide +kernel, 0, by decide +kernel, by decide +kernel⟩
  generalize (pinnedToDevice.runTransfer.play cancelsAfterFirst []).2 = t at hrelease hout
  obtain ⟨ev, hev, hr⟩ := (Option.any_eq_true _ _).mp hrelease
  obtain ⟨hlen, rfl⟩ := List.getElem?_eq_some_iff.mp hev
  have hsplit : t = t.take 9 ++ ⟨.release .hostPinned { data := 0x10000, size := 4096 }, ()⟩ ::
      t.drop 10 := by
    rw [← ExecEvent.eq_of_releases hr, ← List.drop_eq_getElem_cons hlen, List.take_append_drop]
  have hmem : pinnedToDevice.entry 0 ∈ (ledger (t.take 9)).outstanding := by
    rw [hout]
    exact List.mem_singleton.mpr rfl
  exact fun hsafe => hsafe _ _ _ _ hsplit _ hmem htouch

/-- A run in which every call succeeds meets the condition. -/
theorem staging_released_obliging :
    let run := pinnedToDevice.runTransfer.play (fun _ => obliging) []
    Runs pinnedToDevice.runTransfer run.1 run.2 ∧ SafeReleases run.2 := by
  refine ⟨Prog.runs_play _ _, ?_⟩
  refine (RunContext.staging_released_safely_iff pinnedToDevice_reserved
    (Prog.runs_play _ _)).mpr (Or.inr (Or.inl ⟨by decide +kernel, ?_⟩))
  have : (ledger (pinnedToDevice.runTransfer.play (fun _ => obliging) []).2).undrained = [] := by
    decide +kernel
  simp [this]

end TransferFabric
