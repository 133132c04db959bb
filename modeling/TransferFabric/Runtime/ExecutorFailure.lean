import TransferFabric.Runtime.Hashing

/-!
When a transfer reports success. Every answer that makes the executor give up
is reported, but the result of the synchronisation before a ring slot is reused
is dropped: a stream that reports its error there, and only there, leaves the
transfer completed. The main theorem says which runs report every failure.
-/

namespace TransferFabric

open Interaction

namespace ExecEvent

/-- A copy, an asynchronous copy or a stream synchronisation answered with an error. -/
def failing : ExecEvent → Bool
  | ⟨.copy .., e⟩ => !Error.ok e
  | ⟨.asyncCopy .., e⟩ => !Error.ok e
  | ⟨.sync .., e⟩ => !Error.ok e
  | _ => false

/-- A synchronisation before slot reuse answered with an error. -/
def reuseFailed : ExecEvent → Bool
  | ⟨.sync .reuse _, e⟩ => !Error.ok e
  | _ => false

theorem failing_of_reuseFailed (ev : ExecEvent) (h : reuseFailed ev = true) : failing ev = true := by
  obtain ⟨c, x⟩ := ev
  cases c with
  | sync site k =>
      cases site with
      | reuse => exact h
      | drain => cases h
  | _ => cases h

/-- A failure the executor does not give up on is one before slot reuse. -/
theorem reuseFailed_of_failing (ev : ExecEvent) (hf : failing ev = true) (hs : stops ev = false) :
    reuseFailed ev = true := by
  obtain ⟨c, x⟩ := ev
  cases c with
  | sync site k =>
      cases site with
      | reuse => exact hf
      | drain => exact absurd hf (by simpa [failing, stops] using hs)
  | copy name spec => exact absurd hf (by simpa [failing, stops] using hs)
  | asyncCopy name spec k => exact absurd hf (by simpa [failing, stops] using hs)
  | _ => cases hf

def isIo : ExecEvent → Bool
  | ⟨.io .., _⟩ => true
  | _ => false

end ExecEvent

theorem ioTrace_eq_nil {t : ExecTrace} (h : t.Only fun ev => !ExecEvent.isIo ev) (site : IoSite) :
    ioTrace site t = [] := by
  apply List.filterMap_eq_nil_iff.mpr
  rintro ⟨c, x⟩ hev
  have := h _ hev
  cases c <;> first | rfl | cases this

theorem noIo_of_setup {t : ExecTrace} (h : t.Only ExecEvent.isStreamSetup) :
    t.Only fun ev => !ExecEvent.isIo ev :=
  h.mono fun ev hev => by
    obtain ⟨c, x⟩ := ev
    cases c <;> first | rfl | cases hev

theorem clean_of_setup {t : ExecTrace} (h : t.Only ExecEvent.isStreamSetup) : Clean t :=
  h.mono fun ev hev => by
    obtain ⟨c, x⟩ := ev
    cases c <;> first | rfl | cases hev

theorem clean_of_release {t : ExecTrace} (h : t.Only ExecEvent.isRelease) : Clean t :=
  h.mono fun ev hev => by
    obtain ⟨c, x⟩ := ev
    cases c <;> first | rfl | cases hev

namespace RunContext

variable {ctx : RunContext}

theorem Returned.clean {t : ExecTrace} (h : ctx.Returned t) : Clean t := by
  obtain ⟨rel, des, rfl, hrel, hdes⟩ := h
  simp [clean_of_release (releaseRings_only hrel), clean_of_setup hdes]

/-- Nothing is hashed before verification. -/
theorem moveChunks_noIo {useAsync : Bool} {s : LoopState} {t : ExecTrace}
    (h : Runs (ctx.moveChunks useAsync) s t) : t.Only fun ev => !ExecEvent.isIo ev :=
  (ctx.calls_moveChunks (fun c hc _ => by cases c <;> first | rfl | cases hc) (fun _ _ _ => rfl)
    (fun _ => rfl) (fun _ _ => rfl) useAsync).only h

theorem drain_outcome {useAsync : Bool} {s s' : LoopState} {t : ExecTrace}
    (h : Runs (ctx.drain useAsync s) s' t) :
    t.Only ExecEvent.isMove ∧ ((s' = s ∧ Clean t) ∨
      (s.failed = false ∧ s'.failed = true ∧ s'.result.ok = false ∧ ¬ Clean t)) := by
  unfold drain at h
  split at h
  · rename_i hd
    obtain ⟨hm, hgood | hbad⟩ := drainLoop_outcome h
    · exact ⟨hm, Or.inl hgood⟩
    · exact ⟨hm, Or.inr ⟨by simpa using hd.2, hbad⟩⟩
  · obtain ⟨rfl, rfl⟩ := h
    exact ⟨Trace.only_nil, Or.inl ⟨rfl, clean_nil⟩⟩

/-- Moving the chunks goes through with a clean trace, or stops on a reason. -/
theorem moveChunks_outcome {useAsync : Bool} {s : LoopState} {t : ExecTrace}
    (hk : ctx.Known (ctx.nlegs - 1)) (hcount : 0 < ctx.count)
    (h : Runs (ctx.moveChunks useAsync) s t) :
    ctx.Outcome s t := by
  obtain ⟨s₀, loop, drained, returned, rfl, hloop, hdrain, hret⟩ := moveChunks_cases h
  obtain ⟨-, hout⟩ := chunkLoop_outcome hk hcount hloop
  obtain ⟨-, hdr⟩ := drain_outcome hdrain
  rcases hdr with ⟨rfl, hcd⟩ | ⟨hs₀, hs, hres, hbad⟩
  · rcases hout with ⟨hs, hknown, hcl⟩ | ⟨hs, hres, hbad⟩
    · exact Or.inl ⟨hs, hknown, by simp [hcl, hcd, hret.clean]⟩
    · refine Or.inr ⟨hs, hres, fun h => hbad ⟨h.1, ?_⟩⟩
      have hcl := h.2
      simp only [clean_append] at hcl
      exact hcl.1.1
  · refine Or.inr ⟨hs, hres, fun h => hbad ?_⟩
    have hcl := h.2
    simp only [clean_append] at hcl
    exact hcl.1.2

theorem digestsAgree_append {t u : ExecTrace} (h : t.Only fun ev => !ExecEvent.isIo ev) :
    ctx.DigestsAgree (t ++ u) ↔ ctx.DigestsAgree u := by
  unfold DigestsAgree hashed
  simp only [ioTrace_append, ioTrace_eq_nil h, List.nil_append]

/-- What a transfer that makes any backend call reports. -/
theorem runTransfer_ok_iff {r : Error} {t : ExecTrace} (h : Runs ctx.runTransfer r t) :
    (t.Only fun ev => !ExecEvent.failing ev) ∨
      (r.ok = true ↔ ctx.LegsKnown ∧ Clean t ∧ ctx.DigestsAgree t) := by
  cases runTransfer_cases h with
  | empty _ => exact Or.inl (by simp [ExecEvent.failing])
  | refused _ _ => exact Or.inl Trace.only_nil
  | failed hcount hlegs hk hasync hopen hmove hs =>
      right
      rcases moveChunks_outcome hk hcount hmove with ⟨hf, -⟩ | ⟨-, hres, hbad⟩
      · rw [hs] at hf
        cases hf
      · rw [hres]
        refine ⟨by simp, fun h => absurd ⟨h.1, ?_⟩ hbad⟩
        exact ((clean_append _ _).mp h.2.1).2
  | moved hcount hlegs hk hasync hopen hmove hs hverify =>
      right
      rcases moveChunks_outcome hk hcount hmove with ⟨-, hknown, hcl⟩ | ⟨hf, -⟩
      · rw [(verify_cases hverify).ok_iff,
          digestsAgree_append (Trace.only_append.mpr ⟨noIo_of_setup hopen, moveChunks_noIo hmove⟩)]
        simp [hknown, hcl, clean_of_setup hopen]
      · rw [hs] at hf
        cases hf

/-- A failed copy, asynchronous copy or synchronisation is reported in exactly the runs in
which no synchronisation before slot reuse failed, or something else stopped the transfer:
an answer the executor gives up on, a leg with no registered backend, or digests that differ. -/
theorem failure_reported_iff {r : Error} {t : ExecTrace} (h : Runs ctx.runTransfer r t) :
    ((∃ ev ∈ t, ExecEvent.failing ev = true) → r.ok = false ∧ terminalFor r ≠ .completed) ↔
      (∀ ev ∈ t, ExecEvent.reuseFailed ev = false) ∨ ¬ Clean t ∨ ¬ ctx.LegsKnown ∨
        ¬ ctx.DigestsAgree t := by
  have hterm : (r.ok = false ∧ terminalFor r ≠ .completed) ↔ ¬ r.ok = true := by
    rw [Ne, terminalFor_completed]
    simp
  rw [hterm]
  rcases runTransfer_ok_iff h with hnone | hiff
  · have hfail : ∀ ev ∈ t, ExecEvent.failing ev = false := fun ev hev => by
      simpa using hnone ev hev
    constructor
    · intro _
      left
      intro ev hev
      by_contra hre
      have := ExecEvent.failing_of_reuseFailed ev (by simpa using hre)
      rw [hfail ev hev] at this
      cases this
    · rintro _ ⟨ev, hev, hf⟩
      rw [hfail ev hev] at hf
      cases hf
  · constructor
    · intro hreport
      by_contra hcond
      simp only [not_or, not_not] at hcond
      obtain ⟨hre, hcl, hknown, hdig⟩ := hcond
      obtain ⟨ev, hev, hf⟩ : ∃ ev ∈ t, ExecEvent.reuseFailed ev = true := by
        simpa using hre
      exact hreport ⟨ev, hev, ExecEvent.failing_of_reuseFailed ev hf⟩
        (hiff.mpr ⟨hknown, hcl, hdig⟩)
    · rintro hcond ⟨ev, hev, hf⟩ hok
      obtain ⟨hknown, hcl, hdig⟩ := hiff.mp hok
      rcases hcond with hre | hc | hk | hd
      · have hstop : ExecEvent.stops ev = false := by simpa using hcl ev hev
        have := ExecEvent.reuseFailed_of_failing ev hf hstop
        rw [hre ev hev] at this
        cases this
      · exact hc hcl
      · exact hk hknown
      · exact hd hdig

end RunContext

/-! A pageable source staged through two pinned buffers to a device, in three chunks. -/

def threeChunks : ChunkPlan :=
  { total := 12288, chunkSize := 4096, chunkCount := 3, alignment := 16, tailSize := 0 }

theorem threeChunks_build :
    ChunkPlan.build { total := 12288, minChunk := 4096, maxChunk := 256 * 1024 * 1024,
                      preferredChunk := 4096, alignment := 16 } = .ok threeChunks := by
  decide +kernel

def pinnedToDevice : RunContext where
  record :=
    { route := { legs :=
        [{ sourceDomain := .hostPageable, destDomain := .hostPinned, backend := BackendName.host },
         { sourceDomain := .hostPinned, destDomain := .device, backend := BackendName.cuda }] }
      chunkPlan := ⟨threeChunks, Or.inr ⟨_, threeChunks_build⟩⟩
      stagingBufs :=
        [[], [{ data := 0x10000, size := 4096 }, { data := 0x20000, size := 4096 }], []]
      srcEp := { desc := .hostMemory 0x100000 12288
                 caps := capsForKind (.hostMemory 0x100000 12288) }
      dstEp := { desc := .deviceMemory 0 0x200000 12288
                 caps := capsForKind (.deviceMemory 0 0x200000 12288) } }
  backends := fun name =>
    if name = BackendName.host then some {}
    else if name = BackendName.cuda then some { isStream := true }
    else none

/-- Every call succeeds and nobody cancels; hashing finds nothing to read. -/
def obliging : (c : ExecCall) → ExecAnswer c
  | .loadCancel => false
  | .canCopy .. => true
  | .createStream _ | .copy .. | .asyncCopy .. | .sync .. => ({} : Error)
  | .destroyStream _ | .status _ | .release .. | .stagingPoolHit _ => ()
  | .io _ (.seek ..) | .io _ (.flushFileBuffers _) | .io _ (.store ..) => ()
  | .io _ (.readFile ..) => (none : Option (List Byte))
  | .io _ (.writeFile ..) => (none : Option ByteCount)
  | .io _ (.load ..) => ([] : List Byte)
  | .io _ (.deviceToHost ..) => ({ ok := false, written := [] } : DeviceRead)

/-- A stream reports the failure of its copy when its slot is reused, and then no more. -/
def failsAtReuse (_ : ExecTrace) : (c : ExecCall) → ExecAnswer c
  | .sync .reuse _ =>
      ({ category := .backendFailure, message := "cudaStreamSynchronize failed" } : Error)
  | c => obliging c

/-- The third chunk's synchronisation fails and the transfer completes. -/
theorem failure_at_reuse_swallowed :
    let run := pinnedToDevice.runTransfer.play failsAtReuse []
    Runs pinnedToDevice.runTransfer run.1 run.2 ∧
      ¬ ((∃ ev ∈ run.2, ExecEvent.failing ev = true) →
        run.1.ok = false ∧ terminalFor run.1 ≠ .completed) := by
  refine ⟨Prog.runs_play _ _, fun hreport => ?_⟩
  have hfail : (pinnedToDevice.runTransfer.play failsAtReuse []).2.any ExecEvent.failing = true := by
    decide +kernel
  have hok : (pinnedToDevice.runTransfer.play failsAtReuse []).1.ok = true := by decide +kernel
  have hnot := (hreport (List.any_eq_true.mp hfail)).1
  rw [hok] at hnot
  cases hnot

/-- A run in which every call succeeds meets the condition, and there is nothing to report. -/
theorem failure_reported_obliging :
    let run := pinnedToDevice.runTransfer.play (fun _ => obliging) []
    Runs pinnedToDevice.runTransfer run.1 run.2 ∧
      ((∃ ev ∈ run.2, ExecEvent.failing ev = true) →
        run.1.ok = false ∧ terminalFor run.1 ≠ .completed) := by
  refine ⟨Prog.runs_play _ _, ?_⟩
  refine (RunContext.failure_reported_iff (Prog.runs_play _ _)).mpr (Or.inl fun ev hev => ?_)
  have hnone : (pinnedToDevice.runTransfer.play (fun _ => obliging) []).2.all
      (fun ev => !ExecEvent.reuseFailed ev) = true := by decide +kernel
  simpa using List.all_eq_true.mp hnone ev hev

end TransferFabric
