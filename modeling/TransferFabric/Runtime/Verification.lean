import TransferFabric.Runtime.HashReads

/-!
When a verified completion means what it says. Until the transfer verifies, its
calls may change the store in any way; from then on it only reads. A failed
device read-back is not reported, so both sides may hash a buffer that no read
has filled; nor is a failed seek, after which a side hashes other bytes.
-/

namespace TransferFabric

open Interaction Memory

/-! Verified completions. -/

namespace ExecEvent

/-- A file read made while hashing failed or came back short. -/
def fileReadFailed : ExecEvent → Bool
  | ⟨.io _ c, x⟩ => shortRead c x
  | _ => false

/-- A device read-back or a seek made while hashing failed. -/
def unnoticed : ExecEvent → Bool
  | ⟨.io _ c, x⟩ => IoEvent.unnoticed ⟨c, x⟩
  | _ => false

theorem readFailed_of_not_isIo (ev : ExecEvent) (h : isIo ev = false) :
    fileReadFailed ev = false ∧ unnoticed ev = false := by
  obtain ⟨c, x⟩ := ev
  cases c <;> first | exact ⟨rfl, rfl⟩ | cases h

end ExecEvent

namespace RunContext

variable {ctx : RunContext} {fileOf : Handle → Nat}

/-- The digests of what the two ranges hold are equal. -/
def StoredAgree (ctx : RunContext) (fileOf : Handle → Nat) (st : Store Cell Byte) : Prop :=
  digestOf ctx.effectiveMode
      (st.read (hashRegion fileOf ctx.record.srcEp ctx.plan.sourceOffset) ctx.plan.total.toNat) =
    digestOf ctx.effectiveMode
      (st.read (hashRegion fileOf ctx.record.dstEp ctx.plan.destOffset) ctx.plan.total.toNat)

/-- A success stands for verified content, and a failed read made while hashing is reported. -/
def SoundCompletion (ctx : RunContext) (fileOf : Handle → Nat) (r : Error) (t : ExecTrace)
    (w' : HashWorld) : Prop :=
  (r.ok = true →
      w'.status.bytesVerified = ctx.plan.total ∧ ctx.StoredAgree fileOf w'.store) ∧
    ((∃ ev ∈ t, ExecEvent.fileReadFailed ev = true ∨ ExecEvent.unnoticed ev = true) →
      r.ok = false)

/-- A run of the transfer over a world. -/
structure Execution (ctx : RunContext) (fileOf : Handle → Nat) (w : HashWorld) (r : Error)
    (t : ExecTrace) (w' : HashWorld) : Prop where
  runs : Runs ctx.runTransfer r t
  path : Path (verifyEffect fileOf) w t w'

/-- Whether a run hashes, and what it reports otherwise. -/
theorem runTransfer_hashes {r : Error} {t : ExecTrace} (hv : ctx.Verifies)
    (h : Runs ctx.runTransfer r t) :
    (ctx.legs = [] ∧ r.ok = true ∧ t = [⟨.status (.emptyDone ctx.plan.total), ()⟩]) ∨
      (ctx.legs ≠ [] ∧ ∃ before verified, t = before ++ verified ∧
        (before.Only fun ev => !ExecEvent.isIo ev) ∧
        ((r.ok = false ∧ verified = []) ∨ VerifyRun ctx r verified)) := by
  cases runTransfer_cases h with
  | empty hempty =>
      have hcovers := ctx.record.chunkPlan.built.covers hv.total_ne_zero
      have hcount : ctx.plan.chunkCount ≠ 0 :=
        (toNat_ne_zero _).mp (Nat.ne_of_gt hcovers.count_pos)
      exact Or.inl ⟨List.isEmpty_iff.mp (hempty.resolve_right hcount), rfl, rfl⟩
  | refused hlegs he =>
      exact Or.inr ⟨hlegs, [], [], rfl, Trace.only_nil, Or.inl ⟨he, rfl⟩⟩
  | failed hcount hlegs hk hasync hopen hmove hs =>
      have hbefore := Trace.only_append.mpr ⟨noIo_of_setup hopen, moveChunks_noIo hmove⟩
      rcases moveChunks_outcome hk hcount hmove with ⟨hf, -⟩ | ⟨-, hres, -⟩
      · rw [hs] at hf
        cases hf
      · exact Or.inr ⟨hlegs, _, [], (List.append_nil _).symm, hbefore, Or.inl ⟨hres, rfl⟩⟩
  | moved hcount hlegs hk hasync hopen hmove hs hverify =>
      have hbefore := Trace.only_append.mpr ⟨noIo_of_setup hopen, moveChunks_noIo hmove⟩
      exact Or.inr ⟨hlegs, _, _, rfl, hbefore, Or.inr (verify_cases hverify)⟩

/-- Verification gives up only on a file read. -/
theorem VerifyRun.clean_iff {r : Error} {t : ExecTrace} (h : VerifyRun ctx r t) :
    Clean t ↔ ∀ ev ∈ t, ExecEvent.fileReadFailed ev = false := by
  have hsame : ∀ ev ∈ t, ExecEvent.stops ev = ExecEvent.fileReadFailed ev := by
    cases h with
    | skipped hnot => simp [ExecEvent.stops, ExecEvent.fileReadFailed]
    | compared hv hs hd hr hu =>
        intro ev hev
        simp only [List.mem_cons, List.mem_append, List.mem_map, List.not_mem_nil, or_false] at hev
        obtain rfl | (⟨ev, -, rfl⟩ | ⟨ev, -, rfl⟩) | rfl := hev <;> rfl
  exact forall₂_congr fun ev hev => by simp [hsame ev hev]

/-- A successful verification whose read-backs and seeks all worked compared what the ranges hold. -/
theorem VerifyRun.stored {r : Error} {t : ExecTrace} {w w' : HashWorld} (hv : ctx.Verifies)
    (h : VerifyRun ctx r t) (hok : r.ok = true)
    (hdev : ∀ ev ∈ t, ExecEvent.unnoticed ev = false)
    (hpath : Path (verifyEffect fileOf) w t w') :
    w'.status.bytesVerified = ctx.plan.total ∧ ctx.StoredAgree fileOf w'.store := by
  cases h with
  | skipped hnot => exact absurd hv hnot
  | @compared _ es ed r sd dd us ud u hs hd hr hu =>
      obtain ⟨hes, hed, heq⟩ := hr.mp hok
      obtain ⟨hsok, hsd⟩ := hashEndpointRegion_trace hv.1 hv.total_ne_zero hs
      obtain ⟨hdok, hdd⟩ := hashEndpointRegion_trace hv.1 hv.total_ne_zero hd
      obtain ⟨hsread, hsrc⟩ := hashEndpointRegion_stored fileOf hv.1 hv.total_ne_zero hs
      obtain ⟨hdread, hdst⟩ := hashEndpointRegion_stored fileOf hv.1 hv.total_ne_zero hd
      have hdevs : NoneUnnoticed us := fun ev hev => by
        have := hdev (liftIo .hashSource ev) (by simp [List.mem_map_of_mem hev])
        simpa [liftIo, ExecEvent.unnoticed] using this
      have hdevd : NoneUnnoticed ud := fun ev hev => by
        have := hdev (liftIo .hashDest ev) (by simp [List.mem_map_of_mem hev])
        simpa [liftIo, ExecEvent.unnoticed] using this
      obtain ⟨w₀, hw₀, hrest⟩ := hpath
      obtain ⟨w₂, hpaths, w₃, hw₃, hend⟩ := (path_append _ _ _ _ _).mp hrest
      obtain ⟨w₁, hpath₁, hpath₂⟩ := (path_append _ _ _ _ _).mp hpaths
      replace hpath₁ := path_liftIo.mp hpath₁
      replace hpath₂ := path_liftIo.mp hpath₂
      -- neither hash writes, so both compared the store the run ends with
      have hst₁ := (reads_frame hsread hpath₁).1
      have hst₂ := (reads_frame hdread hpath₂).1
      have hst : w'.store = w₂.store := by rw [hend, hw₃]
      refine ⟨by rw [hend, hw₃, hu hok]; rfl, ?_⟩
      have hbs := hsrc (hsok.mp hes) hdevs _ _ hpath₁
      have hbd := hdst (hdok.mp hed) hdevd _ _ hpath₂
      unfold StoredAgree
      rw [hst, hst₂, ← hbd, hst₁, ← hbs, ← hsd hes, ← hdd hed]
      exact heq

/-- In a transfer that is to verify, completion is sound in exactly the runs with a non-empty
route in which no device read-back and no seek failed, or a failed file read or unequal digests
stopped the transfer. -/
theorem verified_completion_sound_iff {r : Error} {t : ExecTrace} {w w' : HashWorld}
    (hmode : ctx.effectiveMode ≠ .none) (htotal : ctx.plan.total > 0)
    (hfresh : w.status.bytesVerified = 0) (h : ctx.Execution fileOf w r t w') :
    ctx.SoundCompletion fileOf r t w' ↔
      ctx.legs ≠ [] ∧ ((∀ ev ∈ t, ExecEvent.unnoticed ev = false) ∨
        (∃ ev ∈ t, ExecEvent.fileReadFailed ev = true) ∨ ¬ ctx.DigestsAgree t) := by
  have hv : ctx.Verifies := ⟨hmode, htotal⟩
  obtain ⟨h, hpath⟩ := h
  rcases runTransfer_hashes hv h with ⟨hlegs, hok, rfl⟩ | ⟨hlegs, before, verified, rfl, hio, hphase⟩
  · -- an empty route reports success and verifies nothing
    refine ⟨fun hsound => ?_, fun hcond => absurd hlegs hcond.1⟩
    obtain ⟨m, rfl, rfl⟩ := hpath
    have hbytes : w.status.bytesVerified = ctx.plan.total := (hsound.1 hok).1
    exact absurd (hbytes.symm.trans hfresh) hv.total_ne_zero
  have hquiet : ∀ ev ∈ before, ExecEvent.fileReadFailed ev = false ∧
      ExecEvent.unnoticed ev = false := fun ev hev =>
    ExecEvent.readFailed_of_not_isIo ev (by simpa using hio ev hev)
  rcases hphase with ⟨hres, rfl⟩ | hverify
  · refine ⟨fun _ => ⟨hlegs, Or.inl fun ev hev => ?_⟩, fun _ => ?_⟩
    · rw [List.append_nil] at hev
      exact (hquiet ev hev).2
    · exact ⟨fun hok => absurd hok (by simp [hres]), fun _ => hres⟩
  · have hiff : r.ok = true ↔ Clean verified ∧ ctx.DigestsAgree (before ++ verified) := by
      rw [hverify.ok_iff, digestsAgree_append hio]
    have hfile : Clean verified ↔
        ∀ ev ∈ before ++ verified, ExecEvent.fileReadFailed ev = false := by
      rw [hverify.clean_iff]
      simp only [List.mem_append, or_imp, forall_and]
      exact (and_iff_right fun ev hev => (hquiet ev hev).1).symm
    rw [hfile] at hiff
    constructor
    · rintro ⟨-, hreport⟩
      refine ⟨hlegs, or_iff_not_imp_left.mpr fun hdev => ?_⟩
      obtain ⟨ev, hev, hfail⟩ : ∃ ev ∈ before ++ verified,
          ExecEvent.unnoticed ev = true := by simpa using hdev
      have hnot := hiff.not.mp (by simp [hreport ⟨ev, hev, Or.inr hfail⟩])
      rw [not_and_or] at hnot
      exact hnot.imp_left fun hbad => by simpa using hbad
    · rintro ⟨-, hcond⟩
      have hdev : r.ok = true →
          ∀ ev ∈ before ++ verified, ExecEvent.unnoticed ev = false := by
        intro hok
        obtain ⟨hnofile, hagree⟩ := hiff.mp hok
        rcases hcond with hdev | ⟨ev, hev, hfail⟩ | hdiffer
        · exact hdev
        · exact absurd hfail (by simp [hnofile ev hev])
        · exact absurd hagree hdiffer
      refine ⟨fun hok => ?_, ?_⟩
      · obtain ⟨m, -, hpath⟩ := (path_append _ _ _ _ _).mp hpath
        exact hverify.stored hv hok (fun ev hev => hdev hok ev (List.mem_append_right _ hev)) hpath
      · rintro ⟨ev, hev, hfail⟩
        by_contra hnot
        have hok : r.ok = true := by simpa using hnot
        rcases hfail with hfail | hfail
        · exact absurd hfail (by simp [(hiff.mp hok).1 ev hev])
        · exact absurd hfail (by simp [hdev hok ev hev])

end RunContext

/-! Sixteen bytes copied in one leg and checked with CRC-32C. -/

def sixteenBytes : ChunkPlan :=
  { total := 16, chunkSize := 16, chunkCount := 1, alignment := 1, tailSize := 0 }

theorem sixteenBytes_build :
    ChunkPlan.build { total := 16, preferredChunk := 16 } = .ok sixteenBytes := by
  decide +kernel

def oneLeg (backend : String) (src dst : EndpointDescriptor) : RunContext where
  record :=
    { route := { legs := [{ sourceDomain := (capsForKind src).memoryDomain
                            destDomain := (capsForKind dst).memoryDomain, backend := backend }] }
      chunkPlan := ⟨sixteenBytes, Or.inr ⟨_, sixteenBytes_build⟩⟩
      srcEp := { desc := src, caps := capsForKind src }
      dstEp := { desc := dst, caps := capsForKind dst }
      integrityMode := .crc32c }
  backends := fun name => if name = backend then some {} else none

def deviceToDevice : RunContext :=
  oneLeg BackendName.cuda (.deviceMemory 0 0x10000 16) (.deviceMemory 0 0x20000 16)

def hostToHost : RunContext :=
  oneLeg BackendName.host (.hostMemory 0x10000 16) (.hostMemory 0x20000 16)

/-- The calls succeed, and the memory holds the same byte everywhere. -/
def constantMemory (_ : ExecTrace) : (c : ExecCall) → ExecAnswer c
  | .io _ (.load _ n) => (List.replicate n.toNat 7 : List Byte)
  | c => obliging c

/-- The world after an event that leaves the store and the positions alone. -/
def HashWorld.idle (w : HashWorld) : ExecEvent → HashWorld
  | ⟨.status u, _⟩ => { w with status := u.apply w.status }
  | _ => w

/-- The event can happen over a store, and leave it as it is. -/
def ExecEvent.fits (st : Store Cell Byte) : ExecEvent → Bool
  | ⟨.io _ (.deviceToHost p n), r⟩ =>
      !DeviceRead.ok r || DeviceRead.written r = st.read (memRegion p) n.toNat
  | ⟨.io _ (.load p n), x⟩ =>
      let data : List Byte := x
      data = st.read (memRegion p) n.toNat
  | ⟨.io .., _⟩ => false
  | _ => true

theorem HashWorld.idle_store (w : HashWorld) (ev : ExecEvent) : (w.idle ev).store = w.store := by
  obtain ⟨c, x⟩ := ev
  cases c <;> rfl

theorem path_idle {fileOf : Handle → Nat} (t : ExecTrace) (w : HashWorld)
    (h : t.all (ExecEvent.fits w.store) = true) :
    Path (verifyEffect fileOf) w t (t.foldl HashWorld.idle w) := by
  induction t generalizing w with
  | nil => rfl
  | cons ev t ih =>
      rw [List.all_cons, Bool.and_eq_true] at h
      obtain ⟨hev, hrest⟩ := h
      refine ⟨w.idle ev, ?_, ih _ (by rw [HashWorld.idle_store]; exact hrest)⟩
      obtain ⟨c, x⟩ := ev
      cases c with
      | io site c =>
          cases c with
          | deviceToHost p n =>
              refine ⟨fun hok => ?_, rfl⟩
              have hread := (Bool.or_eq_true _ _).mp hev
              rw [show DeviceRead.ok x = true from hok] at hread
              exact of_decide_eq_true (hread.resolve_left (fun h => by cases h))
          | load p n =>
              have hread : ∀ data : List Byte,
                  decide (data = w.store.read (memRegion p) n.toNat) = true →
                    data = w.store.read (memRegion p) n.toNat := fun _ => of_decide_eq_true
              exact ⟨hread x hev, rfl⟩
          | _ => cases hev
      | _ => rfl

/-- Playing against an environment whose answers fit the store. -/
theorem RunContext.execution_play (ctx : RunContext) (fileOf : Handle → Nat)
    (env : ExecTrace → (c : ExecCall) → ExecAnswer c) (w : HashWorld)
    (h : (ctx.runTransfer.play env []).2.all (ExecEvent.fits w.store) = true) :
    ctx.Execution fileOf w (ctx.runTransfer.play env []).1 (ctx.runTransfer.play env []).2
      ((ctx.runTransfer.play env []).2.foldl HashWorld.idle w) :=
  ⟨Prog.runs_play env _, path_idle _ w h⟩

/-- The two device ranges hold different bytes. -/
def unequalRanges : HashWorld where
  store := fun c => if c ∈ (List.range 16).map (memRegion 0x10000) then 1 else 2
  pos := fun _ => 0
  status := {}

/-- Both read-backs fail, both sides hash the untouched buffer, and the transfer completes
over ranges whose digests differ. -/
theorem failed_read_backs_verified :
    let run := deviceToDevice.runTransfer.play (fun _ => obliging) []
    let w' := run.2.foldl HashWorld.idle unequalRanges
    deviceToDevice.Execution UInt64.toNat unequalRanges run.1 run.2 w' ∧
      ¬ deviceToDevice.SoundCompletion UInt64.toNat run.1 run.2 w' := by
  refine ⟨deviceToDevice.execution_play _ _ _ (by decide +kernel), fun hsound => ?_⟩
  have hok : (deviceToDevice.runTransfer.play (fun _ => obliging) []).1.ok = true := by
    decide +kernel
  have hdiffer : ¬ deviceToDevice.StoredAgree UInt64.toNat
      ((deviceToDevice.runTransfer.play (fun _ => obliging) []).2.foldl HashWorld.idle
        unequalRanges).store := by
    unfold RunContext.StoredAgree
    decide +kernel
  exact hdiffer (hsound.1 hok).2

def sevens : HashWorld := { store := fun _ => 7, pos := fun _ => 0, status := {} }

/-- Over a memory of equal bytes a copy between host ranges completes, verified. -/
theorem verified_completion_sound_sevens :
    let run := hostToHost.runTransfer.play constantMemory []
    let w' := run.2.foldl HashWorld.idle sevens
    run.1.ok = true ∧ hostToHost.Execution UInt64.toNat sevens run.1 run.2 w' ∧
      hostToHost.SoundCompletion UInt64.toNat run.1 run.2 w' := by
  have hrun := hostToHost.execution_play UInt64.toNat constantMemory sevens (by decide +kernel)
  refine ⟨by decide +kernel, hrun, ?_⟩
  refine (RunContext.verified_completion_sound_iff (by decide) (by decide) rfl hrun).mpr
    ⟨by decide, Or.inl fun ev hev => ?_⟩
  have hnone : (hostToHost.runTransfer.play constantMemory []).2.all
      (fun ev => !ExecEvent.unnoticed ev) = true := by decide +kernel
  simpa using List.all_eq_true.mp hnone ev hev

end TransferFabric
