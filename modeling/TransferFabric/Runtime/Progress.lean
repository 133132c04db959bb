import TransferFabric.Core.ChunkGeometry
import TransferFabric.Runtime.ExecutorCalls
import TransferFabric.Runtime.ExecutorCopy

/-!
The progress a transfer reports and the memory behind it. The status moves with
the executor's own calls; the memory moves with them too, and between them when
an accepted copy lands. A failed copy may leave anything in the range it was to
write and nothing elsewhere.

The executor counts a chunk as soon as its last copy is accepted. If every
accepted copy lands before the executor's next call, the bytes it counts are
there at every moment of every run. With copies that land later they need not
be; nothing is claimed about those runs here.
-/

namespace TransferFabric

open Interaction Memory

/-! The memory. -/

/-- What an answered call does by itself. A failed copy stays within its target, a failed
synchronisation may lose copies but moves nothing, and a stream is waited for before it is
destroyed. -/
def containedStep (fileOf : Handle → Nat) : Effect ExecSig CopyWorld := fun w c x w' =>
  match c, x with
  | .copy _ spec, e => w'.pending = w.pending ∧
      if Error.ok e = true then
        Moves (spec.source fileOf) (spec.target fileOf) spec.bytes.toNat w.store w'.store
      else Within (spec.target fileOf) spec.bytes.toNat w.store w'.store
  | .asyncCopy _ spec k, e =>
      w' = if Error.ok e = true then { w with pending := w.pending ++ [(k, spec)] } else w
  | .sync _ k, e => w'.store = w.store ∧ w'.pending ⊆ w.pending ∧
      (Error.ok e = true → w' = w ∧ ∀ q ∈ w.pending, q.1 ≠ k)
  | .destroyStream k, _ => w' = w ∧ ∀ q ∈ w.pending, q.1 ≠ k
  | .io _ (.writeFile ..), _ | .io _ (.store ..), _ => True
  | _, _ => w' = w

/-- An accepted copy may land at any time up to the next synchronisation of its stream. -/
def contained (fileOf : Handle → Nat) : Effect ExecSig CopyWorld := fun w c x w' =>
  ∃ m, w.Settles fileOf m ∧ containedStep fileOf m c x w'

/-- An accepted copy lands before the next call. -/
def promptly (fileOf : Handle → Nat) : Effect ExecSig CopyWorld := fun w c x w' =>
  ∃ m, w.Settles fileOf m ∧ m.pending = [] ∧ containedStep fileOf m c x w'

theorem promptly_rest {fileOf : Handle → Nat} {w w' : CopyWorld} {c : ExecCall} {x : ExecAnswer c}
    (hw : w.pending = []) (h : promptly fileOf w c x w') : containedStep fileOf w c x w' := by
  obtain ⟨m, hsettle, -, hstep⟩ := h
  obtain ⟨hstore, hpend⟩ := hsettle.of_nil hw
  have heq : m = w := by
    obtain ⟨st, pending⟩ := w
    obtain ⟨st', pending'⟩ := m
    simp_all
  rwa [heq] at hstep

namespace ExecEvent

/-- A copy that a stream did not accept. -/
def refusedCopy : ExecEvent → Bool
  | ⟨.asyncCopy .., e⟩ => !Error.ok e
  | _ => false

/-- A call that waits for a stream. -/
def isSync : ExecEvent → Bool
  | ⟨.sync .., _⟩ | ⟨.destroyStream _, _⟩ => true
  | _ => false

end ExecEvent

theorem containedStep_act (fileOf : Handle → Nat) (w : CopyWorld) {ev : ExecEvent}
    (haccepted : ev.refusedCopy = false) (hsync : ev.isSync = true → w.pending = []) :
    containedStep fileOf w ev.1 ev.2 (w.act fileOf ev) := by
  obtain ⟨c, x⟩ := ev
  cases c with
  | copy name spec =>
      have hmoves := spec.moves_perform fileOf w.store
      refine ⟨rfl, ?_⟩
      split_ifs
      · exact hmoves
      · exact hmoves.frame
  | asyncCopy name spec k =>
      have hok : Error.ok x = true := by simpa [ExecEvent.refusedCopy] using haccepted
      exact (if_pos hok).symm
  | sync site k => exact ⟨rfl, List.Subset.refl _, fun _ => ⟨rfl, by simp [hsync rfl]⟩⟩
  | destroyStream k => exact ⟨rfl, by simp [hsync rfl]⟩
  | io site c =>
      cases c with
      | writeFile _ _ _ | store _ _ => trivial
      | _ => rfl
  | _ => rfl

/-- The eager memory is prompt. -/
theorem exists_promptly (fileOf : Handle → Nat) {t : ExecTrace}
    (haccepted : t.all (fun ev => !ExecEvent.refusedCopy ev) = true) (w : CopyWorld) :
    ∃ w', Path (promptly fileOf) w t w' := by
  induction t generalizing w with
  | nil => exact ⟨w, rfl⟩
  | cons ev t ih =>
      obtain ⟨hev, ht⟩ := Bool.and_eq_true_iff.mp haccepted
      obtain ⟨w', hpath⟩ := ih ht (w.advance fileOf ev)
      refine ⟨w', _, ⟨w.settleAll fileOf, w.settles_settleAll fileOf, rfl, ?_⟩, hpath⟩
      exact containedStep_act fileOf _ (by simpa using hev) fun _ => rfl

/-- Until a stream is synchronised, nothing it has accepted need land. -/
theorem path_unlanded (fileOf : Handle → Nat) {t : ExecTrace}
    (ht : t.all (fun ev => !ExecEvent.refusedCopy ev && !ExecEvent.isSync ev) = true)
    (w : CopyWorld) :
    Path (contained fileOf) w t (t.foldl (CopyWorld.act fileOf) w) := by
  induction t generalizing w with
  | nil => rfl
  | cons ev t ih =>
      obtain ⟨hev, ht⟩ := Bool.and_eq_true_iff.mp ht
      obtain ⟨haccepted, hsync⟩ : ExecEvent.refusedCopy ev = false ∧ ExecEvent.isSync ev = false := by
        simpa using hev
      have hstep := containedStep_act fileOf w haccepted fun h => absurd (hsync.symm.trans h) (by decide)
      exact ⟨w.act fileOf ev, ⟨w, .refl _ _, hstep⟩, ih ht _⟩

/-- Calls that move neither bytes nor the status. -/
def ExecCall.inert : ExecCall → Prop
  | .copy .. | .asyncCopy .. | .status _ | .io _ (.writeFile ..) | .io _ (.store ..)
  | .io _ (.flushFileBuffers _) => False
  | _ => True

/-- With nothing left to land, such a call changes nothing. -/
theorem containedStep_inert {fileOf : Handle → Nat} {w w' : CopyWorld} {c : ExecCall}
    {x : ExecAnswer c} (hc : c.inert) (hw : w.pending = []) (h : containedStep fileOf w c x w') :
    w' = w := by
  cases c with
  | copy _ _ | asyncCopy _ _ _ | status _ => exact hc.elim
  | sync site k =>
      obtain ⟨hstore, hsub, -⟩ := h
      obtain ⟨st, pending⟩ := w
      obtain ⟨st', pending'⟩ := w'
      obtain rfl : pending = [] := hw
      obtain rfl : pending' = [] := List.subset_nil.mp hsub
      obtain rfl : st' = st := hstore
      rfl
  | io site c =>
      cases c with
      | writeFile _ _ _ | store _ _ | flushFileBuffers _ => exact hc.elim
      | _ => exact h
  | destroyStream k => exact h.1
  | _ => exact h

/-! The status beside it. -/

@[ext] structure Scene where
  memory : CopyWorld
  status : TransferStatus

/-- What a call writes to the status. -/
def noted : ExecCall → TransferStatus → TransferStatus
  | .status u, s => u.apply s
  | _, s => s

def unfolds (fileOf : Handle → Nat) : Effect ExecSig Scene := fun s c x s' =>
  promptly fileOf s.memory c x s'.memory ∧ s'.status = noted c s.status

/-- The memory of a run, and the status that goes with it. -/
theorem path_scene {fileOf : Handle → Nat} {w w' : CopyWorld} {t : ExecTrace}
    (h : Path (promptly fileOf) w t w') (st : TransferStatus) :
    Path (unfolds fileOf) ⟨w, st⟩ t ⟨w', t.foldl (fun st ev => noted ev.1 st) st⟩ := by
  induction t generalizing w st with
  | nil =>
      cases h
      rfl
  | cons ev t ih =>
      obtain ⟨m, hm, h⟩ := h
      exact ⟨⟨m, noted ev.1 st⟩, ⟨hm, rfl⟩, ih h _⟩

theorem noted_inert {c : ExecCall} (hc : c.inert) (s : TransferStatus) : noted c s = s := by
  cases c with
  | status u => exact hc.elim
  | _ => rfl

theorem unfolds_inert {fileOf : Handle → Nat} {s s' : Scene} {c : ExecCall} {x : ExecAnswer c}
    (hc : c.inert) (hw : s.memory.pending = []) (h : unfolds fileOf s c x s') : s' = s := by
  obtain ⟨hmemory, hstatus⟩ := h
  rw [noted_inert hc] at hstatus
  exact Scene.ext (containedStep_inert hc hw (promptly_rest hw hmemory)) hstatus

/-- The updates after the last chunk. -/
def StatusUpdate.closes (total : ByteCount) : StatusUpdate → Prop
  | .verifying | .error _ | .mismatch => True
  | .verified n | .unverified n => n = total
  | _ => False

namespace RunContext

section Progress

variable (ctx : RunContext) (fileOf : Handle → Nat) (st₀ : Store Cell Byte)

/-- The status counts the first `n` chunks. -/
structure Shows (n : Nat) (s : TransferStatus) : Prop where
  within : n ≤ ctx.count
  bytes : s.bytesCompleted.toNat = ctx.plan.before n
  chunks : s.chunksDone.toNat = n

/-- The first `n` chunks are at the destination, and the source is as it was. -/
structure Arrived (n : Nat) (w : CopyWorld) : Prop where
  there : ∀ c < n, ctx.Carries fileOf st₀ ctx.nlegs c w
  source : ∀ k < ctx.plan.total.toNat,
    w.store (ctx.sourceRegion fileOf k) = st₀ (ctx.sourceRegion fileOf k)

/-- What the status counts has arrived, whatever may still land. -/
def Real (s : Scene) : Prop :=
  ∃ n, ctx.Shows n s.status ∧ ∀ m, s.memory.Settles fileOf m → ctx.Arrived fileOf st₀ n m

/-- A moment at which the executor may make a call: the progress is real, and the call does not
take any of it back. -/
def Fine (s : Scene) (c : ExecCall) : Prop :=
  ctx.Real fileOf st₀ s ∧ s.status.bytesCompleted ≤ (noted c s.status).bytesCompleted

/-- Every moment of the program is fine, and its end has the property. -/
abbrev Proceeds {α : Type} (p : Prog ExecSig α) (Q : α → Scene → Prop) (s : Scene) : Prop :=
  wp (ctx.Fine fileOf st₀) (unfolds fileOf) p Q s

/-- Between two chunks: `n` of them have arrived, and nothing is left to land. -/
structure Stands (useAsync : Bool) (n : Nat) (s : Scene) : Prop where
  shows : ctx.Shows n s.status
  flowing : ctx.Flowing fileOf st₀ useAsync n s.memory
  settled : s.memory.pending = []

/-- Within chunk `i`, which has come to node `j`. -/
structure Passes (useAsync : Bool) (i j : Nat) (s : Scene) : Prop where
  shows : ctx.Shows i s.status
  filling : ctx.Filling fileOf st₀ useAsync i j s.memory
  settled : s.memory.pending = []

/-- The last copy of chunk `i` was accepted, and the chunk is not counted yet. -/
structure Accepted (useAsync : Bool) (i : Nat) (s : Scene) : Prop where
  shows : ctx.Shows i s.status
  flowing : ctx.Flowing fileOf st₀ useAsync (i + 1) s.memory
  last : s.memory.pending ⊆ [ctx.entry i]

end Progress

variable {ctx : RunContext} {fileOf : Handle → Nat} {st₀ : Store Cell Byte} {useAsync : Bool}
  {s s' : Scene} {i j n : Nat}

theorem Passes.stands (h : ctx.Passes fileOf st₀ useAsync i j s) :
    ctx.Stands fileOf st₀ useAsync i s :=
  ⟨h.shows, h.filling.toFlowing, h.settled⟩

section Moments

variable (hlayout : ctx.Layout fileOf) (hlegs : ctx.legs ≠ [])
include hlayout

theorem Stands.real (h : ctx.Stands fileOf st₀ useAsync n s) : ctx.Real fileOf st₀ s := by
  refine ⟨n, h.shows, fun m hm => ⟨fun c hc => ?_, fun k hk => ?_⟩⟩
  · have hthere := (h.flowing.arrived c hc).resolve_left (by rw [h.settled]; exact List.not_mem_nil)
    intro k hk
    rw [(hm.of_nil h.settled).1]
    exact hthere k hk
  · rw [(hm.of_nil h.settled).1]
    exact h.flowing.frame _ (hlayout.source_outside hk)

include hlegs

theorem Accepted.real (hi : i < ctx.count) (h : ctx.Accepted fileOf st₀ useAsync i s) :
    ctx.Real fileOf st₀ s := by
  refine ⟨i, h.shows, fun m hm => ?_⟩
  have hflow := h.flowing.settles hlayout hlegs hi hm
  refine ⟨fun c hc => (hflow.arrived c (by omega)).resolve_left fun hmem => ?_, fun k hk =>
    hflow.frame _ (hlayout.source_outside hk)⟩
  have hentry := List.mem_singleton.mp (h.last (hm.subset hmem))
  exact absurd (entry_inj hlegs (by omega) hi hentry) (by omega)

end Moments

/-! Programs that move nothing. -/

theorem proceeds_inert {α : Type} {p : Prog ExecSig α} (hp : Calls ExecCall.inert p)
    (hreal : ctx.Real fileOf st₀ s) (hw : s.memory.pending = []) :
    ctx.Proceeds fileOf st₀ p (fun _ s' => s' = s) s := by
  induction p with
  | done a => rfl
  | call c next ih =>
      refine ⟨⟨hreal, ?_⟩, fun x s' he => ?_⟩
      · rw [noted_inert hp.1]
        exact UInt64.le_refl _
      · rw [unfolds_inert hp.1 hw he]
        exact ih x (hp.2 x)

theorem proceeds_inert_bind {α β : Type} {p : Prog ExecSig α} {f : α → Prog ExecSig β}
    {Q : β → Scene → Prop} (hp : Calls ExecCall.inert p) (hreal : ctx.Real fileOf st₀ s)
    (hw : s.memory.pending = []) (hf : ∀ a, ctx.Proceeds fileOf st₀ (f a) Q s) :
    ctx.Proceeds fileOf st₀ (p >>= f) Q s := by
  refine (wp_bind _ _ _ _).mpr (wp_mono _ (proceeds_inert hp hreal hw) ?_)
  rintro a s' rfl
  exact hf a

/-! A chunk. -/

/-- Counting one chunk more. -/
theorem shows_next (ctx : RunContext) (hi : i < ctx.count) {completed : ByteCount}
    (hcompleted : completed.toNat = ctx.plan.before i) (st : TransferStatus) :
    ctx.Shows (i + 1) ((StatusUpdate.progress (completed + (ctx.plan.chunkOf i).length)
      (UInt64.ofNat (i + 1))).apply st) := by
  have hcount := ctx.plan.chunkCount.toNat_lt
  have htotal := ctx.plan.total.toNat_lt
  have hle : ctx.plan.before (i + 1) ≤ ctx.plan.total.toNat := Nat.min_le_right _ _
  have hsucc := (ctx.covers hi).before_succ hi
  refine ⟨hi, ?_, toNat_ofNat_lt _ (Nat.lt_of_le_of_lt hi hcount)⟩
  show (completed + (ctx.plan.chunkOf i).length).toNat = _
  rw [UInt64.toNat_add, hcompleted, ctx.chunkOf_length, ← hsucc]
  exact Nat.mod_eq_of_lt (by omega)

section Chunk

variable (hlayout : ctx.Layout fileOf) (hlegs : ctx.legs ≠ [])
include hlayout hlegs

/-- One leg moves the chunk on, or fails and leaves the earlier chunks alone. -/
theorem proceeds_runLeg (hi : i < ctx.count) (hj : j < ctx.nlegs)
    (h : ctx.Passes fileOf st₀ useAsync i j s) :
    ctx.Proceeds fileOf st₀ (ctx.runLeg j (ctx.plan.chunkOf i))
      (fun e s' => if e.ok = true then
          s'.status = s.status ∧ s'.memory.pending = [] ∧
            Moves (ctx.nodeRegion fileOf j i) (ctx.nodeRegion fileOf (j + 1) i)
              (ctx.plan.chunkLength i) s.memory.store s'.memory.store
        else ctx.Stands fileOf st₀ useAsync i s') s := by
  unfold runLeg
  dsimp only
  split
  · exact h.stands
  · refine proceeds_inert_bind (calls_request (by trivial)) (h.stands.real hlayout) h.settled ?_
    rintro (able : Bool)
    cases able with
    | false => exact h.stands
    | true =>
        refine ⟨⟨h.stands.real hlayout, UInt64.le_refl _⟩, ?_⟩
        rintro (e : Error) s' ⟨hmemory, hstatus⟩
        obtain ⟨hpend, hcopy⟩ := promptly_rest h.settled hmemory
        have hstatus : s'.status = s.status := hstatus
        show if e.ok = true then _ else _
        split_ifs with he
        · rw [if_pos he] at hcopy
          exact ⟨hstatus, hpend.trans h.settled, legSpec_moves hcopy⟩
        · rw [if_neg he] at hcopy
          have hwithin : Within (ctx.nodeRegion fileOf (j + 1) i) (ctx.plan.chunkLength i)
              s.memory.store s'.memory.store := by
            rw [← ctx.chunkOf_length i]
            exact hcopy
          exact ⟨hstatus ▸ h.shows, h.filling.disturb hlayout hlegs hi hj hpend hwithin,
            hpend.trans h.settled⟩

theorem proceeds_runLegs (hi : i < ctx.count) (h : ctx.Passes fileOf st₀ useAsync i 0 s) :
    ctx.Proceeds fileOf st₀ (ctx.runLegs (ctx.plan.chunkOf i))
      (fun e s' => if e.ok = true then ctx.Passes fileOf st₀ useAsync i (ctx.nlegs - 1) s'
        else ctx.Stands fileOf st₀ useAsync i s') s := by
  refine wp_mono _ (wp_forLoop _
    (fun li (e : Error) s' => e.ok = true ∧ ctx.Passes fileOf st₀ useAsync i li s')
    (fun e s' => e.ok = false ∧ ctx.Stands fileOf st₀ useAsync i s') _ _ ?_ ⟨rfl, h⟩) ?_
  · rintro li e s₁ - hli ⟨-, hpass⟩
    refine (wp_bind _ _ _ _).mpr
      (wp_mono _ (proceeds_runLeg hlayout hlegs hi (by omega) hpass) fun e s₂ hleg => ?_)
    split_ifs at hleg with he
    · obtain ⟨hstatus, hpend, hm⟩ := hleg
      rw [if_pos he]
      refine ⟨rfl, hstatus ▸ hpass.shows, ?_, hpend⟩
      exact hpass.filling.leg hlayout hlegs hi (by omega) (hpend.trans hpass.settled.symm) hm
    · rw [if_neg he]
      exact ⟨by simpa using he, hleg⟩
  · rintro e s' (⟨he, hpass⟩ | ⟨he, hstand⟩)
    · rw [if_pos he]
      rwa [Nat.zero_add] at hpass
    · rw [if_neg (by simp [he])]
      exact hstand

theorem proceeds_finalLeg (hi : i < ctx.count)
    (h : ctx.Passes fileOf st₀ useAsync i (ctx.nlegs - 1) s) :
    ctx.Proceeds fileOf st₀
      (ctx.finalLeg useAsync (ctx.streamOf useAsync i) (ctx.plan.chunkOf i))
      (fun e s' => if e.ok = true then ctx.Accepted fileOf st₀ useAsync i s'
        else ctx.Stands fileOf st₀ useAsync i s') s := by
  have hlast := Nat.sub_add_cancel (nlegs_pos hlegs)
  cases useAsync with
  | false =>
      refine wp_mono _ (proceeds_runLeg hlayout hlegs hi (by omega) h) fun e s' hleg => ?_
      split_ifs at hleg ⊢ with he
      · obtain ⟨hstatus, hpend, hm⟩ := hleg
        rw [hlast] at hm
        refine ⟨hstatus ▸ h.shows, ?_, by simp [hpend]⟩
        exact h.filling.deliver hlayout hlegs hi rfl (hpend.trans h.settled.symm) hm
      · exact hleg
  | true =>
      refine proceeds_inert_bind (calls_request (by trivial)) (h.stands.real hlayout) h.settled ?_
      rintro (able : Bool)
      cases able with
      | false => exact h.stands
      | true =>
          refine ⟨⟨h.stands.real hlayout, UInt64.le_refl _⟩, ?_⟩
          rintro (e : Error) s' ⟨hmemory, hstatus⟩
          have hissue := promptly_rest h.settled hmemory
          have hstatus : s'.status = s.status := hstatus
          show if e.ok = true then _ else _
          split_ifs with he
          · replace hissue : s'.memory =
                { s.memory with pending := s.memory.pending ++ [ctx.entry i] } :=
              hissue.trans (if_pos he)
            refine ⟨hstatus ▸ h.shows, ?_, ?_⟩
            · rw [hissue]
              exact h.filling.issue hlegs hi rfl
            · rw [hissue, h.settled]
              exact List.Subset.refl _
          · replace hissue : s'.memory = s.memory := hissue.trans (if_neg he)
            exact ⟨hstatus ▸ h.shows, hissue ▸ h.filling.toFlowing, hissue ▸ h.settled⟩

/-- Counting the chunk lets its copy land first. -/
theorem proceeds_count (hi : i < ctx.count) {completed : ByteCount}
    (hcompleted : completed.toNat = ctx.plan.before i)
    (h : ctx.Accepted fileOf st₀ useAsync i s) :
    ctx.Proceeds fileOf st₀ (exec (.status
        (.progress (completed + (ctx.plan.chunkOf i).length) (UInt64.ofNat (i + 1)))))
      (fun _ s' => ctx.Stands fileOf st₀ useAsync (i + 1) s') s := by
  have hshows := ctx.shows_next hi hcompleted s.status
  refine ⟨⟨h.real hlayout hlegs hi, ?_⟩, ?_⟩
  · rw [UInt64.le_iff_toNat_le, h.shows.bytes]
    refine Nat.le_trans ?_ (Nat.le_of_eq hshows.bytes.symm)
    rw [(ctx.covers hi).before_succ hi]
    exact Nat.le_add_right _ _
  · rintro _ s' ⟨⟨m, hsettle, hnone, hsame⟩, hstatus⟩
    have hsame : s'.memory = m := hsame
    refine ⟨hstatus ▸ hshows, ?_, hsame ▸ hnone⟩
    exact hsame ▸ h.flowing.settles hlayout hlegs hi hsettle

/-- What the loop carries from one chunk to the next. -/
def LoopState.Carried (ctx : RunContext) (n : Nat) (ls : LoopState) : Prop :=
  ls.failed = false ∧ ls.completed.toNat = ctx.plan.before n

/-- The next chunk, or the end of the loop. -/
def AfterChunk (ctx : RunContext) (fileOf : Handle → Nat) (st₀ : Store Cell Byte) (useAsync : Bool)
    (i : Nat) : Flow LoopState → Scene → Prop
  | .next ls, s => ls.Carried ctx (i + 1) ∧ ctx.Stands fileOf st₀ useAsync (i + 1) s
  | .stop ls, s => ls.failed = true ∧ ∃ n, ctx.Stands fileOf st₀ useAsync n s

theorem proceeds_moveChunk (hi : i < ctx.count) {ls : LoopState} (hls : ls.Carried ctx i)
    (h : ctx.Passes fileOf st₀ useAsync i 0 s) :
    ctx.Proceeds fileOf st₀ (ctx.moveChunk useAsync i (ctx.plan.chunkOf i) ls)
      (ctx.AfterChunk fileOf st₀ useAsync i) s := by
  refine (wp_bind _ _ _ _).mpr
    (wp_mono _ (proceeds_runLegs hlayout hlegs hi h) fun e s₁ hpass => ?_)
  split_ifs at hpass with he
  · rw [if_neg (not_not_intro he)]
    refine (wp_bind _ _ _ _).mpr
      (wp_mono _ (proceeds_finalLeg hlayout hlegs hi hpass) fun e s₂ hacc => ?_)
    split_ifs at hacc with he
    · rw [if_neg (not_not_intro he)]
      refine (wp_bind _ _ _ _).mpr
        (wp_mono _ (proceeds_count hlayout hlegs hi hls.2 hacc) fun _ s₃ hstand => ?_)
      exact ⟨⟨hls.1, (ctx.shows_next hi hls.2 {}).bytes⟩, hstand⟩
    · rw [if_pos he]
      exact ⟨rfl, i, hacc⟩
  · rw [if_pos he]
    exact ⟨rfl, i, hpass⟩

theorem proceeds_chunkStep (hi : i < ctx.count) {ls : LoopState} (hls : ls.Carried ctx i)
    (h : ctx.Stands fileOf st₀ useAsync i s) :
    ctx.Proceeds fileOf st₀ (ctx.chunkStep useAsync i ls)
      (ctx.AfterChunk fileOf st₀ useAsync i) s := by
  have hreal := h.real hlayout
  refine proceeds_inert_bind (calls_request (by trivial)) hreal h.settled ?_
  rintro (cancelled : Bool)
  cases cancelled with
  | true => exact ⟨rfl, i, h⟩
  | false =>
      rw [if_neg Bool.false_ne_true, ctx.chunkAt_plan hi]
      refine proceeds_inert_bind (ctx.calls_syncForReuse (fun _ => trivial) useAsync i) hreal
        h.settled fun _ => proceeds_moveChunk hlayout hlegs hi hls ⟨h.shows, ?_, h.settled⟩
      exact h.flowing.fill hlayout hi (by simp [h.settled])

omit hlegs in
/-- Once the chunks are moved, streams and buffers are given back. -/
theorem proceeds_return (h : ctx.Stands fileOf st₀ useAsync n s) (ls : LoopState) :
    ctx.Proceeds fileOf st₀ (do
        ctx.releaseRings
        destroyStreams (if useAsync then ctx.depth else 0)
        pure ls) (fun ls' s' => ls' = ls ∧ s' = s) s := by
  have hreal := h.real hlayout
  refine proceeds_inert_bind (ctx.calls_releaseRings (fun _ _ => trivial) trivial) hreal h.settled
    fun _ => ?_
  refine proceeds_inert_bind (calls_destroyStreams (fun _ => trivial) _) hreal h.settled fun _ => ?_
  exact ⟨rfl, rfl⟩

theorem proceeds_moveChunks (h : ctx.Stands fileOf st₀ useAsync 0 s) :
    ctx.Proceeds fileOf st₀ (ctx.moveChunks useAsync)
      (fun ls s' => if ls.failed = true then ∃ n, ctx.Stands fileOf st₀ useAsync n s'
        else ctx.Stands fileOf st₀ useAsync ctx.count s') s := by
  refine (wp_bind _ _ _ _).mpr (wp_mono _ (wp_forLoop _
    (fun i (ls : LoopState) s' => ls.Carried ctx i ∧ ctx.Stands fileOf st₀ useAsync i s')
    (fun ls s' => ls.failed = true ∧ ∃ n, ctx.Stands fileOf st₀ useAsync n s') _ _ ?_ ?_) ?_)
  · rintro i ls s₁ - hi ⟨hls, hstand⟩
    refine wp_mono _ (proceeds_chunkStep hlayout hlegs (by omega) hls hstand) fun f s₂ hf => ?_
    cases f with
    | next ls' => exact hf
    | stop ls' => exact hf
  · exact ⟨⟨rfl, ctx.plan.before_zero.symm⟩, h⟩
  · rintro ls s₁ (⟨⟨hok, -⟩, hstand⟩ | ⟨hfail, n, hstand⟩)
    · rw [Nat.zero_add] at hstand
      refine proceeds_inert_bind (ctx.calls_drain (fun _ => trivial) useAsync ls)
        (hstand.real hlayout) hstand.settled fun ls' => ?_
      refine wp_mono _ (proceeds_return hlayout hstand ls') ?_
      rintro _ _ ⟨rfl, rfl⟩
      split_ifs
      · exact ⟨_, hstand⟩
      · exact hstand
    · have hnone : ctx.drain useAsync ls = pure ls := if_neg (by simp [hfail])
      rw [hnone]
      refine wp_mono _ (proceeds_return hlayout hstand ls) ?_
      rintro _ _ ⟨rfl, rfl⟩
      rw [if_pos hfail]
      exact ⟨n, hstand⟩

end Chunk

/-! The end of a transfer. -/

/-- The closing updates leave the count of a transfer whose chunks have all been counted. -/
theorem Shows.close {st : TransferStatus} {u : StatusUpdate} (h : ctx.Shows ctx.count st)
    (hu : u.closes ctx.plan.total) :
    (u.apply st).bytesCompleted = st.bytesCompleted ∧ ctx.Shows ctx.count (u.apply st) := by
  have htotal : ctx.plan.total = st.bytesCompleted := by
    refine UInt64.toNat_inj.mp ?_
    rw [h.bytes]
    exact ctx.record.chunkPlan.built.before_count.symm
  have hbytes : (u.apply st).bytesCompleted = st.bytesCompleted := by
    cases u with
    | emptyDone _ | progress _ _ => exact hu.elim
    | verified n | unverified n => exact Eq.trans hu htotal
    | _ => rfl
  refine ⟨hbytes, Nat.le_refl _, hbytes ▸ h.bytes, ?_⟩
  cases u with
  | emptyDone _ | progress _ _ => exact hu.elim
  | _ => exact h.chunks

theorem proceeds_close (hlayout : ctx.Layout fileOf)
    (h : ctx.Stands fileOf st₀ useAsync ctx.count s) {u : StatusUpdate}
    (hu : u.closes ctx.plan.total) :
    ctx.Proceeds fileOf st₀ (exec (.status u))
      (fun _ s' => ctx.Stands fileOf st₀ useAsync ctx.count s') s := by
  obtain ⟨hbytes, hshows⟩ := h.shows.close hu
  refine ⟨⟨h.real hlayout, UInt64.le_of_eq hbytes.symm⟩, ?_⟩
  rintro _ s' ⟨hmemory, hstatus⟩
  have hmemory : s'.memory = s.memory := promptly_rest h.settled hmemory
  exact ⟨hstatus ▸ hshows, hmemory ▸ h.flowing, hmemory ▸ h.settled⟩

theorem proceeds_last (hlayout : ctx.Layout fileOf)
    (h : ctx.Stands fileOf st₀ useAsync ctx.count s) {u : StatusUpdate}
    (hu : u.closes ctx.plan.total) (e : Error) :
    ctx.Proceeds fileOf st₀ (do
        let _ ← exec (.status u)
        pure e) (fun _ => ctx.Real fileOf st₀) s :=
  (wp_bind _ _ _ _).mpr (wp_mono _ (proceeds_close hlayout h hu) fun _ _ h => h.real hlayout)

theorem inert_hash (site : IoSite) (ep : EndpointRecord) (offset len : ByteCount)
    (mode : VerificationMode) :
    Calls ExecCall.inert ((hashEndpointRegion ep offset len mode).embed (ioHom site)) :=
  calls_embed (calls_hashEndpointRegion (fun _ _ => trivial) (fun _ _ _ => trivial)
    (fun _ _ => trivial) (fun _ _ => trivial) ep offset len mode)

theorem proceeds_verify (hlayout : ctx.Layout fileOf)
    (h : ctx.Stands fileOf st₀ useAsync ctx.count s) :
    ctx.Proceeds fileOf st₀ ctx.verify (fun _ => ctx.Real fileOf st₀) s := by
  refine (wp_bind _ _ _ _).mpr (wp_mono _ (proceeds_close hlayout h trivial) fun _ s₁ h₁ => ?_)
  split_ifs
  · have hreal := h₁.real hlayout
    refine proceeds_inert_bind (inert_hash _ _ _ _ _) hreal h₁.settled fun src => ?_
    refine proceeds_inert_bind (inert_hash _ _ _ _ _) hreal h₁.settled fun dst => ?_
    unfold compareDigests
    split_ifs <;> exact proceeds_last hlayout h₁ (by trivial) _
  · exact proceeds_last hlayout h₁ (u := .unverified _) rfl _

/-- Every moment of a transfer that moves something, or has nothing to move, is fine. -/
theorem proceeds_runTransfer (hlayout : ctx.Layout fileOf)
    (hroute : ctx.legs ≠ [] ∨ ctx.plan.total = 0) {w : CopyWorld} (hw : w.pending = [])
    {st : TransferStatus} (hbytes : st.bytesCompleted = 0) (hchunks : st.chunksDone = 0) :
    ctx.Proceeds fileOf w.store ctx.runTransfer (fun _ => ctx.Real fileOf w.store) ⟨w, st⟩ := by
  have hflow : ∀ useAsync, ctx.Flowing fileOf w.store useAsync 0 w := fun _ =>
    ⟨by simp [hw], fun _ h => (by cases h), fun _ h => (by cases h), fun _ _ => rfl⟩
  have hstart : ∀ useAsync, ctx.Stands fileOf w.store useAsync 0 ⟨w, st⟩ := fun useAsync =>
    ⟨⟨Nat.zero_le _, by rw [hbytes, ctx.plan.before_zero]; rfl, by rw [hchunks]; rfl⟩,
      hflow useAsync, hw⟩
  have hreal := (hstart false).real hlayout
  unfold runTransfer
  split_ifs with hempty hmissing
  · have htotal : ctx.plan.total = 0 := by
      by_contra htotal
      have hlegs : ¬ ctx.record.route.empty = true := fun hnil =>
        hroute.elim (fun hlegs => hlegs (List.isEmpty_iff.mp hnil)) htotal
      have hpos := (ctx.record.chunkPlan.built.covers htotal).count_pos
      rw [show ctx.record.chunkPlan.plan.chunkCount = 0 from hempty.resolve_left hlegs] at hpos
      cases hpos
    have hsame : (StatusUpdate.emptyDone ctx.plan.total).apply st = st := by
      show { st with bytesCompleted := ctx.plan.total } = st
      rw [htotal, ← hbytes]
    refine ⟨⟨hreal, UInt64.le_of_eq (congrArg TransferStatus.bytesCompleted hsame.symm)⟩, ?_⟩
    rintro _ s' ⟨hmemory, hstatus⟩
    obtain rfl : s' = ⟨w, st⟩ := Scene.ext (promptly_rest hw hmemory) (hstatus.trans hsame)
    exact hreal
  · exact hreal
  · have hlegs : ctx.legs ≠ [] := fun hnil => hempty (Or.inl (List.isEmpty_iff.mpr hnil))
    split
    · exact hreal
    · rename_i finalBackend hfinal
      refine proceeds_inert_bind (ctx.calls_openIfWanted (fun _ => trivial) (fun _ => trivial) _)
        hreal hw fun useAsync => ?_
      refine (wp_bind _ _ _ _).mpr
        (wp_mono _ (proceeds_moveChunks hlayout hlegs (hstart useAsync)) fun ls s₁ hmoved => ?_)
      split_ifs at hmoved ⊢ with hfailed
      · obtain ⟨n, hstand⟩ := hmoved
        exact hstand.real hlayout
      · exact proceeds_verify hlayout hmoved

/-- At every moment, whatever is left of the transfer proceeds. -/
theorem proceeds_rest (hlayout : ctx.Layout fileOf) (hroute : ctx.legs ≠ [] ∨ ctx.plan.total = 0)
    {w w' : CopyWorld} (hw : w.pending = []) {t : ExecTrace} {q : Prog ExecSig Error}
    (hf : Follows t ctx.runTransfer q) (hpath : Path (promptly fileOf) w t w') :
    ctx.Proceeds fileOf w.store q (fun _ => ctx.Real fileOf w.store)
      ⟨w', t.foldl (fun st ev => noted ev.1 st) {}⟩ :=
  wp_follows (proceeds_runTransfer hlayout hroute hw rfl rfl) hf (path_scene hpath {})

theorem Proceeds.real {q : Prog ExecSig Error}
    (h : ctx.Proceeds fileOf st₀ q (fun _ => ctx.Real fileOf st₀) s) : ctx.Real fileOf st₀ s := by
  cases q with
  | done a => exact h
  | call c next => exact h.1.1

/-! What the counts mean. -/

/-- The bytes counted are there, and are those of the chunks counted. -/
structure RealProgress (ctx : RunContext) (fileOf : Handle → Nat) (st : TransferStatus)
    (w : CopyWorld) : Prop where
  arrived : ∀ m, w.Settles fileOf m → ∀ k < st.bytesCompleted.toNat,
    m.store (ctx.destRegion fileOf k) = m.store (ctx.sourceRegion fileOf k)
  bounded : st.bytesCompleted ≤ st.bytesScheduled
  accounted : ((List.range st.chunksDone.toNat).map fun i =>
    (ctx.plan.chunk (UInt64.ofNat i)).length.toNat).sum = st.bytesCompleted.toNat

/-- A byte that is counted and that no copy has brought yet. -/
theorem exists_unreal {t : ExecTrace} {st : TransferStatus} {w : CopyWorld} {k : Nat}
    (ht : t.all (fun ev => !ExecEvent.refusedCopy ev && !ExecEvent.isSync ev) = true)
    (hk : k < st.bytesCompleted.toNat)
    (hne : (t.foldl (CopyWorld.act fileOf) w).store (ctx.destRegion fileOf k) ≠
      (t.foldl (CopyWorld.act fileOf) w).store (ctx.sourceRegion fileOf k)) :
    ∃ w', Path (contained fileOf) w t w' ∧ ¬ ctx.RealProgress fileOf st w' :=
  ⟨_, path_unlanded fileOf ht w, fun h => hne (h.arrived _ (.refl _ _) k hk)⟩

theorem Shows.lt_total {st : TransferStatus} (h : ctx.Shows n st) {k : Nat}
    (hk : k < st.bytesCompleted.toNat) :
    k < n * ctx.plan.chunkSize.toNat ∧ k < ctx.plan.total.toNat := by
  rw [h.bytes] at hk
  exact Nat.lt_min.mp hk

theorem Arrived.same {w : CopyWorld} (hroute : ctx.legs ≠ [] ∨ ctx.plan.total = 0)
    (h : ctx.Arrived fileOf st₀ n w) {k : Nat} (hn : k < n * ctx.plan.chunkSize.toNat)
    (hk : k < ctx.plan.total.toNat) :
    w.store (ctx.destRegion fileOf k) = w.store (ctx.sourceRegion fileOf k) := by
  have hlegs : ctx.legs ≠ [] := hroute.resolve_right fun hzero => by
    rw [hzero] at hk
    cases hk
  rw [h.source k hk]
  obtain ⟨c, hc, l, hl, rfl⟩ := ctx.chunk_cover hk
  have hlt : c < n := Nat.lt_of_mul_lt_mul_right (Nat.lt_of_le_of_lt (Nat.le_add_right _ l) hn)
  rw [← nodeRegion_dest hlegs hc]
  exact h.there c hlt l hl

theorem Shows.sum_lengths {st : TransferStatus} (h : ctx.Shows n st) :
    ((List.range st.chunksDone.toNat).map fun i =>
      (ctx.plan.chunk (UInt64.ofNat i)).length.toNat).sum = st.bytesCompleted.toNat := by
  rw [h.chunks, h.bytes]
  rcases Nat.eq_zero_or_pos n with rfl | hpos
  · exact ctx.plan.before_zero.symm
  · have hcount : 0 < ctx.count := Nat.lt_of_lt_of_le hpos h.within
    exact (ctx.covers hcount).sum_lengths h.within

theorem Real.progress (hroute : ctx.legs ≠ [] ∨ ctx.plan.total = 0) (h : ctx.Real fileOf st₀ s)
    {st : TransferStatus} (hbytes : st.bytesCompleted = s.status.bytesCompleted)
    (hchunks : st.chunksDone = s.status.chunksDone) (hscheduled : st.bytesScheduled = ctx.plan.total) :
    ctx.RealProgress fileOf st s.memory := by
  obtain ⟨n, hshows, harrived⟩ := h
  have hshows : ctx.Shows n st := ⟨hshows.within, hbytes ▸ hshows.bytes, hchunks ▸ hshows.chunks⟩
  refine ⟨fun m hm k hk => ?_, ?_, hshows.sum_lengths⟩
  · obtain ⟨hn, htotal⟩ := hshows.lt_total hk
    exact (harrived m hm).same hroute hn htotal
  · rw [hscheduled, UInt64.le_iff_toNat_le, hshows.bytes]
    exact Nat.min_le_right _ _

end RunContext

end TransferFabric
