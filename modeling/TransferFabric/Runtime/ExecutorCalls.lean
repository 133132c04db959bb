import TransferFabric.Foundation.Scripts
import TransferFabric.Runtime.Executor

/-!
The calls that the phases of `run_transfer` can make, whatever they are answered.
A test of calls that is met by the calls of a phase is met by every call of it.
-/

namespace TransferFabric

open Interaction

/-- Hashing seeks and reads. -/
theorem calls_hashEndpointRegion {P : IoCall → Prop} (hseek : ∀ h off, P (.seek h off))
    (hread : ∀ h n off, P (.readFile h n off)) (hload : ∀ a n, P (.load a n))
    (hdevice : ∀ a n, P (.deviceToHost a n)) (ep : EndpointRecord) (offset len : ByteCount)
    (mode : VerificationMode) : Calls (S := IoSig) P (hashEndpointRegion ep offset len mode) := by
  unfold hashEndpointRegion
  split_ifs
  · exact calls_pure _
  · refine calls_bind (calls_forLoop (fun _ s => ?_) _ _ _) fun s => ?_
    · unfold hashFileStep
      split_ifs
      · refine calls_bind (calls_request (hseek _ _)) fun _ =>
          calls_bind (calls_request (hread _ _ _)) fun data => ?_
        cases data with
        | none => exact calls_pure _
        | some data =>
            dsimp only
            split_ifs <;> exact calls_pure _
      · exact calls_pure _
    · split_ifs <;> exact calls_pure _
  · refine calls_bind (calls_forLoop (fun _ s => ?_) _ _ _) fun s => calls_pure _
    unfold hashDeviceStep
    split_ifs
    · exact calls_bind (calls_request (hdevice _ _)) fun _ => calls_pure _
    · exact calls_pure _
  · exact calls_bind (calls_request (hload _ _)) fun _ => calls_pure _

/-- The calls that the chunk loop and the drain after it make. -/
def ExecCall.moves : ExecCall → Bool
  | .loadCancel | .canCopy .. | .copy .. | .asyncCopy .. | .sync .. | .status (.progress ..) => true
  | _ => false

namespace RunContext

variable (ctx : RunContext) {P : ExecCall → Prop}

theorem calls_destroyStreams (hdestroy : ∀ k, P (.destroyStream k)) (n : Nat) :
    Calls (S := ExecSig) P (destroyStreams n) :=
  calls_forLoop (fun k _ => calls_bind (calls_request (hdestroy k)) fun _ => calls_pure _) _ _ _

theorem calls_openIfWanted (hcreate : ∀ k, P (.createStream k))
    (hdestroy : ∀ k, P (.destroyStream k)) (b : Backend) :
    Calls (S := ExecSig) P (ctx.openIfWanted b) := by
  unfold openIfWanted
  split_ifs
  · refine calls_bind (calls_forLoop (fun k _ => ?_) _ _ _) fun s => ?_
    · refine calls_bind (calls_request (hcreate k)) fun e => ?_
      split_ifs <;> exact calls_pure _
    · split_ifs
      · exact calls_pure _
      · exact calls_bind (calls_destroyStreams hdestroy _) fun _ => calls_pure _
  · exact calls_pure _

theorem calls_syncForReuse (hsync : ∀ k, P (.sync .reuse k)) (useAsync : Bool) (ci : Nat) :
    Calls (S := ExecSig) P (ctx.syncForReuse useAsync ci) := by
  unfold syncForReuse
  split_ifs
  · exact calls_bind (calls_request (hsync _)) fun _ => calls_pure _
  · exact calls_pure _

theorem calls_drain (hsync : ∀ k, P (.sync .drain k)) (useAsync : Bool) (s : LoopState) :
    Calls (S := ExecSig) P (ctx.drain useAsync s) := by
  unfold drain
  split_ifs
  · refine calls_forLoop (fun k _ => calls_bind (calls_request (hsync k)) fun e => ?_) _ _ _
    split_ifs <;> exact calls_pure _
  · exact calls_pure _

theorem calls_releaseAll (hrelease : ∀ k b, P (.release k b)) (hhit : P (.stagingPoolHit false))
    (pool : PoolKind) (bufs : List StagingBuffer) :
    Calls (S := ExecSig) P (ctx.releaseAll pool bufs) := by
  induction bufs with
  | nil => exact calls_pure _
  | cons b rest ih =>
      refine calls_bind (calls_bind (calls_request (hrelease pool b)) fun _ => ?_) fun _ => ih
      split_ifs
      · exact calls_bind (calls_request hhit) fun _ => calls_pure _
      · exact calls_pure _

theorem calls_releaseRings (hrelease : ∀ k b, P (.release k b)) (hhit : P (.stagingPoolHit false)) :
    Calls (S := ExecSig) P ctx.releaseRings :=
  calls_forLoop (fun _ _ => calls_bind (ctx.calls_releaseAll hrelease hhit _ _) fun _ =>
    calls_pure _) _ _ _

section Moves

variable (h : ∀ c : ExecCall, c.moves = true → P c)

include h

theorem calls_runLeg (li : Nat) (c : Chunk) : Calls (S := ExecSig) P (ctx.runLeg li c) := by
  unfold runLeg
  dsimp only
  split
  · trivial
  · refine calls_bind (calls_request (h _ rfl)) fun able => ?_
    cases able with
    | true => exact ⟨h _ rfl, fun _ => trivial⟩
    | false => trivial

theorem calls_finalLeg (useAsync : Bool) (si : Nat) (c : Chunk) :
    Calls (S := ExecSig) P (ctx.finalLeg useAsync si c) := by
  unfold finalLeg
  split_ifs
  · refine calls_bind (calls_request (h _ rfl)) fun able => ?_
    cases able with
    | true => exact ⟨h _ rfl, fun _ => trivial⟩
    | false => trivial
  · exact ctx.calls_runLeg h _ c

theorem calls_chunkStep (useAsync : Bool) (ci : Nat) (s : LoopState) :
    Calls (S := ExecSig) P (ctx.chunkStep useAsync ci s) := by
  refine calls_bind (calls_request (h _ rfl)) fun cancelled => ?_
  split_ifs
  · trivial
  · dsimp only
    split_ifs
    · refine calls_bind (ctx.calls_syncForReuse (fun _ => h _ rfl) useAsync ci) fun _ =>
        calls_bind (calls_forLoop (fun li _ => calls_bind (ctx.calls_runLeg h li _) fun e => ?_)
          _ _ _) fun e => ?_
      · split_ifs <;> trivial
      · split_ifs
        · refine calls_bind (ctx.calls_finalLeg h useAsync _ _) fun e => ?_
          split_ifs
          · exact calls_bind (calls_request (h _ rfl)) fun _ => calls_pure _
          · trivial
        · trivial
    · trivial

/-- The move, with what is given back after it. -/
theorem calls_moveChunks (hrelease : ∀ k b, P (.release k b)) (hhit : P (.stagingPoolHit false))
    (hdestroy : ∀ k, P (.destroyStream k)) (useAsync : Bool) :
    Calls (S := ExecSig) P (ctx.moveChunks useAsync) :=
  calls_bind (calls_forLoop (ctx.calls_chunkStep h useAsync) _ _ _) fun s =>
    calls_bind (ctx.calls_drain (fun _ => h _ rfl) useAsync s) fun _ =>
    calls_bind (ctx.calls_releaseRings hrelease hhit) fun _ =>
    calls_bind (calls_destroyStreams hdestroy _) fun _ => calls_pure _

end Moves

theorem calls_compareDigests (hstatus : ∀ u, P (.status u)) (es ed : Error) (sd dd : List Byte) :
    Calls (S := ExecSig) P (ctx.compareDigests es ed sd dd) := by
  unfold compareDigests
  split_ifs <;> exact calls_bind (calls_request (hstatus _)) fun _ => calls_pure _

theorem calls_verify (hstatus : ∀ u, P (.status u)) (hio : ∀ site c, P (.io site c)) :
    Calls (S := ExecSig) P ctx.verify := by
  have hhash : ∀ site ep offset len mode, Calls (S := ExecSig) P
      ((hashEndpointRegion ep offset len mode).embed (ioHom site)) := fun site ep offset len mode =>
    calls_embed (calls_all (hio site) _)
  refine calls_bind (calls_request (hstatus _)) fun _ => ?_
  split_ifs
  · exact calls_bind (hhash _ _ _ _ _) fun src => calls_bind (hhash _ _ _ _ _) fun dst =>
      ctx.calls_compareDigests hstatus _ _ _ _
  · exact calls_bind (calls_request (hstatus _)) fun _ => calls_pure _

end RunContext

end TransferFabric
