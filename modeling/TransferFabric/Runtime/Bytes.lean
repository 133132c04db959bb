import TransferFabric.Runtime.Accounting
import TransferFabric.Runtime.Audit
import Mathlib.Algebra.BigOperators.Fin
import Mathlib.Data.UInt
import Mathlib.Tactic.Abel

/-!
The byte counters of a runtime whose accepted tasks have finished. A register is
anything read off the counters that every counted operation moves by a weight of
its own; what it shows is the sum of what the workers counted, and each worker
counted what its record says. The sums wrap at the width of the counters.
-/

namespace TransferFabric

open Interaction Relation

/-- The byte counters that a completed transfer moves. -/
def Transfer.byteOps (t : Transfer) : List TelemetryOp :=
  [.addBytesMoved t.status.bytesCompleted,
    if t.body.route.isDirect then .addDirectPathBytes t.status.bytesCompleted
    else .addStagedPathBytes t.status.bytesCompleted,
    .addRouteBytes t.body.route.routeId t.status.bytesCompleted,
    .addRouteClassBytes t.body.route.routeClass t.status.bytesCompleted] ++
  if t.status.bytesVerified ≠ 0 then [.addBytesVerified t.status.bytesVerified] else []

/-- A sum of byte counters, and what each operation adds to it. -/
structure Register where
  read : Telemetry → UInt64
  weight : TelemetryOp → UInt64
  zero : read {} = 0
  apply : ∀ tel op, read (tel.apply op) = read tel + weight op
  only : ∀ op, op.tallies = false → weight op = 0

theorem addTo_sum (bucket : List (String × UInt64)) (key : String) (n : UInt64) :
    ((addTo bucket key n).map Prod.snd).sum = (bucket.map Prod.snd).sum + n := by
  induction bucket with
  | nil => simp [addTo]
  | cons p rest ih =>
      unfold addTo
      split_ifs
      · simp [add_right_comm]
      · simp [ih, add_assoc]

namespace Register

def moved : Register where
  read := Telemetry.bytesMoved
  weight
    | .addBytesMoved n => n
    | _ => 0
  zero := rfl
  apply tel op := by
    cases op with
    | stagingPoolHit hit => cases hit <;> simp [Telemetry.apply]
    | _ => simp [Telemetry.apply]
  only op hop := by cases op <;> first | rfl | cases hop

def verified : Register where
  read := Telemetry.bytesVerified
  weight
    | .addBytesVerified n => n
    | _ => 0
  zero := rfl
  apply tel op := by
    cases op with
    | stagingPoolHit hit => cases hit <;> simp [Telemetry.apply]
    | _ => simp [Telemetry.apply]
  only op hop := by cases op <;> first | rfl | cases hop

/-- The two kinds of paths together. -/
def paths : Register where
  read tel := tel.direct + tel.staged
  weight
    | .addDirectPathBytes n | .addStagedPathBytes n => n
    | _ => 0
  zero := rfl
  apply tel op := by
    cases op with
    | stagingPoolHit hit => cases hit <;> simp [Telemetry.apply]
    | addDirectPathBytes n => exact add_right_comm _ _ _
    | addStagedPathBytes n => exact (add_assoc _ _ _).symm
    | _ => simp [Telemetry.apply]
  only op hop := by cases op <;> first | rfl | cases hop

/-- All route ids together. -/
def routes : Register where
  read tel := (tel.perRoute.map Prod.snd).sum
  weight
    | .addRouteBytes _ n => n
    | _ => 0
  zero := rfl
  apply tel op := by
    cases op with
    | stagingPoolHit hit => cases hit <;> simp [Telemetry.apply]
    | addRouteBytes routeId n => exact addTo_sum _ _ _
    | _ => simp [Telemetry.apply]
  only op hop := by cases op <;> first | rfl | cases hop

/-- All route classes together. -/
def classes : Register where
  read tel := ([RouteClass.unknown, .direct, .staged, .remote].map tel.perRouteClass).sum
  weight
    | .addRouteClassBytes _ n => n
    | _ => 0
  zero := rfl
  apply tel op := by
    cases op with
    | stagingPoolHit hit => cases hit <;> simp [Telemetry.apply]
    | addRouteClassBytes c n => cases c <;> simp [Telemetry.apply] <;> abel
    | _ => simp [Telemetry.apply]
  only op hop := by cases op <;> first | rfl | cases hop

variable (reg : Register)

/-- What a call adds. -/
def weigh (ev : RtEvent) : UInt64 := ((tallied ev).map reg.weight).getD 0

theorem sum_weigh (u : RtTrace) :
    (u.map reg.weigh).sum = ((u.filterMap tallied).map reg.weight).sum := by
  induction u with
  | nil => rfl
  | cons ev u ih =>
      rw [List.map_cons, List.sum_cons, ih, List.filterMap_cons]
      unfold weigh
      cases tallied ev <;> simp

theorem read_after (w : World) (i : Tid) (c : RtCall) (x : RtAnswer c) :
    reg.read (w.after i c x).telemetry = reg.read w.telemetry + reg.weigh ⟨c, x⟩ := by
  by_cases hc : ∃ op, c = .count op
  · obtain ⟨op, rfl⟩ := hc
    have htel : (w.after i (.count op) x).telemetry = w.telemetry.apply op := rfl
    rw [htel, reg.apply]
    cases hop : op.tallies with
    | true => simp [weigh, tallied, hop]
    | false => simp [weigh, tallied, hop, reg.only op hop]
  · have hnone : tallied ⟨c, x⟩ = none := by
      cases c <;> first | rfl | exact absurd ⟨_, rfl⟩ hc
    have hweigh : reg.weigh ⟨c, x⟩ = 0 := by simp [weigh, hnone]
    rw [hweigh, add_zero]
    rcases World.after_telemetry x (not_exists.mp hc) with htel | ⟨hit, htel⟩
    · rw [htel]
    · rw [htel, reg.apply, reg.only _ rfl, add_zero]

/-- What a transfer adds when it is finished. -/
def due (t : Transfer) : UInt64 :=
  if t.state = .completed then (t.byteOps.map reg.weight).sum else 0

end Register

theorem outcomeOps_tallies (t : Transfer) {e : Error} (he : e.ok = true) :
    (t.outcomeOps e).filter TelemetryOp.tallies = t.byteOps := by
  have hlegs : ∀ (legs : List Leg) (n : ByteCount),
      (legs.map fun l => TelemetryOp.addBackendBytes l.backend n).filter TelemetryOp.tallies = [] :=
    fun legs n => List.filter_eq_nil_iff.mpr (by simp [TelemetryOp.tallies])
  unfold Transfer.outcomeOps Transfer.byteOps
  rw [if_pos he]
  split_ifs <;> simp [TelemetryOp.tallies, List.filter_cons, hlegs]

/-- Only a success is counted in bytes. -/
theorem outcomeOps_due (reg : Register) {t : Transfer} {e : Error}
    (hstate : t.state = terminalFor e) :
    (((t.outcomeOps e).filter TelemetryOp.tallies).map reg.weight).sum = reg.due t := by
  unfold Register.due
  by_cases he : e.ok = true
  · rw [if_pos (hstate.trans ((terminalFor_completed e).mpr he))]
    rw [outcomeOps_tallies t he]
  · rw [if_neg fun h => he ((terminalFor_completed e).mp (hstate ▸ h))]
    rw [List.filter_eq_nil_iff.mpr]
    · rfl
    · intro op hop
      simpa using outcomeOps_untallied t (Bool.not_eq_true _ ▸ he) op hop

/-! What a record reports as verified. -/

namespace Transfer

/-- The transfer's bytes are compared after the move. -/
def verifies (rt : Runtime) (t : Transfer) : Prop :=
  (rt.context t.body).effectiveMode ≠ .none ∧ ¬ t.Empty

instance (rt : Runtime) (t : Transfer) : Decidable (t.verifies rt) :=
  inferInstanceAs (Decidable (_ ∧ _))

end Transfer

/-- What the record reports as verified is what `run_transfer` reported. -/
def Transfer.Reports (t : Transfer) : Prop :=
  t.status.bytesVerified = (({} : Transfer).ranAll t.done).status.bytesVerified

/-- A field of the status that nobody writes but `run_transfer`. -/
structure ExecutorField (f : TransferStatus → UInt64) : Prop where
  fresh : ∀ bytes chunks, f { bytesScheduled := bytes, chunkCount := chunks, attempt := 1 } = f {}
  ended : ∀ (s : TransferStatus) state error, f { s with state, error } = f s
  update : ∀ (u : StatusUpdate) s s', f s = f s' → f (u.apply s) = f (u.apply s')

/-- The record's field is what `run_transfer` made of it. -/
def Transfer.ReportsBy (f : TransferStatus → UInt64) (t : Transfer) : Prop :=
  f t.status = f (({} : Transfer).ranAll t.done).status

theorem ExecutorField.ran {f : TransferStatus → UInt64} (hf : ExecutorField f) {t t' : Transfer}
    (h : f t.status = f t'.status) (ev : ExecEvent) : f (t.ran ev).status = f (t'.ran ev).status := by
  obtain ⟨c, x⟩ := ev
  cases c with
  | status u => exact hf.update u _ _ h
  | _ => exact h

theorem ExecutorField.edit {f : TransferStatus → UInt64} (hf : ExecutorField f) {t : Transfer}
    {c : RtCall} (x : RtAnswer c) (h : t.ReportsBy f) : (c.edit t x).ReportsBy f := by
  cases c with
  | setState r s =>
      show (t.setState s).ReportsBy f
      unfold Transfer.setState
      split_ifs
      · exact (hf.ended t.status s t.status.error).trans h
      · exact h
  | setTerminal r s e =>
      show (t.setTerminal s e).ReportsBy f
      unfold Transfer.setTerminal
      split_ifs
      · exact h
      · exact (hf.ended t.status s e).trans h
  | exec r ec =>
      show f (t.ran ⟨ec, x⟩).status = _
      have hdone : (t.ran ⟨ec, x⟩).done = t.done ++ [⟨ec, x⟩] := by rw [t.ran_eq]
      rw [show RtCall.edit t (.exec r ec) x = t.ran ⟨ec, x⟩ from rfl, hdone, Transfer.ranAll_concat]
      exact hf.ran h _
  | _ => exact h

theorem executorField_bytesVerified : ExecutorField TransferStatus.bytesVerified where
  fresh _ _ := rfl
  ended _ _ _ := rfl
  update u _ _ h := by cases u <;> first | rfl | exact h

theorem RunContext.RunResult.verifies {ctx : RunContext} {e : Error} {u : ExecTrace}
    (h : ctx.RunResult e u) (hok : e.ok = true) :
    (({} : Transfer).ranAll u).status.bytesVerified =
      if ctx.effectiveMode ≠ .none ∧ ¬ (ctx.legs = [] ∨ ctx.plan.chunkCount = 0)
      then ctx.plan.total else 0 := by
  cases h with
  | empty hempty he ht =>
      rw [if_neg fun h => h.2 hempty, ht]
      rfl
  | stopped hlegs hcount he hcat hquiet =>
      rw [he] at hok
      cases hok
  | verified before mid w hlegs hcount hcat ht hbefore hmid hw hclose hpassed =>
      have hsplit : u = (before ++ ⟨.status .verifying, ()⟩ :: mid) ++ [⟨.status w, ()⟩] := by
        rw [ht]
        simp
      rw [hsplit, Transfer.ranAll_concat]
      have hclose := hclose hok
      unfold Closes at hclose
      have hne : ¬ (ctx.legs = [] ∨ ctx.plan.chunkCount = 0) := fun h => h.elim hlegs hcount
      by_cases hmode : ctx.effectiveMode ≠ .none
      · rw [if_pos ⟨hmode, hne⟩]
        split_ifs at hclose with htotal
        · rw [hclose]
          rfl
        · have hzero : ctx.plan.total = 0 := by
            by_contra hpos
            exact htotal ⟨hmode, UInt64.pos_iff_ne_zero.mpr hpos⟩
          rw [hclose, hzero]
          rfl
      · rw [if_neg fun h => hmode h.1]
        rw [if_neg fun h => hmode h.1] at hclose
        rw [hclose]
        rfl

namespace Runtime

variable {rt : Runtime} {σ : System} {i : Tid} {op : Op} {r : Ref}

/-- A thread makes the calls of its operation and no others. -/
theorem Reaches.may (h : rt.Reaches σ) (hop : σ.world.calls[i]? = some op) :
    (∀ ev ∈ σ.world.past i, op.may ev.1 = true) ∧
      ∀ q, σ.threads[i]? = some q → Makes op.may q := by
  have hmakes : Makes op.may (rt.program op) := calls_program op
  have hcalls := fun q hq => hmakes.follows (h.follows (q := q) hop hq)
  obtain ⟨q, hq⟩ := h.thread hop
  exact ⟨(hcalls q hq).1, fun q hq => (hcalls q hq).2⟩

/-- A completed transfer was completed by its worker. -/
theorem Reaches.completed_works (h : rt.Reaches σ) (hr : r < σ.world.next)
    (hdone : (σ.world.heap r).state = .completed) : r ∈ σ.world.workRefs := by
  obtain ⟨l, hl⟩ := h.audited
  obtain ⟨i, hi, e, hmem⟩ := hl.1.closings.ended r hr (by rw [hdone]; rfl)
  obtain ⟨-, t, hown⟩ := hl.1.closings.past i hi r _ e hmem
  have hop := hl.1.coupled.history.op i hi
  rw [Function.comp_apply] at hown hop
  cases hwork : (l i).1.op with
  | work task =>
      obtain ⟨t', hown'⟩ := hl.1.equipped i hi task hwork
      have href := (Prod.mk.inj (Option.some.inj (hown.symm.trans hown'))).1
      refine World.mem_workRefs.mpr ⟨i, (World.works_call hop).mpr ?_⟩
      rw [hwork, href]
      rfl
  | _ =>
      have hmay := (h.may (hwork ▸ hop)).1 _ hmem
      rw [hdone] at hmay
      cases hmay

/-- The records that are made are those a submission makes. -/
theorem Reaches.inserts {t : Transfer} {next : Ref → Prog RtSig Result} (h : rt.Reaches σ)
    (hi : σ.threads[i]? = some (.call (.insert t) next)) :
    ∃ id opts bytes body, t = newTransfer id opts bytes body := by
  obtain ⟨op, hop⟩ := h.called hi
  have hcalls : Calls (fun c : RtCall => ∀ t, c = .insert t →
      ∃ id opts bytes body, t = newTransfer id opts bytes body) (rt.program op) := by
    have hother : ∀ c : RtCall, (∀ t, c ≠ .insert t) → ∀ t, c = .insert t →
        ∃ id opts bytes body, t = newTransfer id opts bytes body := fun c hc t ht =>
      absurd ht (hc t)
    cases op with
    | submit opts =>
        refine calls_submit opts (fun id bytes body t ht => ?_) fun c _ hc => hother c hc
        cases ht
        exact ⟨id, opts, bytes, body, rfl⟩
    | _ => exact (calls_program _).mono fun c hc => hother c (by rintro t rfl; cases hc)
  exact (hcalls.follows (h.follows hop hi)).2.1 t rfl

/-- What holds of the records that submissions make, and is kept by every call that writes to
a record, holds of every record. -/
theorem Reaches.record_invariant (I : Transfer → Prop) (h : rt.Reaches σ)
    (hnew : ∀ id opts bytes body, (newTransfer id opts bytes body).Fresh →
      ∀ maker, I { newTransfer id opts bytes body with maker })
    (hedit : ∀ (t : Transfer) (c : RtCall) (x : RtAnswer c), I t → I (c.edit t x))
    (hr : r < σ.world.next) : I (σ.world.heap r) := by
  induction h with
  | refl => exact absurd hr (Nat.not_lt_zero r)
  | @tail σ₁ σ₂ hrun hstep ih =>
      have hreach : rt.Reaches σ₁ := hrun
      cases hstep with
      | @act i c next x w' hi he =>
          obtain ⟨hx, rfl⟩ := he
          by_cases hinsert : ∃ t, c = .insert t
          · obtain ⟨t, rfl⟩ := hinsert
            obtain rfl := World.Answers.insert hx
            rcases Nat.lt_succ_iff_lt_or_eq.mp hr with hr | rfl
            · rw [World.insert_heap_lt i t hr]
              exact ih hr
            · obtain ⟨l, hl, hpermits, -⟩ := hreach.known
              have hfresh : t.Fresh := (hpermits i _ next hi).2.2.1
              obtain ⟨id, opts, bytes, body, rfl⟩ := hreach.inserts hi
              rw [World.insert_heap_next]
              exact hnew id opts bytes body hfresh i
          · have hinsert := not_exists.mp hinsert
            have hw := σ₁.world.after_changes i c x
            rw [hw.heap hinsert]
            split_ifs
            · exact hedit _ c x (ih (hw.next hinsert ▸ hr))
            · exact ih (hw.next hinsert ▸ hr)
      | start hs =>
          cases hs with
          | call op hop => exact ih hr
          | task hdepth hbusy hpop => exact ih hr

theorem Reaches.reportsBy {f : TransferStatus → UInt64} (hf : ExecutorField f) (h : rt.Reaches σ)
    (hr : r < σ.world.next) : (σ.world.heap r).ReportsBy f := by
  refine h.record_invariant (Transfer.ReportsBy f) (fun id opts bytes body hfresh maker => ?_)
    (fun _ _ x => hf.edit x) hr
  show f (newTransfer id opts bytes body).status = _
  rw [hfresh.idle]
  exact hf.fresh _ _

theorem Reaches.reports (h : rt.Reaches σ) (hr : r < σ.world.next) : (σ.world.heap r).Reports :=
  h.reportsBy executorField_bytesVerified hr

/-- Once all tasks are finished, a register shows what the records say. -/
theorem Finished.register (hf : Finished σ) (h : rt.Reaches σ) (reg : Register) :
    reg.read σ.world.telemetry =
      ∑ r ∈ Finset.range σ.world.next, reg.due (σ.world.heap r) := by
  have hsum := rt.memory.sum_run (fun w => reg.read w.telemetry) reg.weigh
    (by rintro w _ i c x ⟨-, rfl⟩; exact reg.read_after w i c x)
    (by intro w w' prog hs; cases hs <;> rfl)
    (p := rt.start) ⟨rfl, fun _ _ hi => (by cases hi), fun _ _ => rfl⟩ rfl reg.zero h
  -- a thread contributes what the record it worked on says
  have hthread : ∀ i (hi : i < σ.world.calls.length),
      ((σ.world.past i).map reg.weigh).sum =
        ((σ.world.calls[i]).workRef.map fun r => reg.due (σ.world.heap r)).getD 0 := by
    intro i hi
    have hop := List.getElem?_eq_getElem hi
    rw [reg.sum_weigh]
    cases hcall : σ.world.calls[i] with
    | work task =>
        rw [hcall] at hop
        obtain ⟨res, hres⟩ := Option.isSome_iff_exists.mp (hf.ended i task hop)
        obtain ⟨e, hran, hops, -⟩ := h.worked hop (returned_eq hres)
        rw [hops, outcomeOps_due reg hran.state]
        rfl
    | _ =>
        rw [hcall] at hop
        have hnone : (σ.world.past i).filterMap tallied = [] := by
          refine List.filterMap_eq_nil_iff.mpr fun ev hev => ?_
          have hmay := (h.may hop).1 ev hev
          obtain ⟨c, x⟩ := ev
          cases c with
          | count op => simp_all [tallied, Op.may, RtCall.submits, RtCall.asks, RtCall.registers,
              RtCall.closes]
          | _ => rfl
        rw [hnone]
        rfl
  have hnodup : σ.world.workRefs.Nodup := (List.nodup_append.mp h.flow.once).2.1
  calc reg.read σ.world.telemetry
      = ∑ i ∈ Finset.range σ.threads.length, ((σ.world.past i).map reg.weigh).sum := hsum
    _ = (σ.world.calls.map fun op =>
          (op.workRef.map fun r => reg.due (σ.world.heap r)).getD 0).sum := by
        rw [← h.calls_length, Finset.sum_range, ← Fin.sum_univ_fun_getElem]
        exact Finset.sum_congr rfl fun i _ => hthread i i.isLt
    _ = (σ.world.workRefs.map fun r => reg.due (σ.world.heap r)).sum := by
        unfold World.workRefs
        induction σ.world.calls with
        | nil => rfl
        | cons op calls ih =>
            rw [List.map_cons, List.sum_cons, ih, List.filterMap_cons]
            cases op.workRef <;> simp
    _ = ∑ r ∈ σ.world.workRefs.toFinset, reg.due (σ.world.heap r) :=
        (List.sum_toFinset _ hnodup).symm
    _ = ∑ r ∈ Finset.range σ.world.next, reg.due (σ.world.heap r) := by
        refine Finset.sum_subset ?_ ?_
        · intro r hr
          obtain ⟨i, hi⟩ := World.mem_workRefs.mp (List.mem_toFinset.mp hr)
          exact Finset.mem_range.mpr (h.flow.works_taken hi).1
        · intro r hr hnot
          refine if_neg fun hdone => hnot (List.mem_toFinset.mpr ?_)
          exact h.completed_works (Finset.mem_range.mp hr) hdone

/-- The bytes of the completed transfers with a property. -/
def completedBytes (σ : System) (p : Transfer → Prop) [DecidablePred p] : UInt64 :=
  ∑ r ∈ (Finset.range σ.world.next).filter fun r =>
      (σ.world.heap r).state = .completed ∧ p (σ.world.heap r),
    (σ.world.heap r).status.bytesScheduled

theorem sum_due (reg : Register) {p : Transfer → Prop} [DecidablePred p]
    (hdue : ∀ r < σ.world.next, (σ.world.heap r).state = .completed →
      ((σ.world.heap r).byteOps.map reg.weight).sum =
        if p (σ.world.heap r) then (σ.world.heap r).status.bytesScheduled else 0) :
    ∑ r ∈ Finset.range σ.world.next, reg.due (σ.world.heap r) = completedBytes σ p := by
  unfold completedBytes
  rw [Finset.sum_filter]
  refine Finset.sum_congr rfl fun r hr => ?_
  unfold Register.due
  by_cases hdone : (σ.world.heap r).state = .completed
  · rw [if_pos hdone, hdue r (Finset.mem_range.mp hr) hdone]
    simp [hdone]
  · rw [if_neg hdone, if_neg fun h => hdone h.1]

/-- A completed transfer reports its bytes as moved, and as verified if it verifies. -/
theorem Finished.completed (hf : Finished σ) (h : rt.Reaches σ) (hr : r < σ.world.next)
    (hdone : (σ.world.heap r).state = .completed) :
    (σ.world.heap r).status.bytesCompleted = (σ.world.heap r).status.bytesScheduled ∧
      (σ.world.heap r).status.bytesVerified =
        if (σ.world.heap r).verifies rt then (σ.world.heap r).status.bytesScheduled else 0 := by
  obtain ⟨l, hl, -⟩ := h.known
  refine ⟨((hl.truth.sound r hr).completed hdone).1, ?_⟩
  obtain ⟨i, hi⟩ := World.mem_workRefs.mp (h.completed_works hr hdone)
  obtain ⟨p, hop⟩ := World.works_iff.mp hi
  obtain ⟨res, hres⟩ := Option.isSome_iff_exists.mp (hf.ended i _ hop)
  obtain ⟨e, ⟨hstate, hsched, bufs, hresult⟩, -⟩ := h.worked hop (returned_eq hres)
  have hok : e.ok = true := (terminalFor_completed e).mp (hstate.symm.trans hdone)
  rw [h.reports hr, hresult.verifies hok, hsched]
  rfl

/-- Registers to which a completed transfer adds its bytes. -/
theorem Finished.moved (hf : Finished σ) (h : rt.Reaches σ) (reg : Register)
    (hreg : ∀ t : Transfer, (t.byteOps.map reg.weight).sum = t.status.bytesCompleted) :
    reg.read σ.world.telemetry = completedBytes σ fun _ => True := by
  refine (hf.register h reg).trans (sum_due reg fun r hr hdone => ?_)
  rw [hreg, if_pos trivial, (hf.completed h hr hdone).1]

theorem Finished.bytesMoved (hf : Finished σ) (h : rt.Reaches σ) :
    σ.world.telemetry.bytesMoved = completedBytes σ fun _ => True := by
  refine hf.moved h .moved fun t => ?_
  unfold Transfer.byteOps
  split_ifs <;> simp [Register.moved]

theorem Finished.bytesVerified (hf : Finished σ) (h : rt.Reaches σ) :
    σ.world.telemetry.bytesVerified = completedBytes σ (Transfer.verifies rt) := by
  refine (hf.register h .verified).trans (sum_due .verified fun r hr hdone => ?_)
  rw [← (hf.completed h hr hdone).2]
  unfold Transfer.byteOps
  split_ifs with _ hzero hzero <;> simp_all [Register.verified]

/-- Once every accepted task has finished, the byte counters agree with each other and with the
records, modulo `2 ^ 64`: the bytes moved are those of the direct and staged paths, of all routes
and of all route classes, and both totals are those of the completed transfers. -/
theorem bytes_exact (h : rt.Reaches σ) (hf : Finished σ) :
    σ.world.telemetry.bytesMoved = completedBytes σ (fun _ => True) ∧
      σ.world.telemetry.direct + σ.world.telemetry.staged = σ.world.telemetry.bytesMoved ∧
      (σ.world.telemetry.perRoute.map Prod.snd).sum = σ.world.telemetry.bytesMoved ∧
      ([RouteClass.unknown, .direct, .staged, .remote].map σ.world.telemetry.perRouteClass).sum =
        σ.world.telemetry.bytesMoved ∧
      σ.world.telemetry.bytesVerified = completedBytes σ (Transfer.verifies rt) := by
  have hmain := hf.bytesMoved h
  refine ⟨hmain, ?_, ?_, ?_, hf.bytesVerified h⟩
  · refine (hf.moved h .paths fun t => ?_).trans hmain.symm
    unfold Transfer.byteOps
    split_ifs <;> simp [Register.paths]
  · refine (hf.moved h .routes fun t => ?_).trans hmain.symm
    unfold Transfer.byteOps
    split_ifs <;> simp [Register.routes]
  · refine (hf.moved h .classes fun t => ?_).trans hmain.symm
    unfold Transfer.byteOps
    split_ifs <;> simp [Register.classes]

/-- A transfer of sixteen bytes, with its worker back at the queue. -/
theorem oneCompleted_bytes :
    Finished (loopback.play oneCompleted) ∧
      (loopback.play oneCompleted).world.telemetry.bytesMoved = 16 := by
  have hf : Finished (loopback.play oneCompleted) :=
    (quiescent_of_check (by decide +kernel) (by decide +kernel)).finished
  refine ⟨hf, ?_⟩
  rw [(bytes_exact (loopback.play_reaches oneCompleted) hf).1]
  decide +kernel

end Runtime

end TransferFabric
