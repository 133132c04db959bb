import TransferFabric.Runtime.Bytes
import TransferFabric.Runtime.Progress
import TransferFabric.Runtime.StagingOwnership

/-!
Progress as a client may read it, at any time and for any transfer. What the
executor has done for a record is the part of a run of `run_transfer` that the
record's worker has come to, on the record as the worker found it; the counts of
the record are those of that part. Whatever clients, other workers and the
cancellation flag do in the meantime, the progress of the run is therefore the
progress of the record.
-/

namespace TransferFabric

open Interaction Memory Relation

/-! The part of a run. -/

/-- The executor's calls in the trace of a thread. -/
def executed (t : RtTrace) : ExecTrace :=
  t.filterMap fun
    | ⟨.exec _ c, x⟩ => some ⟨c, x⟩
    | _ => none

/-- The record as the thread first loaded it. -/
def loaded (r : Ref) (t : RtTrace) : Option Transfer :=
  t.findSome? fun
    | ⟨.load r', x⟩ => if r' = r then some x else none
    | _ => none

variable {r : Ref} {t u : RtTrace}

theorem executed_append : executed (t ++ u) = executed t ++ executed u := List.filterMap_append

theorem loaded_append : loaded r (t ++ u) = (loaded r t).or (loaded r u) := List.findSome?_append

/-- The executor's calls, as the thread of its worker makes them. -/
def asCalls (r : Ref) (v : ExecTrace) : RtTrace := v.map fun ev => ⟨.exec r ev.1, ev.2⟩

theorem asCalls_concat (v : ExecTrace) (ev : ExecEvent) :
    asCalls r (v ++ [ev]) = asCalls r v ++ [⟨.exec r ev.1, ev.2⟩] := List.map_append

theorem executed_asCalls (v : ExecTrace) : executed (asCalls r v) = v := by
  induction v with
  | nil => rfl
  | cons ev v ih => exact congrArg (ev :: ·) ih

/-- A call that ends a record does so as the error says, which passes the test. -/
def EndsBy (test : Error → Prop) : RtCall → Prop
  | .setTerminal _ s e => s = terminalFor e ∧ test e
  | _ => True

theorem EndsBy.mono {test test' : Error → Prop} {c : RtCall} (h : EndsBy test c)
    (htest : ∀ e, test e → test' e) : EndsBy test' c := by
  cases c with
  | setTerminal r s e => exact ⟨h.1, htest e h.2⟩
  | _ => trivial

theorem endsBy_prepares {test : Error → Prop} {c : RtCall} (hc : c.prepares r = true) :
    EndsBy test c := by
  cases c with
  | setTerminal r s e => cases hc
  | _ => trivial

/-- The worker has come so far with the executor, on the record it loaded, and it has ended
the record only if the executor was done, with what it returned. -/
structure Runtime.Amid (rt : Runtime) (r : Ref) (tr : Transfer) (q : Prog ExecSig Error)
    (t : RtTrace) : Prop where
  loaded : loaded r t = some tr
  run : Follows (executed t) (rt.context tr.body).runTransfer q
  ends : ∀ ev ∈ t, EndsBy (fun e => q = .done e) ev.1

/-- The worker has not come to the executor, or it is in a run on the record it loaded. -/
def Runtime.Course (rt : Runtime) (r : Ref) (t : RtTrace) : Prop :=
  (executed t = [] ∧ loaded r t = none ∧ ∀ ev ∈ t, EndsBy (fun _ => False) ev.1) ∨
    ∃ tr q, rt.Amid r tr q t

/-- Everything about a record but its staging buffers. -/
def TransferRecord.unstaged (b : TransferRecord) : TransferRecord :=
  { b with stagingBufs := [] }

namespace Runtime

variable {rt : Runtime}

/-- A call that is not the executor's. -/
def apart (c : RtCall) : Prop := ∀ r ec, c ≠ .exec r ec

theorem executed_apart {c : RtCall} (hc : apart c) (x : RtAnswer c) :
    executed (t ++ [⟨c, x⟩]) = executed t := by
  rw [executed_append]
  cases c with
  | exec r ec => exact absurd rfl (hc r ec)
  | _ => exact List.append_nil _

/-- Past the executor nothing is added to the run. -/
theorem Amid.apart {tr : Transfer} {q : Prog ExecSig Error} {c : RtCall} (h : rt.Amid r tr q t)
    (hc : apart c) (hends : EndsBy (fun e => q = .done e) c) (x : RtAnswer c) :
    rt.Amid r tr q (t ++ [⟨c, x⟩]) := by
  refine ⟨?_, ?_, fun ev hev => ?_⟩
  · rw [loaded_append, h.loaded]
    rfl
  · rw [executed_apart hc]
    exact h.run
  · rcases List.mem_append.mp hev with hev | hev
    · exact h.ends ev hev
    · rw [List.mem_singleton.mp hev]
      exact hends

theorem prepares_apart {c : RtCall} (hc : c.prepares r = true) : apart c := by
  rintro r ec rfl
  cases hc

theorem apart_finalize (e : Error) : Calls (fun c : RtCall => apart c ∧
    EndsBy (fun e' => (.done e : Prog ExecSig Error) = .done e') c) (finalize r e) :=
  calls_finalize (fun _ hc => ⟨prepares_apart hc, endsBy_prepares hc⟩)
    ⟨fun _ _ h => (by cases h), rfl, rfl⟩ ⟨fun _ _ h => (by cases h), trivial⟩
    ⟨fun _ _ h => (by cases h), trivial⟩ fun _ _ _ => ⟨fun _ _ h => (by cases h), trivial⟩

theorem course_work (task : Task) :
    wp (fun t _ => rt.Course task.ref t) recording (rt.work task)
      (fun _ t => rt.Course task.ref t) [] := by
  refine (wp_bind _ _ _ _).mpr ?_
  refine ⟨.inl ⟨rfl, rfl, by simp [EndsBy]⟩, ?_⟩
  rintro _ _ rfl
  refine ⟨.inl ⟨rfl, rfl, by simp [EndsBy]⟩, ?_⟩
  rintro _ _ rfl
  refine ⟨.inl ⟨rfl, rfl, by simp [EndsBy]⟩, ?_⟩
  rintro _ _ rfl
  refine ⟨.inl ⟨rfl, rfl, by simp [EndsBy]⟩, ?_⟩
  rintro _ _ rfl
  refine ⟨.inl ⟨rfl, rfl, by simp [EndsBy]⟩, ?_⟩
  rintro tr base hbase
  have hexec : executed base = [] := by rw [hbase]; rfl
  have hload : loaded task.ref base = some tr := by rw [hbase]; simp [loaded]
  have hamid : ∀ v q, Follows v (rt.context tr.body).runTransfer q →
      rt.Amid task.ref tr q (base ++ asCalls task.ref v) := by
    refine fun v q hq => ⟨?_, ?_, fun ev hev => ?_⟩
    · rw [loaded_append, hload]
      rfl
    · rw [executed_append, hexec, executed_asCalls]
      exact hq
    · rcases List.mem_append.mp hev with hev | hev
      · rw [hbase] at hev
        simp only [List.nil_append, List.cons_append, List.mem_cons, List.not_mem_nil,
          or_false] at hev
        rcases hev with rfl | rfl | rfl | rfl | rfl <;> trivial
      · obtain ⟨ev', -, rfl⟩ := List.mem_map.mp hev
        trivial
  refine (wp_bind ((rt.context tr.body).runTransfer.embed (execHom task.ref)) _ _ _).mpr
    ((wp_embed _ _ _ _).mpr (wp_of_runs _
      (fun v t => t = base ++ asCalls task.ref v) (List.append_nil base).symm ?_ ?_))
  · rintro v c _ ⟨x, v', e, hruns⟩ rfl
    obtain ⟨q, hq, -⟩ := (follows_of_runs hruns).split
    refine ⟨.inr ⟨tr, q, hamid v q hq⟩, ?_⟩
    rintro x _ ⟨y, rfl, rfl⟩
    show base ++ asCalls task.ref v ++ _ = base ++ asCalls task.ref (v ++ [⟨c, y⟩])
    rw [asCalls_concat, List.append_assoc]
    rfl
  · rintro e v _ hruns rfl
    refine wp_mono _ ((apart_finalize e).wp_invariant (rt.Amid task.ref tr (.done e))
      (fun t c _ h => .inr ⟨tr, _, h⟩) ?_ (hamid v _ (follows_of_runs hruns))) ?_
    · rintro t c x _ hc h rfl
      exact h.apart hc.1 hc.2 x
    rintro _ t h
    refine ⟨.inr ⟨tr, _, h⟩, ?_⟩
    rintro _ _ rfl
    exact .inr ⟨tr, _, h.apart (c := .workerReturns) (fun _ _ h => by cases h) trivial ()⟩

variable {σ σ' : System} {i j : Tid}

/-- Only the worker of a record runs the executor for it. -/
theorem Reaches.exec_works {c : ExecCall} {next : ExecAnswer c → Prog RtSig Result}
    (h : rt.Reaches σ) (hi : σ.threads[i]? = some (.call (.exec r c) next)) :
    σ.world.Works i r := by
  obtain ⟨op, hop⟩ := h.called hi
  have hcalls : Calls (fun c : RtCall => ∀ r ec, c = .exec r ec → op.workRef = some r)
      (rt.program op) := by
    cases op with
    | work task =>
        refine calls_bind (calls_runDriver ?_ ?_) fun _ => calls_bind (calls_ask ?_) fun _ =>
          calls_pure _
        · rintro c r ec hc
          cases hc
          rfl
        · exact fun c _ hc r ec heq => absurd heq (hc r ec)
        · rintro r ec hc
          cases hc
    | _ =>
        refine (calls_program _).mono fun c hc => ?_
        rintro r ec rfl
        cases hc
  exact (World.works_call hop).mpr ((hcalls.follows (h.follows hop hi)).2.1 r c rfl)

theorem edit_unstaged (t : Transfer) (c : RtCall) (x : RtAnswer c) :
    (c.edit t x).body.unstaged = t.body.unstaged := by
  cases c with
  | setState r s =>
      show (t.setState s).body.unstaged = _
      unfold Transfer.setState
      split_ifs <;> rfl
  | setTerminal r s e =>
      show (t.setTerminal s e).body.unstaged = _
      unfold Transfer.setTerminal
      split_ifs <;> rfl
  | exec r ec =>
      show (t.ran ⟨ec, x⟩).body.unstaged = _
      rw [t.ran_eq]
  | _ => rfl

/-- The record and its worker agree on what was done and on what it was done to. -/
structure Tracked (w : World) (i : Tid) (r : Ref) : Prop where
  done : (w.heap r).done = executed (w.past i)
  body : ∀ tr, loaded r (w.past i) = some tr → tr.body.unstaged = (w.heap r).body.unstaged

theorem heap_after {w : World} {c : RtCall} {x : RtAnswer c} (hr : r < w.next)
    (hx : w.Answers c x) (i : Tid) :
    (w.after i c x).heap r = if c.edits = some r then c.edit (w.heap r) x else w.heap r := by
  by_cases hinsert : ∃ t, c = .insert t
  · obtain ⟨t, rfl⟩ := hinsert
    obtain rfl := hx.insert
    exact World.insert_heap_lt i t hr
  · exact (w.after_changes i c x).heap (not_exists.mp hinsert) r

theorem heap_after_unstaged {w : World} {c : RtCall} {x : RtAnswer c} (hr : r < w.next)
    (hx : w.Answers c x) (i : Tid) :
    ((w.after i c x).heap r).body.unstaged = (w.heap r).body.unstaged := by
  rw [heap_after hr hx]
  split_ifs
  · exact edit_unstaged _ c x
  · rfl

theorem Tracked.act {w : World} {c : RtCall} {x : RtAnswer c} (h : Tracked w j r)
    (hr : r < w.next) (hx : w.Answers c x)
    (hexec : ∀ r' ec, c = .exec r' ec → (r' = r ↔ j = i)) : Tracked (w.after i c x) j r := by
  have hpast : (w.after i c x).past j = w.past j ++ if j = i then [⟨c, x⟩] else [] := by
    rw [(w.after_changes i c x).past, Function.update_apply]
    split_ifs with hij
    · rw [hij]
    · rw [List.append_nil]
  refine ⟨?_, fun tr htr => ?_⟩
  · rw [hpast, heap_after hr hx]
    by_cases hcall : ∃ r' ec, c = .exec r' ec
    · obtain ⟨r', ec, rfl⟩ := hcall
      have hiff := hexec r' ec rfl
      have hedits : (RtCall.exec r' ec).edits = some r' := rfl
      by_cases hr' : r' = r
      · rw [if_pos (hiff.mp hr'), if_pos (by rw [hedits, hr']), executed_append, ← h.done]
        show ((w.heap r).ran ⟨ec, x⟩).done = _
        rw [Transfer.ran_eq]
        rfl
      · rw [if_neg fun hij => hr' (hiff.mpr hij), List.append_nil, hedits,
          if_neg fun heq => hr' (Option.some.inj heq)]
        exact h.done
    · have hapart : apart c := fun r' ec heq => hcall ⟨r', ec, heq⟩
      have hsame : executed (w.past j ++ if j = i then [⟨c, x⟩] else []) = executed (w.past j) := by
        split_ifs
        · exact executed_apart hapart x
        · rw [List.append_nil]
      rw [hsame, ← h.done]
      split_ifs
      · exact RtCall.edit_done _ x hapart
      · rfl
  · rw [heap_after_unstaged hr hx]
    rw [hpast, loaded_append] at htr
    cases hload : loaded r (w.past j) with
    | some tr' =>
        rw [hload] at htr
        obtain rfl := Option.some.inj htr
        exact h.body tr' hload
    | none =>
        rw [hload, Option.none_or] at htr
        split_ifs at htr
        · cases c with
          | load r' =>
              obtain rfl := hx.load
              by_cases hr' : r' = r
              · subst hr'
                have heq : some (w.heap r') = some tr := by simpa [loaded] using htr
                rw [Option.some.inj heq]
              · simp [loaded, hr'] at htr
          | _ => cases htr
        · cases htr

theorem works_start {w w' : World} {op : Op} (hcalls : w'.calls = w.calls ++ [op])
    (h : w'.Works i r) : w.Works i r ∨ i = w.calls.length ∧ op.workRef = some r := by
  unfold World.Works at h ⊢
  rw [hcalls] at h
  rcases Nat.lt_trichotomy i w.calls.length with hlt | rfl | hgt
  · rw [List.getElem?_append_left hlt] at h
    exact .inl h
  · rw [List.getElem?_concat_length] at h
    exact .inr ⟨rfl, h⟩
  · rw [List.getElem?_eq_none (by simpa using hgt)] at h
    cases h

theorem Reaches.tracked (h : rt.Reaches σ) (hworks : σ.world.Works i r) :
    Tracked σ.world i r := by
  induction h generalizing i with
  | refl => cases hworks
  | @tail σ₁ σ₂ hrun hstep ih =>
      have hreach : rt.Reaches σ₁ := hrun
      cases hstep with
      | @act j c next x w' hj he =>
          obtain ⟨hx, rfl⟩ := he
          replace hworks : σ₁.world.Works i r := World.after_works.mp hworks
          refine (ih hworks).act (hreach.flow.works_taken hworks).1 hx ?_
          rintro r' ec rfl
          have hj := hreach.exec_works hj
          constructor
          · rintro rfl
            exact hreach.flow.works_unique hworks hj
          · rintro rfl
            exact Option.some.inj (hj.symm.trans hworks)
      | start hs =>
          cases hs with
          | call op hop =>
              rcases works_start rfl hworks with hold | ⟨-, href⟩
              · exact ⟨(ih hold).done, (ih hold).body⟩
              · cases op with
                | work task => exact absurd rfl (hop task)
                | _ => cases href
          | @task task queue hdepth hbusy hpop =>
              rcases works_start rfl hworks with hold | ⟨rfl, href⟩
              · exact ⟨(ih hold).done, (ih hold).body⟩
              · obtain rfl : task.ref = r := Option.some.inj href
                obtain ⟨l, ⟨-, hrecords, -, -⟩, -, -⟩ := hreach.known
                obtain ⟨-, hready, -⟩ := hrecords.queued task
                  ((Scheduler.pop_tasks hpop).mem_iff.mpr List.mem_cons_self)
                have hsilent : σ₁.world.past σ₁.world.calls.length = [] :=
                  hreach.kept.silent _ (Nat.le_of_eq hreach.calls_length.symm)
                refine ⟨?_, fun tr htr => ?_⟩
                · show (σ₁.world.heap task.ref).done = executed (σ₁.world.past _)
                  rw [hsilent, hready.idle]
                  rfl
                · replace htr : loaded task.ref (σ₁.world.past σ₁.world.calls.length) = some tr := htr
                  rw [hsilent] at htr
                  cases htr

/-- Nothing is done for a record before it has a worker. -/
theorem Reaches.undone (h : rt.Reaches σ) (hr : r < σ.world.next)
    (hnone : ∀ i, ¬ σ.world.Works i r) : (σ.world.heap r).done = [] := by
  induction h with
  | refl => exact absurd hr (Nat.not_lt_zero r)
  | @tail σ₁ σ₂ hrun hstep ih =>
      have hreach : rt.Reaches σ₁ := hrun
      rcases done_new hreach hstep hr with hold | hnew
      · cases hstep with
        | @act j c next x w' hj he =>
            obtain ⟨hx, rfl⟩ := he
            have hnone₁ : ∀ i, ¬ σ₁.world.Works i r := fun i hi => hnone i (World.after_works.mpr hi)
            show ((σ₁.world.after j c x).heap r).done = []
            rw [heap_after hold hx]
            split_ifs with hedits
            · rw [RtCall.edit_done _ x fun r' ec hc => ?_]
              · exact ih hold hnone₁
              · subst hc
                obtain rfl := Option.some.inj hedits
                exact hnone₁ j (hreach.exec_works hj)
            · exact ih hold hnone₁
        | start hs =>
            obtain ⟨-, hheap, -, op, hcalls⟩ := hs.same
            rw [hheap]
            refine ih hold fun i hi => hnone i ?_
            unfold World.Works at hi ⊢
            rw [hcalls, List.getElem?_append_left (World.works_lt hi)]
            exact hi
      · exact hnew

end Runtime

/-- What `run_transfer` is given for a record: the record as its worker loads it. -/
def World.given (w : World) (r : Ref) : TransferRecord :=
  ((((List.range w.calls.length).find? fun i => w.Works i r).bind fun i =>
    loaded r (w.past i)).getD (w.heap r)).body

namespace Runtime

variable {rt : Runtime} {σ σ' : System}

theorem Reaches.worker_course {i : Tid} (h : rt.Reaches σ) (hworks : σ.world.Works i r) :
    rt.Course r (σ.world.past i) := by
  obtain ⟨priority, hop⟩ := World.works_iff.mp hworks
  obtain ⟨q, hq⟩ := h.thread hop
  exact wp_recorded (course_work ⟨r, priority⟩) (h.follows hop hq)

/-- What was done for a record is a part of a run on what the executor was given. -/
theorem Reaches.course (h : rt.Reaches σ) (hr : r < σ.world.next) :
    (σ.world.given r).unstaged = (σ.world.heap r).body.unstaged ∧
      ∃ q, Follows (σ.world.heap r).done (rt.context (σ.world.given r)).runTransfer q := by
  unfold World.given
  cases hfind : (List.range σ.world.calls.length).find? fun i => decide (σ.world.Works i r) with
  | none =>
      have hnone : ∀ i, ¬ σ.world.Works i r := fun i hi => by
        have := List.find?_eq_none.mp hfind i (List.mem_range.mpr (World.works_lt hi))
        exact this (decide_eq_true hi)
      rw [h.undone hr hnone]
      exact ⟨rfl, _, rfl⟩
  | some i =>
      have hworks : σ.world.Works i r := by simpa using List.find?_some hfind
      have htracked := h.tracked hworks
      rw [htracked.done, Option.bind_some]
      rcases h.worker_course hworks with ⟨hexec, hload, -⟩ | ⟨tr, q, hamid⟩
      · rw [hexec, hload]
        exact ⟨rfl, _, rfl⟩
      · rw [hamid.loaded]
        exact ⟨htracked.body tr hamid.loaded, q, hamid.run⟩

theorem ranAll_status (t : Transfer) (u : ExecTrace) :
    (t.ranAll u).status = u.foldl (fun st ev => noted ev.1 st) t.status := by
  induction u generalizing t with
  | nil => rfl
  | cons ev u ih =>
      obtain ⟨c, x⟩ := ev
      have hran : (t.ran ⟨c, x⟩).status = noted c t.status := by cases c <;> rfl
      exact (ih (t.ran ⟨c, x⟩)).trans (by rw [hran]; rfl)

theorem executorField_bytesCompleted : ExecutorField TransferStatus.bytesCompleted where
  fresh _ _ := rfl
  ended _ _ _ := rfl
  update u _ _ h := by cases u <;> first | rfl | exact h

theorem executorField_chunksDone : ExecutorField TransferStatus.chunksDone where
  fresh _ _ := rfl
  ended _ _ _ := rfl
  update u _ _ h := by cases u <;> first | rfl | exact h

theorem edit_scheduled (t : Transfer) (c : RtCall) (x : RtAnswer c) :
    (c.edit t x).status.bytesScheduled = t.status.bytesScheduled := by
  cases c with
  | setState r s =>
      show (t.setState s).status.bytesScheduled = _
      unfold Transfer.setState
      split_ifs <;> rfl
  | setTerminal r s e =>
      show (t.setTerminal s e).status.bytesScheduled = _
      unfold Transfer.setTerminal
      split_ifs <;> rfl
  | exec r ec => exact t.ran_scheduled ⟨ec, x⟩
  | _ => rfl

theorem Reaches.scheduled (h : rt.Reaches σ) (hr : r < σ.world.next) :
    (σ.world.heap r).status.bytesScheduled =
      (σ.world.heap r).body.unstaged.chunkPlan.plan.total := by
  refine h.record_invariant
    (fun t => t.status.bytesScheduled = t.body.unstaged.chunkPlan.plan.total)
    (fun id opts bytes body hfresh maker => hfresh.scheduled) (fun t c x ht => ?_) hr
  rw [edit_scheduled, edit_unstaged]
  exact ht

/-- What the record says of its progress is what the calls made for it say. -/
theorem Reaches.counts (h : rt.Reaches σ) (hr : r < σ.world.next) :
    (σ.world.heap r).status.bytesCompleted =
        ((σ.world.heap r).done.foldl (fun st ev => noted ev.1 st) {}).bytesCompleted ∧
      (σ.world.heap r).status.chunksDone =
        ((σ.world.heap r).done.foldl (fun st ev => noted ev.1 st) {}).chunksDone := by
  have hstatus := ranAll_status {} (σ.world.heap r).done
  exact ⟨(h.reportsBy executorField_bytesCompleted hr).trans (by rw [hstatus]),
    (h.reportsBy executorField_chunksDone hr).trans (by rw [hstatus])⟩

theorem given_after_exec (w : World) (i : Tid) (r r' : Ref) (c : ExecCall) (x : ExecAnswer c) :
    (w.after i (.exec r' c) x).given r = w.given r := by
  have hw := w.after_changes i (.exec r' c) x
  have hbody : ((w.after i (.exec r' c) x).heap r).body = (w.heap r).body := by
    rw [hw.heap (fun _ h => by cases h)]
    split_ifs
    · show ((w.heap r).ran ⟨c, x⟩).body = _
      rw [Transfer.ran_eq]
    · rfl
  have hloaded : ∀ j, loaded r ((w.after i (.exec r' c) x).past j) = loaded r (w.past j) := by
    intro j
    rw [hw.past, Function.update_apply]
    split_ifs with hj
    · rw [hj, loaded_append]
      exact Option.or_none
    · rfl
  have hworks : ∀ j, decide ((w.after i (.exec r' c) x).Works j r) = decide (w.Works j r) :=
    fun j => decide_eq_decide.mpr World.after_works
  unfold World.given
  simp only [hw.calls, hloaded, hworks]
  cases ((List.range w.calls.length).find? fun i => w.Works i r).bind fun i => loaded r (w.past i) with
  | none => exact hbody
  | some tr => rfl

end Runtime

/-- The run of the executor for a record. -/
def Runtime.running (rt : Runtime) (w : World) (r : Ref) : RunContext := rt.context (w.given r)

namespace Runtime

/-- In every state that a run reaches, if every accepted copy of the transfer has landed before
the executor's next call, the progress is real, and no step takes any of it back. -/
theorem progress_real (rt : Runtime) (σ : System) (r : Ref) (fileOf : Handle → Nat)
    (w w' : CopyWorld) (h : rt.Reaches σ) (hr : r < σ.world.next)
    (hlayout : (rt.running σ.world r).Layout fileOf)
    (hroute : (rt.running σ.world r).legs ≠ [] ∨ (rt.running σ.world r).plan.total = 0)
    (hw : w.pending = []) (hpath : Path (promptly fileOf) w (σ.world.heap r).done w') :
    (rt.running σ.world r).RealProgress fileOf (σ.world.heap r).status w' ∧
      ∀ σ', rt.Step σ σ' → (σ.world.heap r).status.bytesCompleted ≤
        (σ'.world.heap r).status.bytesCompleted := by
  obtain ⟨hbody, q, hfollows⟩ := h.course hr
  have hproceeds := RunContext.proceeds_rest hlayout hroute hw hfollows hpath
  refine ⟨hproceeds.real.progress hroute (h.counts hr).1 (h.counts hr).2 ?_, fun σ' hstep => ?_⟩
  · rw [h.scheduled hr, ← hbody]
    rfl
  · have hr' : r < σ'.world.next := Nat.lt_of_lt_of_le hr (h.next_le hstep)
    rw [(h.counts hr).1, ((h.tail hstep).counts hr').1]
    rcases done_step h hstep hr with hsame | ⟨i, c, x, -, hworld, hdone⟩
    · rw [hsame]
      exact UInt64.le_refl _
    · obtain ⟨-, q', hfollows'⟩ := (h.tail hstep).course hr'
      rw [hdone, hworld, given_after_exec] at hfollows'
      obtain ⟨m, hm, hlast⟩ := hfollows'.split
      obtain rfl := hfollows.unique hm
      rw [hdone, List.foldl_append]
      cases q with
      | done a => cases hlast
      | call c' next =>
          obtain ⟨x', heq, -⟩ := hlast
          cases heq
          exact hproceeds.1.2

theorem oneCompleted_layout :
    (loopback.running (loopback.play oneCompleted).world 0).Layout UInt64.toNat := by
  have htotal : (loopback.running (loopback.play oneCompleted).world 0).plan.total = 16 := by
    decide +kernel
  have hsource : (loopback.running (loopback.play oneCompleted).world 0).sourceRegion UInt64.toNat =
      memRegion 0x10000 := Loc.region_memory (by decide +kernel) (by decide +kernel)
  have hdest : (loopback.running (loopback.play oneCompleted).world 0).destRegion UInt64.toNat =
      memRegion 0x20000 := Loc.region_memory (by decide +kernel) (by decide +kernel)
  refine .direct (by decide +kernel) ?_
  rw [htotal, hsource, hdest]
  exact fun k hk l hl => memRegion_ne (n := 16) (m := 16) (by decide) (by decide) (by decide) hk hl

/-- Sixteen bytes are counted, and are there. -/
theorem oneCompleted_progress :
    ∃ w', (loopback.running (loopback.play oneCompleted).world 0).RealProgress UInt64.toNat
        ((loopback.play oneCompleted).world.heap 0).status w' ∧
      ((loopback.play oneCompleted).world.heap 0).status.bytesCompleted = 16 := by
  have hmade : 0 < (loopback.play oneCompleted).world.next := by decide +kernel
  have hlegs : (loopback.running (loopback.play oneCompleted).world 0).legs ≠ [] := by
    decide +kernel
  have hprompt : ∃ w', Path (promptly UInt64.toNat) addressBytes
      ((loopback.play oneCompleted).world.heap 0).done w' :=
    exists_promptly UInt64.toNat (by decide +kernel) addressBytes
  have hbytes : ((loopback.play oneCompleted).world.heap 0).status.bytesCompleted = 16 := by
    decide +kernel
  have hreach := loopback.play_reaches oneCompleted
  have hlayout := oneCompleted_layout
  -- The path would be evaluated with the state it is about.
  generalize loopback.play oneCompleted = σ at hreach hmade hlegs hprompt hbytes hlayout ⊢
  obtain ⟨w', hpath⟩ := hprompt
  exact ⟨w', (progress_real loopback σ 0 UInt64.toNat addressBytes w' hreach hmade hlayout
    (Or.inl hlegs) rfl hpath).1, hbytes⟩

/-! A transfer from host memory to a device, through two pinned buffers. -/

def deviceRoute : Route :=
  { legs := pinnedToDevice.legs
    routeClass := .staged, routeId := "host_pageable-host_pinned:host|host_pinned-device:cuda" }

def hostToDevice : Runtime where
  backends := pinnedToDevice.backends
  backendNames := [BackendName.host, BackendName.cuda]
  planner := fun _ => { found := true, best := deviceRoute, candidates := [deviceRoute] }
  os := { noFiles with deviceCount := 1 }

/-- A transfer in three chunks is submitted, and thread 3 begins to work on it. -/
def underWay (steps : Nat) : List Move :=
  Move.whole 0 2 (.registerEndpoint (.hostMemory 0x100000 12288)) 0 ++
    Move.whole 1 2 (.registerEndpoint (.deviceMemory 0 0x200000 12288)) 0 ++
    .call (.submit { firstToSecond with policy := { preferredChunkSize := 4096 } }) ::
    List.replicate 12 (.act 2 (fairAt 0x10000)) ++ List.replicate 20 (.act 2 (fairAt 0x20000)) ++
    .task :: List.replicate steps (.act 3 (fair 1))

theorem underWay_layout :
    (hostToDevice.running (hostToDevice.play (underWay 13)).world 0).Layout UInt64.toNat :=
  layout_three (by decide +kernel) (by decide +kernel) (by decide +kernel) (by decide +kernel)
    (Loc.region_memory (by decide +kernel) (by decide +kernel))
    (Loc.region_memory (by decide +kernel) (by decide +kernel))

/-- A source of ones, and zeros elsewhere. -/
def ones : CopyWorld where
  store := fun cell =>
    match cell with
    | .mem a => if 0x100000 ≤ a ∧ a < 0x200000 then 1 else 0
    | .file _ _ => 0

/-- The first chunk is counted. Its copy to the device was accepted, and nothing has arrived. -/
theorem counted_progress_unreal :
    ∃ σ : System, hostToDevice.Reaches σ ∧ 0 < σ.world.next ∧
      (hostToDevice.running σ.world 0).Layout UInt64.toNat ∧
      (hostToDevice.running σ.world 0).legs ≠ [] ∧ ones.pending = [] ∧
      (σ.world.heap 0).state = .active ∧ (σ.world.heap 0).status.bytesCompleted = 4096 ∧
      ∃ w', Path (contained UInt64.toNat) ones (σ.world.heap 0).done w' ∧
        ¬ (hostToDevice.running σ.world 0).RealProgress UInt64.toNat (σ.world.heap 0).status w' :=
  ⟨hostToDevice.play (underWay 13), hostToDevice.play_reaches _, by decide +kernel,
    underWay_layout, by decide +kernel, rfl, by decide +kernel, by decide +kernel,
    RunContext.exists_unreal (k := 0) (by decide +kernel) (by decide +kernel) (by decide +kernel)⟩

end Runtime

end TransferFabric
