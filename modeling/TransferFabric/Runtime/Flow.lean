import TransferFabric.Runtime.Marks
import TransferFabric.Runtime.Moves
import Mathlib.Data.List.Pairwise

/-!
How transfers pass from hand to hand. Every record was made by one submission, is
offered to the scheduler at most once, and once accepted is queued or has one
worker. The flag `started` of a record is up between the two milestones of its
worker that move it, and a submission that gives its record up never finds it up.
-/

namespace TransferFabric

open Interaction Relation

instance : ∀ c : RtSig.Call, Nonempty (RtSig.Answer c)
  | .loadShutdown | .exchangeShutdown | .exchangeStarted _ | .schedule _ | .stopScheduler => ⟨false⟩
  | .getEndpoint _ | .find _ | .allocate .. => ⟨none⟩
  | .allocateEndpoint _ => ⟨({} : EndpointHandle)⟩
  | .removeEndpoint _ => ⟨({} : Error)⟩
  | .generate => ⟨({} : TransferId)⟩
  | .insert _ => ⟨(0 : Nat)⟩
  | .load _ => ⟨({} : Transfer)⟩
  | .stateOf _ | .awaitTerminal _ => ⟨TransferState.created⟩
  | .exec _ c => (inferInstance : ∀ c : ExecSig.Call, Nonempty (ExecSig.Answer c)) c
  | .clearEndpoints | .setState .. | .setTerminal .. | .storeCancel _ | .storeStarted _
  | .setStaging .. | .pushStaging .. | .release .. | .count _ | .joinWorkers | .drain _
  | .workerReturns => ⟨()⟩

namespace World

/-- The milestones a thread has shown. -/
def marks (w : World) (i : Tid) : List Mark := (w.past i).filterMap mark

/-- Thread `i` is a worker with the record. -/
def Works (w : World) (i : Tid) (r : Ref) : Prop := (w.calls[i]?).bind Op.workRef = some r

instance (w : World) (i : Tid) (r : Ref) : Decidable (w.Works i r) :=
  inferInstanceAs (Decidable (_ = _))

/-- The records that workers have taken, in order. -/
def workRefs (w : World) : List Ref := w.calls.filterMap Op.workRef

variable {w w' : World} {i j : Tid} {c : RtCall} {x : RtAnswer c} {r : Ref} {k : Mark}

theorem works_iff : w.Works i r ↔ ∃ p, w.calls[i]? = some (.work ⟨r, p⟩) := by
  unfold Works
  constructor
  · intro h
    obtain ⟨op, hop, href⟩ := Option.bind_eq_some_iff.mp h
    cases op with
    | work task =>
        obtain rfl := Option.some.inj href
        exact ⟨task.priority, hop⟩
    | _ => cases href
  · rintro ⟨p, hop⟩
    rw [hop]
    rfl

theorem works_call {op : Op} (hop : w.calls[i]? = some op) :
    w.Works i r ↔ op.workRef = some r := by
  unfold Works
  rw [hop]
  rfl

theorem mem_workRefs : r ∈ w.workRefs ↔ ∃ i, w.Works i r := by
  unfold workRefs Works
  simp only [Option.bind_eq_some_iff, List.mem_filterMap]
  constructor
  · rintro ⟨op, hmem, href⟩
    obtain ⟨i, hi⟩ := List.mem_iff_getElem?.mp hmem
    exact ⟨i, op, hi, href⟩
  · rintro ⟨i, op, hi, href⟩
    exact ⟨op, List.mem_of_getElem? hi, href⟩

theorem works_lt (h : w.Works i r) : i < w.calls.length := by
  obtain ⟨p, hi⟩ := works_iff.mp h
  exact (List.getElem?_eq_some_iff.mp hi).1

/-- A record has one worker. -/
theorem works_unique (hnodup : w.workRefs.Nodup) (hi : w.Works i r) (hj : w.Works j r) : i = j := by
  obtain ⟨p, hi⟩ := works_iff.mp hi
  obtain ⟨q, hj⟩ := works_iff.mp hj
  obtain ⟨hilt, hi⟩ := List.getElem?_eq_some_iff.mp hi
  obtain ⟨hjlt, hj⟩ := List.getElem?_eq_some_iff.mp hj
  have hpair := List.pairwise_iff_getElem.mp (List.pairwise_filterMap.mp hnodup)
  rcases Nat.lt_trichotomy i j with hlt | heq | hlt
  · exact absurd rfl (hpair i j hilt hjlt hlt r (by rw [hi]; rfl) r (by rw [hj]; rfl))
  · exact heq
  · exact absurd rfl (hpair j i hjlt hilt hlt r (by rw [hj]; rfl) r (by rw [hi]; rfl))

theorem mem_after_marks :
    k ∈ (w.after i c x).marks j ↔ k ∈ w.marks j ∨ j = i ∧ mark ⟨c, x⟩ = some k := by
  unfold marks
  rw [(w.after_changes i c x).past, Function.update_apply]
  split_ifs with hj
  · subst hj
    simp
  · simp [hj]

theorem after_works : (w.after i c x).Works j r ↔ w.Works j r := by
  unfold Works
  rw [(w.after_changes i c x).calls]

theorem after_workRefs : (w.after i c x).workRefs = w.workRefs := by
  unfold workRefs
  rw [(w.after_changes i c x).calls]

/-- The flag `started` moves with two calls only. -/
theorem after_started (hc : ∀ t, c ≠ .insert t) (hstore : c ≠ .storeStarted r)
    (hexchange : c ≠ .exchangeStarted r) :
    ((w.after i c x).heap r).started = (w.heap r).started := by
  rw [(w.after_changes i c x).heap hc r]
  split_ifs with hedits
  · cases c with
    | storeStarted r' => exact absurd (congrArg RtCall.storeStarted (Option.some.inj hedits)) hstore
    | exchangeStarted r' =>
        exact absurd (congrArg RtCall.exchangeStarted (Option.some.inj hedits)) hexchange
    | setState r' s =>
        show ((w.heap r).setState s).started = _
        unfold Transfer.setState
        split_ifs <;> rfl
    | setTerminal r' s e =>
        show ((w.heap r).setTerminal s e).started = _
        unfold Transfer.setTerminal
        split_ifs <;> rfl
    | exec r' ec =>
        show ((w.heap r).ran ⟨ec, x⟩).started = _
        rw [Transfer.ran_eq]
    | _ => rfl
  · rfl

theorem after_maker (hc : ∀ t, c ≠ .insert t) (r : Ref) :
    ((w.after i c x).heap r).maker = (w.heap r).maker := by
  rw [(w.after_changes i c x).heap hc r]
  split_ifs
  · exact (RtCall.edit_same _ c x).maker
  · rfl

theorem Answers.exchangeStarted {was : Bool} (h : w.Answers (.exchangeStarted r) was) :
    was = (w.heap r).started := by
  obtain ⟨ch, h⟩ := h
  exact (Option.some.inj h).symm

end World

/-- Who has had which record, and the flag `started`. -/
structure Flow (w : World) : Prop where
  made : ∀ i r b, .made r b ∈ w.marks i → r < w.next ∧ (w.heap r).maker = i
  maker : ∀ r < w.next, ∃ b, .made r b ∈ w.marks (w.heap r).maker
  /-- A record is queued once or has one worker. -/
  once : (w.scheduler.tasks.map Task.ref ++ w.workRefs).Nodup
  taken : ∀ r, r ∈ w.scheduler.tasks.map Task.ref ++ w.workRefs ↔
    r < w.next ∧ .offered r true ∈ w.marks (w.heap r).maker
  flag : ∀ r < w.next, (w.heap r).started = true ↔
    ∃ i, w.Works i r ∧ .stored r ∈ w.marks i ∧ ∀ was, .exchanged r was ∉ w.marks i
  /-- A worker finds the flag up, a submission finds it down. -/
  found : ∀ i r was, .exchanged r was ∈ w.marks i →
    (was = true ↔ ∃ task, w.calls[i]? = some (.work task))

namespace Flow

variable {w w' : World} {i j : Tid} {c : RtCall} {x : RtAnswer c} {r : Ref} {op : Op}

theorem works_taken (h : Flow w) (hi : w.Works i r) :
    r < w.next ∧ .offered r true ∈ w.marks (w.heap r).maker :=
  (h.taken r).mp (List.mem_append_right _ (World.mem_workRefs.mpr ⟨i, hi⟩))

theorem works_unique (h : Flow w) (hi : w.Works i r) (hj : w.Works j r) : i = j :=
  World.works_unique (List.nodup_append.mp h.once).2.1 hi hj

/-- The flag of a record that the scheduler has not taken is down. -/
theorem flag_down (h : Flow w) (hr : r < w.next)
    (hnot : .offered r true ∉ w.marks (w.heap r).maker) : (w.heap r).started = false := by
  rw [Bool.eq_false_iff]
  intro hup
  obtain ⟨i, hi, -⟩ := (h.flag r hr).mp hup
  exact hnot (h.works_taken hi).2

/-- Calls that neither make a record, nor give it away, nor move its flag. -/
structure Plain (c : RtCall) : Prop where
  insert : ∀ t, c ≠ .insert t
  schedule : ∀ t, c ≠ .schedule t
  store : ∀ r, c ≠ .storeStarted r
  exchange : ∀ r, c ≠ .exchangeStarted r

/-- A plain call shows a milestone of the counters at most. -/
theorem Plain.marks (hc : Plain c) {k : Mark} (hk : k ≠ .pushed ∧ k ≠ .popped ∧ k ≠ .begun ∧
    k ≠ .ended) : k ∈ (w.after i c x).marks j ↔ k ∈ w.marks j := by
  rw [World.mem_after_marks]
  refine or_iff_left ?_
  rintro ⟨-, hmark⟩
  cases c with
  | insert t => exact hc.insert t rfl
  | schedule t => exact hc.schedule t rfl
  | storeStarted r => exact hc.store r rfl
  | exchangeStarted r => exact hc.exchange r rfl
  | count op => cases op <;> cases hmark <;> simp at hk
  | _ => cases hmark

theorem plain (h : Flow w) (hc : Plain c) : Flow (w.after i c x) := by
  have hw := w.after_changes i c x
  have hmade : ∀ j r b, .made r b ∈ (w.after i c x).marks j ↔ .made r b ∈ w.marks j :=
    fun _ _ _ => hc.marks (by simp)
  have hoffered : ∀ j r b, .offered r b ∈ (w.after i c x).marks j ↔ .offered r b ∈ w.marks j :=
    fun _ _ _ => hc.marks (by simp)
  have hstored : ∀ j r, .stored r ∈ (w.after i c x).marks j ↔ .stored r ∈ w.marks j :=
    fun _ _ => hc.marks (by simp)
  have hexchanged : ∀ j r b,
      .exchanged r b ∈ (w.after i c x).marks j ↔ .exchanged r b ∈ w.marks j :=
    fun _ _ _ => hc.marks (by simp)
  constructor
  · simpa only [hmade, hw.next hc.insert, World.after_maker hc.insert] using h.made
  · simpa only [hmade, hw.next hc.insert, World.after_maker hc.insert] using h.maker
  · simpa only [hw.tasks hc.schedule, World.after_workRefs] using h.once
  · simpa only [hw.tasks hc.schedule, World.after_workRefs, hw.next hc.insert,
      World.after_maker hc.insert, hoffered] using h.taken
  · intro r hr
    rw [World.after_started hc.insert (hc.store r) (hc.exchange r)]
    simp only [World.after_works, hstored, hexchanged]
    exact h.flag r (hw.next hc.insert ▸ hr)
  · simpa only [hexchanged, hw.calls] using h.found

theorem insert (h : Flow w) {t : Transfer} (hnext : Next op (w.marks i) (.made w.next t.clean)) :
    Flow (w.after i (.insert t) w.next) := by
  have hw := w.after_changes i (.insert t) w.next
  obtain ⟨hm, hclean⟩ := hnext.made_inv
  have hdown : t.started = false := by
    unfold Transfer.clean at hclean
    simpa using (Bool.and_eq_true_iff.mp hclean).1
  have hheap : ∀ r < w.next, (w.after i (.insert t) w.next).heap r = w.heap r := fun r hr =>
    World.insert_heap_lt i t hr
  have hnew := w.insert_heap_next i t
  have hlt : ∀ r, r < (w.after i (.insert t) w.next).next ↔ r < w.next ∨ r = w.next := fun r =>
    Nat.lt_succ_iff_lt_or_eq
  have hmark : ∀ j (k : Mark), k ∈ (w.after i (.insert t) w.next).marks j ↔
      k ∈ w.marks j ∨ j = i ∧ .made w.next t.clean = k := fun j k => by
    rw [World.mem_after_marks]
    simp [mark]
  have htaken : ∀ r ∈ w.scheduler.tasks.map Task.ref ++ w.workRefs, r < w.next := fun r hr =>
    ((h.taken r).mp hr).1
  constructor
  · intro j r b hj
    rcases (hmark j _).mp hj with hj | ⟨rfl, hk⟩
    · obtain ⟨hr, hmaker⟩ := h.made j r b hj
      exact ⟨(hlt r).mpr (Or.inl hr), by rw [hheap r hr, hmaker]⟩
    · cases hk
      exact ⟨(hlt _).mpr (Or.inr rfl), by rw [hnew]⟩
  · intro r hr
    rcases (hlt r).mp hr with hr | rfl
    · obtain ⟨b, hb⟩ := h.maker r hr
      rw [hheap r hr]
      exact ⟨b, (hmark _ _).mpr (Or.inl hb)⟩
    · rw [hnew]
      exact ⟨t.clean, (hmark _ _).mpr (Or.inr ⟨rfl, rfl⟩)⟩
  · simpa only [hw.tasks (fun _ h => by cases h), World.after_workRefs] using h.once
  · intro r
    rw [hw.tasks (fun _ h => by cases h), World.after_workRefs]
    constructor
    · intro hr
      obtain ⟨hr, hoffered⟩ := (h.taken r).mp hr
      rw [hheap r hr]
      exact ⟨(hlt r).mpr (Or.inl hr), (hmark _ _).mpr (Or.inl hoffered)⟩
    · rintro ⟨hr, hoffered⟩
      rcases (hlt r).mp hr with hr | rfl
      · rw [hheap r hr, hmark] at hoffered
        exact (h.taken r).mpr ⟨hr, by simpa using hoffered⟩
      · rw [hnew, hmark, hm] at hoffered
        simp at hoffered
  · intro r hr
    simp only [World.after_works, hmark, reduceCtorEq, and_false, or_false]
    rcases (hlt r).mp hr with hr | rfl
    · rw [hheap r hr]
      exact h.flag r hr
    · rw [hnew]
      refine iff_of_false (by simp [hdown]) ?_
      rintro ⟨j, hj, -⟩
      exact Nat.lt_irrefl _ (h.works_taken hj).1
  · intro j r was hj
    rw [hw.calls]
    exact h.found j r was (by simpa [hmark] using hj)

theorem schedule (h : Flow w) {task : Task} {taken : Bool}
    (hx : w.Answers (.schedule task) taken)
    (hnext : Next op (w.marks i) (.offered task.ref taken)) :
    Flow (w.after i (.schedule task) taken) := by
  have hw := w.after_changes i (.schedule task) taken
  have hinsert : ∀ t, RtCall.schedule task ≠ .insert t := fun _ h => by cases h
  have hm := hnext.offered_inv
  obtain ⟨hr, hmaker⟩ := h.made i task.ref true (by rw [hm]; simp)
  have hmark : ∀ j (k : Mark), k ∈ (w.after i (.schedule task) taken).marks j ↔
      k ∈ w.marks j ∨ j = i ∧ .offered task.ref taken = k := fun j k => by
    rw [World.mem_after_marks]
    simp [mark]
  have hnot : task.ref ∉ w.scheduler.tasks.map Task.ref ++ w.workRefs := fun hmem => by
    have := ((h.taken _).mp hmem).2
    rw [hmaker, hm] at this
    simp at this
  have hperm : List.Perm ((w.after i (.schedule task) taken).scheduler.tasks.map Task.ref)
      ((if taken then [task.ref] else []) ++ w.scheduler.tasks.map Task.ref) := by
    have hsched : (w.after i (.schedule task) taken).scheduler = (w.scheduler.submit task).2 := rfl
    obtain rfl := hx.schedule
    rw [hsched]
    cases hsub : w.scheduler.submit task with
    | mk accepted queue =>
    cases accepted with
    | false =>
        obtain rfl := Scheduler.submit_false hsub
        exact List.Perm.refl _
    | true => exact (Scheduler.submit_tasks hsub).map Task.ref
  have hperm := hperm.append_right w.workRefs
  rw [List.append_assoc] at hperm
  constructor
  · simpa [hmark, hw.next hinsert, World.after_maker hinsert] using h.made
  · simpa [hmark, hw.next hinsert, World.after_maker hinsert] using h.maker
  · rw [World.after_workRefs, hperm.nodup_iff]
    cases taken with
    | false => exact h.once
    | true => exact List.nodup_cons.mpr ⟨hnot, h.once⟩
  · intro r
    rw [World.after_workRefs, hperm.mem_iff, hw.next hinsert, World.after_maker hinsert, hmark,
      List.mem_append, h.taken r]
    cases taken with
    | false => simp
    | true =>
        constructor
        · rintro (hmem | ⟨hr, hoffered⟩)
          · obtain rfl := List.mem_singleton.mp hmem
            exact ⟨hr, Or.inr ⟨hmaker, rfl⟩⟩
          · exact ⟨hr, Or.inl hoffered⟩
        · rintro ⟨hr, hoffered | ⟨-, hk⟩⟩
          · exact Or.inr ⟨hr, hoffered⟩
          · cases hk
            exact Or.inl (List.mem_singleton.mpr rfl)
  · intro r hr
    rw [World.after_started hinsert (fun h => by cases h) (fun h => by cases h)]
    simp only [World.after_works, hmark, reduceCtorEq, and_false, or_false]
    exact h.flag r (hw.next hinsert ▸ hr)
  · intro j r was hj
    rw [hw.calls]
    exact h.found j r was (by simpa [hmark] using hj)

/-- The two calls that move the flag of a record. -/
theorem moveFlag (h : Flow w) (k : Mark) (hk : mark ⟨c, x⟩ = some k)
    (hc : c = .storeStarted r ∨ c = .exchangeStarted r)
    (hflag : ((w.after i c x).heap r).started = true ↔ ∃ j, w.Works j r ∧
      .stored r ∈ (w.after i c x).marks j ∧ ∀ was, .exchanged r was ∉ (w.after i c x).marks j)
    (hfound : ∀ was, k = .exchanged r was →
      (was = true ↔ ∃ task, w.calls[i]? = some (.work task))) :
    Flow (w.after i c x) := by
  have hw := w.after_changes i c x
  have hinsert : ∀ t, c ≠ .insert t := by rcases hc with rfl | rfl <;> exact fun _ h => by cases h
  have hschedule : ∀ t, c ≠ .schedule t := by
    rcases hc with rfl | rfl <;> exact fun _ h => by cases h
  have hkr : k = .stored r ∨ ∃ was, k = .exchanged r was := by
    rcases hc with rfl | rfl <;> cases hk <;> simp
  have hmark : ∀ j k', k' ∈ (w.after i c x).marks j ↔ k' ∈ w.marks j ∨ j = i ∧ k = k' :=
    fun j k' => by rw [World.mem_after_marks, hk, Option.some_inj]
  have hmade : ∀ j r b, .made r b ∈ (w.after i c x).marks j ↔ .made r b ∈ w.marks j := by
    intro j r b
    rcases hkr with rfl | ⟨was, rfl⟩ <;> simp [hmark]
  have hoffered : ∀ j r b, .offered r b ∈ (w.after i c x).marks j ↔ .offered r b ∈ w.marks j := by
    intro j r b
    rcases hkr with rfl | ⟨was, rfl⟩ <;> simp [hmark]
  constructor
  · simpa only [hmade, hw.next hinsert, World.after_maker hinsert] using h.made
  · simpa only [hmade, hw.next hinsert, World.after_maker hinsert] using h.maker
  · simpa only [hw.tasks hschedule, World.after_workRefs] using h.once
  · simpa only [hw.tasks hschedule, World.after_workRefs, hw.next hinsert,
      World.after_maker hinsert, hoffered] using h.taken
  · intro r' hr'
    simp only [World.after_works]
    by_cases hrr : r' = r
    · subst hrr
      exact hflag
    · have hne : c ≠ .storeStarted r' ∧ c ≠ .exchangeStarted r' := by
        rcases hc with rfl | rfl <;> simp [Ne.symm hrr]
      rw [World.after_started hinsert hne.1 hne.2, h.flag r' (hw.next hinsert ▸ hr')]
      rcases hkr with rfl | ⟨was, rfl⟩ <;> simp [hmark, Ne.symm hrr]
  · intro j r' was hj
    rw [hw.calls]
    rcases (hmark j _).mp hj with hj | ⟨rfl, rfl⟩
    · exact h.found j r' was hj
    · rcases hkr with hkr | ⟨was', hkr⟩ <;> cases hkr
      exact hfound _ rfl

theorem store (h : Flow w) (hop : w.calls[i]? = some op) (hnext : Next op (w.marks i) (.stored r)) :
    Flow (w.after i (.storeStarted r) ()) := by
  obtain ⟨href, hm⟩ := hnext.stored_inv
  refine h.moveFlag (.stored r) rfl (Or.inl rfl) ?_ fun was hk => by cases hk
  refine iff_of_true ?_ ⟨i, (World.works_call hop).mpr href, ?_, fun was => ?_⟩
  · rw [(w.after_changes i (.storeStarted r) ()).heap fun _ h => by cases h]
    simp [RtCall.edits, RtCall.edit]
  · rw [World.mem_after_marks]
    exact Or.inr ⟨rfl, rfl⟩
  · rw [World.mem_after_marks, hm]
    simp [mark]

theorem exchange (h : Flow w) {was : Bool} (hx : w.Answers (.exchangeStarted r) was)
    (hop : w.calls[i]? = some op) (hnext : Next op (w.marks i) (.exchanged r was)) :
    Flow (w.after i (.exchangeStarted r) was) := by
  have hdown : ((w.after i (.exchangeStarted r) was).heap r).started = false := by
    rw [(w.after_changes i (.exchangeStarted r) was).heap fun _ h => by cases h]
    simp [RtCall.edits, RtCall.edit]
  rcases hnext.exchanged_inv with ⟨href, hm⟩ | ⟨href, hmade, hoffered⟩
  · -- the worker that raised the flag lowers it
    have hi := (World.works_call hop).mpr href
    refine h.moveFlag (.exchanged r was) rfl (Or.inr rfl) (iff_of_false (by simp [hdown]) ?_) ?_
    · rintro ⟨j, hj, -, hnone⟩
      obtain rfl := h.works_unique hi hj
      exact hnone was (World.mem_after_marks.mpr (Or.inr ⟨rfl, rfl⟩))
    · rintro was' ⟨⟩
      obtain ⟨p, hwork⟩ := World.works_iff.mp hi
      refine iff_of_true ?_ ⟨_, hwork⟩
      rw [hx.exchangeStarted, h.flag r (h.works_taken hi).1]
      exact ⟨i, hi, by simp [hm], by simp [hm]⟩
  · -- nobody has raised it
    obtain ⟨hr, hmaker⟩ := h.made i r true hmade
    have hnone : ∀ j, ¬ w.Works j r := fun j hj => hoffered (hmaker ▸ (h.works_taken hj).2)
    refine h.moveFlag (.exchanged r was) rfl (Or.inr rfl) (iff_of_false (by simp [hdown]) ?_) ?_
    · rintro ⟨j, hj, -⟩
      exact hnone j hj
    · rintro was' ⟨⟩
      refine iff_of_false ?_ ?_
      · rw [hx.exchangeStarted, h.flag_down hr (hmaker ▸ hoffered)]
        exact Bool.false_ne_true
      · rintro ⟨task, hwork⟩
        obtain rfl := Option.some.inj (hop.symm.trans hwork)
        cases href

theorem act (h : Flow w) (hx : w.Answers c x) (hop : w.calls[i]? = some op)
    (hnext : ∀ k, mark ⟨c, x⟩ = some k → Next op (w.marks i) k) : Flow (w.after i c x) := by
  cases c with
  | insert t =>
      obtain rfl := hx.insert
      exact h.insert (hnext _ rfl)
  | schedule task => exact h.schedule hx (hnext _ rfl)
  | storeStarted r => exact h.store hop (hnext _ rfl)
  | exchangeStarted r => exact h.exchange hx hop (hnext _ rfl)
  | _ => exact h.plain (by constructor <;> exact fun _ h => by cases h)

/-- A thread starts, with the task it was given if it is a worker. -/
theorem start (h : Flow w) (hheap : w'.heap = w.heap) (hnext : w'.next = w.next)
    (hpast : w'.past = w.past) (hcalls : w'.calls = w.calls ++ [op])
    (hsilent : ∀ i ≥ w.calls.length, w.past i = [])
    (hperm : List.Perm (w.scheduler.tasks.map Task.ref)
      (op.workRef.toList ++ w'.scheduler.tasks.map Task.ref)) : Flow w' := by
  have hmarks : w'.marks = w.marks := funext fun i => by unfold World.marks; rw [hpast]
  have hrefs : w'.workRefs = w.workRefs ++ op.workRef.toList := by
    unfold World.workRefs
    rw [hcalls, List.filterMap_append]
    cases hop : op.workRef <;> simp [hop]
  have hall : List.Perm (w'.scheduler.tasks.map Task.ref ++ w'.workRefs)
      (w.scheduler.tasks.map Task.ref ++ w.workRefs) := by
    rw [hrefs]
    exact (List.perm_append_comm_assoc _ _ _).trans ((List.Perm.append_left _
      (List.perm_append_comm.trans hperm.symm)).trans List.perm_append_comm)
  have hold : ∀ i k, k ∈ w.marks i → w'.calls[i]? = w.calls[i]? := fun i k hk => by
    rw [hcalls, List.getElem?_append_left]
    by_contra hge
    rw [World.marks, hsilent i (Nat.le_of_not_lt hge)] at hk
    cases hk
  constructor
  · rw [hmarks, hnext, hheap]
    exact h.made
  · rw [hmarks, hnext, hheap]
    exact h.maker
  · exact hall.nodup_iff.mpr h.once
  · intro r
    rw [hall.mem_iff, hmarks, hnext, hheap]
    exact h.taken r
  · intro r hr
    rw [hheap, h.flag r (hnext ▸ hr), hmarks]
    refine exists_congr fun i => and_congr_left fun hi => ?_
    unfold World.Works
    rw [hold i _ hi.1]
  · intro i r was hi
    rw [hmarks] at hi
    rw [hold i _ hi]
    exact h.found i r was hi

end Flow

namespace Runtime

variable {rt : Runtime} {σ σ' : System} {i : Tid} {op : Op}

theorem Reaches.begun (h : rt.Reaches σ) (hop : σ.world.calls[i]? = some op) :
    ∃ q, σ.threads[i]? = some q ∧
      Notes mark q (fun _ => Script op) (σ.world.marks i) := by
  obtain ⟨q, hq⟩ := h.thread hop
  exact ⟨q, hq, (notes_program op).follows (h.follows hop hq)⟩

/-- What a thread has shown is the beginning of a script. -/
theorem Reaches.script (h : rt.Reaches σ) (hop : σ.world.calls[i]? = some op) :
    ∃ rest, Script op (σ.world.marks i ++ rest) := by
  obtain ⟨q, -, hnotes⟩ := h.begun hop
  obtain ⟨-, rest, hscript⟩ := hnotes.completes
  exact ⟨rest, hscript⟩

/-- A thread that has returned has shown a whole script. -/
theorem Reaches.whole (h : rt.Reaches σ) (hop : σ.world.calls[i]? = some op)
    (hret : (Runtime.returned σ i).isSome = true) : Script op (σ.world.marks i) := by
  obtain ⟨q, hq, hnotes⟩ := h.begun hop
  obtain ⟨res, hres⟩ := Option.isSome_iff_exists.mp hret
  obtain rfl := Option.some.inj (hq.symm.trans (returned_eq hres))
  exact hnotes

theorem Reaches.next {c : RtCall} {next : RtAnswer c → Prog RtSig Result} (h : rt.Reaches σ)
    (hi : σ.threads[i]? = some (.call c next)) :
    ∃ op, σ.world.calls[i]? = some op ∧
      ∀ (x : RtAnswer c) k, mark ⟨c, x⟩ = some k → Next op (σ.world.marks i) k := by
  obtain ⟨op, hop⟩ := h.called hi
  refine ⟨op, hop, fun x k hk => ?_⟩
  obtain ⟨q, hq, hnotes⟩ := h.begun hop
  obtain rfl := Option.some.inj (hq.symm.trans hi)
  obtain ⟨-, rest, hscript⟩ := Notes.completes (hnotes.2 x _ rfl)
  rw [hk] at hscript
  simp only [Option.toList_some, List.append_assoc, List.singleton_append] at hscript
  exact hscript.next

theorem Reaches.flow (h : rt.Reaches σ) : Flow σ.world := by
  induction h with
  | refl =>
      have hnone : rt.start.world.scheduler.tasks.map Task.ref ++ rt.start.world.workRefs = [] := by
        simp [start, initial, Scheduler.tasks, World.workRefs]
      exact ⟨fun _ _ _ h => (by cases h), fun _ h => absurd h (Nat.not_lt_zero _), List.nodup_nil,
        fun r => iff_of_false (by simp [hnone]) fun h => (by cases h.1),
        fun _ h => absurd h (Nat.not_lt_zero _), fun _ _ _ h => (by cases h)⟩
  | @tail σ₁ σ₂ hrun hstep ih =>
      have hreach : rt.Reaches σ₁ := hrun
      cases hstep with
      | @act i c next x w' hi he =>
          obtain ⟨hx, rfl⟩ := he
          obtain ⟨op, hop, hnext⟩ := hreach.next hi
          exact ih.act hx hop (hnext x)
      | start hs =>
          have hsilent : ∀ i ≥ σ₁.world.calls.length, σ₁.world.past i = [] := fun i hi =>
            hreach.kept.silent i (hreach.calls_length ▸ hi)
          cases hs with
          | call op hop =>
              refine ih.start rfl rfl rfl rfl hsilent ?_
              cases op with
              | work t => exact absurd rfl (hop t)
              | _ => exact List.Perm.refl _
          | task hdepth hbusy hpop =>
              exact ih.start rfl rfl rfl rfl hsilent ((Scheduler.pop_tasks hpop).map Task.ref)

end Runtime

end TransferFabric
