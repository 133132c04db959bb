import TransferFabric.Runtime.RecordEdits

/-!
What one call changes in the shared world and in the caller's view, part by part.
Every later proof uses these facts and never the definitions of the effects.
-/

namespace TransferFabric

open Interaction

namespace World

variable {w w' w'' : World} {i : Tid} {c : RtCall}

/-- The counters of the lifecycle. -/
def counters (w : World) : UInt64 × UInt64 × UInt64 × UInt64 :=
  (w.telemetry.created, w.telemetry.completed, w.telemetry.failed, w.telemetry.cancelled)

/-- What a call leaves alone, among the parts that the threads' views speak about. -/
structure Unshared (w w' : World) (c : RtCall) : Prop where
  calls : w'.calls = w.calls
  past : w'.past = w.past
  heap : (∀ t, c ≠ .insert t) → w'.heap = w.heap
  next : (∀ t, c ≠ .insert t) → w'.next = w.next
  transfers : (∀ t, c ≠ .insert t) → w'.transfers = w.transfers
  cancel : (∀ r, c ≠ .storeCancel r) → w'.cancel = w.cancel
  tasks : (∀ t, c ≠ .schedule t) → w'.scheduler.tasks = w.scheduler.tasks
  counters : (∀ op, c ≠ .count op) → w'.counters = w.counters

/-- Two worlds that differ in pools, endpoints and the ledger of buffers at most. -/
structure Frame (w w' : World) : Prop where
  transfers : w'.transfers = w.transfers
  heap : w'.heap = w.heap
  next : w'.next = w.next
  cancel : w'.cancel = w.cancel
  scheduler : w'.scheduler = w.scheduler
  telemetry : w'.telemetry = w.telemetry
  calls : w'.calls = w.calls
  past : w'.past = w.past

theorem Frame.trans (h : w.Frame w') (h' : w'.Frame w'') : w.Frame w'' :=
  ⟨h'.transfers.trans h.transfers, h'.heap.trans h.heap, h'.next.trans h.next,
    h'.cancel.trans h.cancel, h'.scheduler.trans h.scheduler, h'.telemetry.trans h.telemetry,
    h'.calls.trans h.calls, h'.past.trans h.past⟩

theorem Frame.unshared (h : w.Frame w') (c : RtCall) : w.Unshared w' c :=
  ⟨h.calls, h.past, fun _ => h.heap, fun _ => h.next, fun _ => h.transfers, fun _ => h.cancel,
    fun _ => by rw [h.scheduler], fun _ => by unfold World.counters; rw [h.telemetry]⟩

theorem setPool_frame (w : World) (k : PoolKind) (p : StagingPool) : w.Frame (w.setPool k p) := by
  unfold setPool
  split_ifs <;> exact ⟨rfl, rfl, rfl, rfl, rfl, rfl, rfl, rfl⟩

theorem takeHold_frame (w : World) (r : Ref) (k : PoolKind) (b : StagingBuffer) :
    w.Frame (w.takeHold r k b) := by
  unfold takeHold
  split_ifs <;> exact ⟨rfl, rfl, rfl, rfl, rfl, rfl, rfl, rfl⟩

theorem giveBack_frame (w : World) (r : Ref) (k : PoolKind) (b : StagingBuffer) :
    w.Frame (w.giveBack r k b) := by
  refine (w.setPool_frame k ((w.pool k).release b)).trans ?_
  unfold giveBack
  dsimp only
  split_ifs <;> exact ⟨rfl, rfl, rfl, rfl, rfl, rfl, rfl, rfl⟩

theorem share_unshared (w : World) (i : Tid) (x : RtAnswer c) : w.Unshared (w.share i c x) c := by
  have hrefl : w.Frame w := ⟨rfl, rfl, rfl, rfl, rfl, rfl, rfl, rfl⟩
  cases c with
  | insert t =>
      exact ⟨rfl, rfl, fun h => absurd rfl (h t), fun h => absurd rfl (h t),
        fun h => absurd rfl (h t), fun _ => rfl, fun _ => rfl, fun _ => rfl⟩
  | storeCancel r =>
      exact ⟨rfl, rfl, fun _ => rfl, fun _ => rfl, fun _ => rfl, fun h => absurd rfl (h r),
        fun _ => rfl, fun _ => rfl⟩
  | schedule t =>
      exact ⟨rfl, rfl, fun _ => rfl, fun _ => rfl, fun _ => rfl, fun _ => rfl,
        fun h => absurd rfl (h t), fun _ => rfl⟩
  | count op =>
      exact ⟨rfl, rfl, fun _ => rfl, fun _ => rfl, fun _ => rfl, fun _ => rfl, fun _ => rfl,
        fun h => absurd rfl (h op)⟩
  | allocate r k bytes =>
      cases x with
      | none => exact hrefl.unshared _
      | some b => exact ((setPool_frame w k _).trans (takeHold_frame _ r k b)).unshared _
  | release r k b => exact (giveBack_frame w r k b).unshared _
  | drain k => exact (setPool_frame w k _).unshared _
  | exec r ec =>
      cases ec with
      | release k b => exact (giveBack_frame w r k b).unshared _
      | stagingPoolHit hit =>
          cases hit <;> exact ⟨rfl, rfl, fun _ => rfl, fun _ => rfl, fun _ => rfl, fun _ => rfl,
            fun _ => rfl, fun _ => rfl⟩
      | _ => exact hrefl.unshared _
  | _ =>
      exact ⟨rfl, rfl, fun _ => rfl, fun _ => rfl, fun _ => rfl, fun _ => rfl, fun _ => rfl,
        fun _ => rfl⟩

/-- A call writes to one record at most. -/
theorem rewrite_heap (w : World) (x : RtAnswer c) (r : Ref) :
    (w.rewrite c x).heap r = if c.edits = some r then c.edit (w.heap r) x else w.heap r := by
  unfold rewrite
  cases hc : c.edits with
  | none => rfl
  | some r' =>
      by_cases hr : r' = r
      · subst hr
        simp
      · rw [if_neg (by simpa using hr)]
        exact Function.update_of_ne (Ne.symm hr) _ _

/-- What a call changes, among the parts that the threads' views speak about. -/
structure Changes (w w' : World) (i : Tid) (c : RtCall) (x : RtAnswer c) : Prop where
  calls : w'.calls = w.calls
  past : w'.past = Function.update w.past i (w.past i ++ [⟨c, x⟩])
  heap : (∀ t, c ≠ .insert t) → ∀ r,
    w'.heap r = if c.edits = some r then c.edit (w.heap r) x else w.heap r
  next : (∀ t, c ≠ .insert t) → w'.next = w.next
  transfers : (∀ t, c ≠ .insert t) → w'.transfers = w.transfers
  cancel : (∀ r, c ≠ .storeCancel r) → w'.cancel = w.cancel
  tasks : (∀ t, c ≠ .schedule t) → w'.scheduler.tasks = w.scheduler.tasks
  counters : (∀ op, c ≠ .count op) → w'.counters = w.counters

/-- The records and the history are kept beside what the threads share. -/
theorem after_eq_share (w : World) (i : Tid) (c : RtCall) (x : RtAnswer c) :
    ∃ heap past, w.after i c x = { w.share i c x with heap := heap, past := past } := by
  unfold after rewrite
  cases c.edits with
  | none => exact ⟨_, _, rfl⟩
  | some r => exact ⟨_, _, rfl⟩

theorem after_changes (w : World) (i : Tid) (c : RtCall) (x : RtAnswer c) :
    w.Changes (w.after i c x) i c x := by
  have h := share_unshared w i x
  obtain ⟨heap, past, heq⟩ := w.after_eq_share i c x
  refine ⟨?_, ?_, fun hc r => ?_, fun hc => ?_, fun hc => ?_, fun hc => ?_, fun hc => ?_, fun hc => ?_⟩
  · rw [heq]
    exact h.calls
  · have : ((w.share i c x).rewrite c x).past = w.past := by
      rw [← h.past]
      unfold rewrite
      cases c.edits <;> rfl
    unfold after log
    rw [this]
  · rw [← h.heap hc]
    exact rewrite_heap _ x r
  · rw [heq]
    exact h.next hc
  · rw [heq]
    exact h.transfers hc
  · rw [heq]
    exact h.cancel hc
  · rw [heq]
    exact h.tasks hc
  · rw [heq]
    exact h.counters hc

theorem mem_after_past {j : Tid} {x : RtAnswer c} {ev : RtEvent} :
    ev ∈ (w.after i c x).past j ↔ ev ∈ w.past j ∨ j = i ∧ ev = ⟨c, x⟩ := by
  rw [(w.after_changes i c x).past, Function.update_apply]
  split_ifs with hj
  · subst hj
    simp
  · simp [hj]

/-- A record that is made leaves the others as they are. -/
theorem insert_heap_lt (i : Tid) (t : Transfer) {r : Ref} (hr : r < w.next) :
    (w.after i (.insert t) w.next).heap r = w.heap r :=
  Function.update_of_ne (Nat.ne_of_lt hr) _ _

theorem insert_heap_next (w : World) (i : Tid) (t : Transfer) :
    (w.after i (.insert t) w.next).heap w.next = { t with maker := i } :=
  Function.update_self _ _ _

/-- Calls that do not count leave the counters alone, but for the one of the staging pools. -/
theorem after_telemetry (x : RtAnswer c) (hc : ∀ op, c ≠ .count op) :
    (w.after i c x).telemetry = w.telemetry ∨
      ∃ hit, (w.after i c x).telemetry = w.telemetry.apply (.stagingPoolHit hit) := by
  obtain ⟨heap, past, heq⟩ := w.after_eq_share i c x
  rw [heq]
  cases c with
  | count op => exact absurd rfl (hc op)
  | allocate r k bytes =>
      cases x with
      | none => exact Or.inl rfl
      | some b => exact Or.inl ((setPool_frame w k _).trans (takeHold_frame _ r k b)).telemetry
  | release r k b => exact Or.inl (giveBack_frame w r k b).telemetry
  | drain k => exact Or.inl (setPool_frame w k _).telemetry
  | exec r ec =>
      cases ec with
      | release k b => exact Or.inl (giveBack_frame w r k b).telemetry
      | stagingPoolHit hit => exact Or.inr ⟨hit, rfl⟩
      | _ => exact Or.inl rfl
  | _ => exact Or.inl rfl

/-- The environment may answer the call so. -/
def Answers (w : World) (c : RtCall) (x : RtAnswer c) : Prop := ∃ ch, w.answer ch c = some x

theorem Answers.insert {t : Transfer} {x : Ref} (h : w.Answers (.insert t) x) : x = w.next := by
  obtain ⟨ch, h⟩ := h
  exact (Option.some.inj h).symm

theorem Answers.find {id : TransferId} {x : Option Ref} (h : w.Answers (.find id) x) :
    x = w.transfers id := by
  obtain ⟨ch, h⟩ := h
  exact (Option.some.inj h).symm

theorem Answers.load {r : Ref} {x : Transfer} (h : w.Answers (.load r) x) : x = w.heap r := by
  obtain ⟨ch, h⟩ := h
  exact (Option.some.inj h).symm

theorem Answers.awaitTerminal {r : Ref} {s : TransferState} (h : w.Answers (.awaitTerminal r) s) :
    s = (w.heap r).state ∧ s.isTerminal = true := by
  obtain ⟨ch, h⟩ := h
  have h : (if (w.heap r).settled then some (w.heap r).state else none) = some s := h
  split_ifs at h with hs
  obtain rfl := Option.some.inj h
  unfold Transfer.settled at hs
  simp only [decide_eq_true_eq] at hs
  exact ⟨rfl, hs.2⟩

theorem Answers.schedule {t : Task} {x : Bool} (h : w.Answers (.schedule t) x) :
    x = (w.scheduler.submit t).1 := by
  obtain ⟨ch, h⟩ := h
  exact (Option.some.inj h).symm

theorem Answers.loadCancel {r : Ref} {x : Bool} (h : w.Answers (.exec r .loadCancel) x) :
    x = w.cancel r := by
  obtain ⟨ch, h⟩ := h
  exact (Option.some.inj h).symm

end World

namespace View

variable {m : View} {c : RtCall}

/-- What a call changes in the caller's view, the buffers apart. -/
structure Changes (m m' : View) (c : RtCall) (x : RtAnswer c) : Prop where
  me : m'.me = m.me
  op : m'.op = m.op
  looked : m'.looked = m.looked ++ lookups [⟨c, x⟩]
  awaited : m'.awaited = m.awaited ++ waits [⟨c, x⟩]
  raised : m'.raised = m.raised ++ raises [⟨c, x⟩]
  made : (∀ t, c ≠ .insert t) → m'.made = m.made
  own : (∀ t, c ≠ .insert t) → (∀ t, c ≠ .schedule t) →
    m'.own = m.own.map fun p => if c.edits = some p.1 then (p.1, c.edit p.2 x) else p
  handed : (∀ t, c ≠ .schedule t) → m'.handed = m.handed
  closed : (∀ r s e, c ≠ .setTerminal r s e) → m'.closed = m.closed
  created : (∀ op, c ≠ .count op) → m'.created = m.created
  counted : (∀ op, c ≠ .count op) → m'.counted = m.counted

/-- Calls other than the two that make a record and give it away move no record, and
what is written to a record is written to the view of it. -/
theorem Changes.own_back {m' : View} {x : RtAnswer c} (h : m.Changes m' c x)
    (hc : ∀ t, c ≠ .insert t) (hs : ∀ t, c ≠ .schedule t) {r : Ref} {t : Transfer}
    (hr : m'.own = some (r, t)) :
    ∃ t', m.own = some (r, t') ∧ t = if c.edits = some r then c.edit t' x else t' := by
  rw [h.own hc hs] at hr
  obtain ⟨⟨r', t'⟩, hr', heq⟩ := Option.map_eq_some_iff.mp hr
  dsimp only at heq
  split_ifs at heq with hedits
  · obtain ⟨rfl, rfl⟩ := Prod.mk.inj heq
    exact ⟨t', hr', (if_pos hedits).symm⟩
  · obtain ⟨rfl, rfl⟩ := Prod.mk.inj heq
    exact ⟨t', hr', (if_neg hedits).symm⟩

theorem Changes.own_forth {m' : View} {x : RtAnswer c} (h : m.Changes m' c x)
    (hc : ∀ t, c ≠ .insert t) (hs : ∀ t, c ≠ .schedule t) {r : Ref} {t : Transfer}
    (hr : m.own = some (r, t)) : ∃ t', m'.own = some (r, t') := by
  rw [h.own hc hs, hr, Option.map_some]
  split_ifs
  · exact ⟨_, rfl⟩
  · exact ⟨_, rfl⟩

/-- A call that is not written down leaves only its edit. -/
theorem edit_changes (m : View) (x : RtAnswer c) (hlookups : lookups [⟨c, x⟩] = [])
    (hwaits : waits [⟨c, x⟩] = []) (hraises : raises [⟨c, x⟩] = [])
    {m' : View} (hm : ∃ bufs, m' = { m.edit c x with bufs := bufs }) : m.Changes m' c x := by
  obtain ⟨bufs, rfl⟩ := hm
  exact ⟨rfl, rfl, by rw [hlookups, List.append_nil]; rfl, by rw [hwaits, List.append_nil]; rfl,
    by rw [hraises, List.append_nil]; rfl, fun _ => rfl, fun _ _ => rfl, fun _ => rfl,
    fun _ => rfl, fun _ => rfl, fun _ => rfl⟩

theorem dropBuf_bufs (m : View) (k : PoolKind) (b : StagingBuffer) :
    ∃ bufs, m.dropBuf k b = { m with bufs := bufs } := by
  unfold dropBuf
  split_ifs
  · exact ⟨m.bufs, rfl⟩
  · exact ⟨_, rfl⟩

theorem takeBuf_bufs (m : View) (k : PoolKind) (b : StagingBuffer) :
    ∃ bufs, m.takeBuf k b = { m with bufs := bufs } := by
  unfold takeBuf
  split_ifs
  · exact ⟨m.bufs, rfl⟩
  · exact ⟨_, rfl⟩

theorem after_changes (m : View) (c : RtCall) (x : RtAnswer c) : m.Changes (m.after c x) c x := by
  have hnil : ∀ {α : Type} (l : List α), l = l ++ [] := fun l => (List.append_nil l).symm
  cases c with
  | insert t =>
      exact ⟨rfl, rfl, hnil _, hnil _, hnil _, fun h => absurd rfl (h t),
        fun h => absurd rfl (h t), fun _ => rfl, fun _ => rfl, fun _ => rfl, fun _ => rfl⟩
  | find id =>
      exact ⟨rfl, rfl, rfl, hnil _, hnil _, fun _ => rfl, fun _ _ => rfl, fun _ => rfl, fun _ => rfl,
        fun _ => rfl, fun _ => rfl⟩
  | awaitTerminal r =>
      exact ⟨rfl, rfl, hnil _, rfl, hnil _, fun _ => rfl, fun _ _ => rfl, fun _ => rfl, fun _ => rfl,
        fun _ => rfl, fun _ => rfl⟩
  | storeCancel r =>
      exact ⟨rfl, rfl, hnil _, hnil _, rfl, fun _ => rfl, fun _ _ => rfl, fun _ => rfl, fun _ => rfl,
        fun _ => rfl, fun _ => rfl⟩
  | setTerminal r s e =>
      exact ⟨rfl, rfl, hnil _, hnil _, hnil _, fun _ => rfl, fun _ _ => rfl, fun _ => rfl,
        fun h => absurd rfl (h r s e), fun _ => rfl, fun _ => rfl⟩
  | count op =>
      show m.Changes (noteCount _ op) _ _
      unfold noteCount
      split_ifs <;> exact ⟨rfl, rfl, hnil _, hnil _, hnil _, fun _ => rfl, fun _ _ => rfl,
        fun _ => rfl, fun _ => rfl, fun h => absurd rfl (h op), fun h => absurd rfl (h op)⟩
  | schedule t =>
      cases x <;> exact ⟨rfl, rfl, hnil _, hnil _, hnil _, fun _ => rfl,
        fun _ h => absurd rfl (h t), fun h => absurd rfl (h t), fun _ => rfl, fun _ => rfl,
        fun _ => rfl⟩
  | allocate r k bytes =>
      refine edit_changes m x rfl rfl rfl ?_
      cases x with
      | none => exact ⟨m.bufs, rfl⟩
      | some b => exact takeBuf_bufs _ k b
  | release r k b => exact edit_changes m x rfl rfl rfl (dropBuf_bufs _ k b)
  | exec r ec =>
      cases ec with
      | release k b => exact edit_changes m x rfl rfl rfl (dropBuf_bufs _ k b)
      | _ => exact edit_changes m x rfl rfl rfl ⟨m.bufs, rfl⟩
  | _ => exact edit_changes m x rfl rfl rfl ⟨m.bufs, rfl⟩

end View

end TransferFabric
