import TransferFabric.Runtime.StagingSpecs

/-!
The calls of the facade, verified from the view of the thread that makes them: a
submission keeps its record in hand until the scheduler takes it or it has
ended it, and no other call touches a record beyond looking at it and raising
its cancellation flag.
-/

namespace TransferFabric

open Interaction

variable {rt : Runtime} {careful : Prop} {m : View} {r : Ref} {t : Transfer}

/-! The end of a transfer. -/

theorem outcomeOps_cases (t : Transfer) (e : Error) :
    ∃ op rest, t.outcomeOps e = op :: rest ∧ op ≠ .transferCreated ∧
      op.outcome = some (terminalFor e) ∧ ∀ o ∈ rest, TelemetryOp.Plain o := by
  unfold Transfer.outcomeOps terminalFor
  by_cases hok : e.ok
  · rw [if_pos hok, if_pos hok]
    split_ifs
    all_goals refine ⟨_, _, rfl, by simp, rfl, ?_⟩
    all_goals simp [TelemetryOp.Plain, TelemetryOp.outcome, or_imp, forall_and]
  · rw [if_neg hok, if_neg hok]
    split_ifs
    · exact ⟨_, _, rfl, by simp, rfl, by simp [TelemetryOp.Plain, TelemetryOp.outcome]⟩
    · refine ⟨_, _, rfl, by simp, rfl, ?_⟩
      cases e.category <;> simp [TelemetryOp.Plain, TelemetryOp.outcome]

theorem keeps_countAll {ops : List TelemetryOp} {Q : Unit → View → Prop}
    (hops : ∀ op ∈ ops, op.Plain) (hQ : Q () m) : Keeps rt careful (countAll ops) Q m := by
  induction ops with
  | nil => exact hQ
  | cons op ops ih =>
      exact keeps_bind (keeps_count (hops op List.mem_cons_self)
        (ih fun o ho => hops o (List.mem_cons_of_mem _ ho)))

theorem keeps_countOutcome {op : TelemetryOp} {s : TransferState} {Q : Unit → View → Prop}
    (hne : op ≠ .transferCreated) (hop : op.outcome = some s) (hcounted : m.counted = none)
    (hclosed : m.closed = some s) (hQ : Q () { m with counted := some s }) :
    Keeps rt careful (ask (.count op)) Q m := by
  have hlearn : m.noteCount op = { m with counted := some s } := by
    simp [View.noteCount, hne, hop]
  refine keeps_ask ?_ fun x _ => ?_
  · show if op = .transferCreated then _ else _
    rw [if_neg hne, hop]
    exact fun _ => ⟨hcounted, hclosed⟩
  · rw [View.after, View.edit_none x rfl]
    show Q () (m.noteCount op)
    rwa [hlearn]

theorem keeps_setTerminal {s : TransferState} {e : Error} {Q : Unit → View → Prop}
    (hown : m.own = some (r, t)) (hlive : t.state.isTerminal = false) (hends : t.Ends rt s)
    (hclosed : m.closed = none)
    (hQ : Q () { m with own := some (r, t.setTerminal s e), closed := some s }) :
    Keeps rt careful (ask (.setTerminal r s e)) Q m := by
  refine keeps_ask ⟨⟨t, hown, hlive, hends⟩, hclosed⟩ fun x _ => ?_
  rw [View.after, View.edit_own x hown rfl]
  exact hQ

theorem setTerminal_live {s : TransferState} {e : Error} (hlive : t.state.isTerminal = false) :
    t.setTerminal s e =
      { t with status := { t.status with state := s, error := e }, notified := true } := by
  unfold Transfer.setTerminal
  rw [hlive]
  rfl

theorem keeps_finalize {e : Error} {Q : Unit → View → Prop} (hown : m.own = some (r, t))
    (hlive : t.state.isTerminal = false) (hends : t.Ends rt (terminalFor e))
    (hclosed : m.closed = none) (hcounted : m.counted = none)
    (hheld : careful → m.bufs.Perm t.staged)
    (hQ : ∀ t' left, t'.state = terminalFor e → (careful → left = []) →
      Q () { m with own := some (r, t'), closed := some (terminalFor e),
                    counted := some (terminalFor e), bufs := left }) :
    Keeps rt careful (finalize r e) Q m := by
  refine keeps_bind (keeps_setTerminal hown hlive hends hclosed ?_)
  rw [setTerminal_live hlive]
  refine keeps_bind (keeps_exchangeStarted rfl fun started => ?_)
  have hrest : Keeps rt careful
      (do let t ← ask (.load r); countAll (t.outcomeOps e); releaseStaging r) Q
      { m with
        own := some (r, { t with
          status := { t.status with state := terminalFor e, error := e }
          notified := true, started := false })
        closed := some (terminalFor e) } := by
    refine keeps_bind (keeps_load rfl (keeps_bind ?_))
    obtain ⟨op, rest, hops, hne, hop, hplain⟩ := outcomeOps_cases
      { t with
        status := { t.status with state := terminalFor e, error := e }
        notified := true, started := false } e
    rw [hops]
    refine keeps_bind (keeps_countOutcome hne hop hcounted rfl (keeps_countAll hplain ?_))
    exact keeps_releaseStaging rfl hheld fun bufs left hleft => hQ _ left rfl hleft
  cases started with
  | false => exact hrest
  | true => exact keeps_bind (keeps_count ⟨by simp, rfl⟩ hrest)

/-! Submission. -/

/-- A record whose submission is still looking at its dependencies. -/
structure Transfer.Planned (t : Transfer) : Prop where
  planned : t.state = .planned
  silent : t.notified = false
  scheduled : t.status.bytesScheduled = t.body.chunkPlan.plan.total
  unstaged : t.body.stagingBufs = []
  idle : t.done = []

theorem setState_allowed {s : TransferState} (h : t.state.allowed s = true) :
    t.setState s = { t with status := { t.status with state := s } } := if_pos h

theorem Transfer.Fresh.planned (h : t.Fresh) : (t.setState .planned).Planned := by
  rw [setState_allowed (by rw [h.created]; rfl)]
  exact ⟨rfl, h.silent, h.scheduled, h.unstaged, h.idle⟩

/-- Giving up before the transfer has run is listed and needs no justification. -/
theorem ends_failed (h : t.state = .planned ∨ t.state = .queued) : t.Ends rt .failed := by
  refine ⟨Or.inr (Or.inr rfl), fun hs => (by cases hs), fun hs => (by cases hs), ?_⟩
  rcases h with h | h <;> simp [h] <;> rfl

theorem keeps_schedule {task : Task} {Q : Bool → View → Prop} (hown : m.own = some (task.ref, t))
    (hready : t.Ready) (hcleared : m.Cleared t) (hhanded : m.handed = false)
    (hclosed : m.closed = none) (hclient : m.op.isWork = false)
    (hheld : careful → m.bufs.Perm t.staged)
    (htrue : Q true { m with own := none, handed := true }) (hfalse : Q false m) :
    Keeps rt careful (ask (.schedule task)) Q m := by
  refine keeps_ask ⟨t, hown, hready, hcleared, hhanded, hclosed, hclient, hheld⟩ fun x _ => ?_
  rw [View.after, View.edit_none x rfl]
  cases x with
  | false => exact hfalse
  | true => exact htrue

/-- The record goes to the scheduler, or it ends as failed. -/
theorem keeps_queueTransfer {depth : Nat} {Q : Unit → View → Prop} (hown : m.own = some (r, t))
    (hplanned : t.Planned) (hcleared : m.Cleared t) (hhanded : m.handed = false)
    (hclosed : m.closed = none) (hcounted : m.counted = none) (hclient : m.op.isWork = false)
    (hheld : careful → m.bufs = [])
    (hqueued : ∀ left, Q () { m with own := none, handed := true, bufs := left })
    (hfailed : ∀ t' left, t'.state = .failed → (careful → left = []) →
      Q () { m with own := some (r, t'), closed := some .failed, counted := some .failed,
                    bufs := left }) :
    Keeps rt careful (queueTransfer depth r) Q m := by
  refine keeps_bind (keeps_reserveStaging hown hheld ?_)
  rintro e bufs left (rfl | ⟨rfl, -⟩) hleft
  · have hreserved : (t.setStaging bufs).setState .reserved =
        { t.setStaging bufs with status := { t.status with state := .reserved } } :=
      setState_allowed (by show t.state.allowed _ = true; rw [hplanned.planned]; rfl)
    refine keeps_bind (keeps_setState rfl rfl ?_ (fun h => by cases h) ?_)
    · show t.state ≠ .active
      simp [hplanned.planned]
    rw [hreserved]
    refine keeps_bind (keeps_setState rfl rfl (fun h => by cases h) ?_ ?_)
    · exact fun _ => hcleared
    rw [setState_allowed rfl]
    refine keeps_bind (keeps_count ⟨by simp, rfl⟩ (keeps_bind (keeps_count ⟨by simp, rfl⟩ ?_)))
    refine keeps_bind (keeps_load rfl (keeps_bind (keeps_schedule rfl
      ⟨rfl, hplanned.silent, hplanned.scheduled, hplanned.idle⟩ hcleared hhanded hclosed hclient
      hleft (hqueued left) ?_)))
    refine keeps_bind (keeps_count ⟨by simp, rfl⟩ ?_)
    exact keeps_finalize rfl rfl (ends_failed (Or.inr rfl)) hclosed hcounted hleft
      fun t' left' ht' hleft' => hfailed t' left' ht' hleft'
  · have hstate : (t.setStaging bufs).state = .planned := hplanned.planned
    exact keeps_finalize rfl (by rw [hstate]; rfl) (ends_failed (Or.inl hstate)) hclosed hcounted
      hleft fun t' left' ht' hleft' => hfailed t' left' ht' hleft'

/-- The dependencies of `ds` have been looked up and seen completed. -/
structure Seen (ds : List TransferId) (looked : List (TransferId × Option Ref))
    (awaited : List (Ref × TransferState)) : Prop where
  ids : looked.map Prod.fst = ds
  completed : ∀ p ∈ looked, ∃ r, p.2 = some r ∧ (r, TransferState.completed) ∈ awaited
  only : ∀ p ∈ awaited, p.2 = .completed

theorem Seen.found {ds : List TransferId} {looked : List (TransferId × Option Ref)}
    {awaited : List (Ref × TransferState)} (h : Seen ds looked awaited) :
    ∀ p ∈ looked, p.2.isSome = true := by
  intro p hp
  obtain ⟨r, hr, -⟩ := h.completed p hp
  rw [hr]
  rfl

theorem Seen.next {ds : List TransferId} {looked : List (TransferId × Option Ref)}
    {awaited : List (Ref × TransferState)} (h : Seen ds looked awaited) (d : TransferId) (r : Ref) :
    Seen (ds ++ [d]) (looked ++ [(d, some r)]) (awaited ++ [(r, .completed)]) where
  ids := by simp [h.ids]
  completed := by
    intro p hp
    rcases List.mem_append.mp hp with hp | hp
    · obtain ⟨r', hr', hmem⟩ := h.completed p hp
      exact ⟨r', hr', List.mem_append_left _ hmem⟩
    · rw [List.mem_singleton.mp hp]
      exact ⟨r, rfl, by simp⟩
  only := by
    intro p hp
    rcases List.mem_append.mp hp with hp | hp
    · exact h.only p hp
    · rw [List.mem_singleton.mp hp]

theorem keeps_find {id : TransferId} {Q : Option Ref → View → Prop} (hhanded : m.handed = false)
    (hclient : m.op.isWork = false) (hplanned : ∀ r t, m.own = some (r, t) → t.state = .planned)
    (hQ : ∀ x, Q x (m.noteLookup id x)) :
    Keeps rt careful (ask (.find id)) Q m := by
  refine keeps_ask ⟨hhanded, hclient, hplanned⟩ fun x _ => ?_
  rw [View.after, View.edit_none x rfl]
  exact hQ x

theorem keeps_awaitTerminal {Q : TransferState → View → Prop} (hfound : m.Found r)
    (hQ : ∀ s : TransferState, s.isTerminal = true → Q s (m.noteWait r s)) :
    Keeps rt careful (ask (.awaitTerminal r)) Q m := by
  refine keeps_ask hfound fun x hx => ?_
  rw [View.after, View.edit_none x rfl]
  exact hQ x hx

theorem keeps_awaitDependencies {ds seen : List TransferId} {Q : Error → View → Prop}
    (hown : m.own = some (r, t)) (hplanned : t.Planned) (hhanded : m.handed = false)
    (hclosed : m.closed = none) (hclient : m.op.isWork = false)
    (hseen : Seen seen m.looked m.awaited)
    (hdone : ∀ looked awaited, Seen (seen ++ ds) looked awaited →
      Q {} { m with looked, awaited })
    (hunknown : ∀ looked awaited e, (∃ p ∈ looked, p.2 = none) → (∀ p ∈ awaited, p.2 = .completed) →
      e.ok = false → Q e { m with looked, awaited })
    (hfailed : ∀ looked awaited e t', (∀ p ∈ looked, p.2.isSome = true) →
      (∃ p ∈ awaited, p.2 ≠ .completed) → e.ok = false → t'.state = .failed →
      Q e { m with looked, awaited, own := some (r, t'), closed := some .failed }) :
    Keeps rt careful (awaitDependencies r ds) Q m := by
  induction ds generalizing m seen with
  | nil => exact hdone m.looked m.awaited (by rwa [List.append_nil])
  | cons d ds ih =>
      have hfind : ∀ r' t', m.own = some (r', t') → t'.state = .planned := by
        intro r' t' h
        obtain ⟨-, rfl⟩ := Prod.mk.inj (Option.some.inj (hown.symm.trans h))
        exact hplanned.planned
      refine keeps_bind (keeps_find hhanded hclient hfind fun x => ?_)
      cases x with
      | none => exact hunknown _ _ _ ⟨(d, none), by simp, rfl⟩ hseen.only rfl
      | some dep =>
          refine keeps_bind (keeps_awaitTerminal ⟨d, by simp [View.noteLookup]⟩ fun s _ => ?_)
          by_cases hs : s = .completed
          · rw [if_pos hs]
            subst hs
            exact ih hown hhanded hclosed hclient (hseen.next d dep)
              (fun looked awaited h => hdone looked awaited (by simpa using h)) hunknown hfailed
          · rw [if_neg hs]
            refine keeps_bind (keeps_setTerminal hown (by rw [hplanned.planned]; rfl)
              (ends_failed (Or.inl hplanned.planned)) hclosed ?_)
            refine hfailed _ _ _ _ ?_ ⟨(dep, s), by simp [View.noteWait], hs⟩ rfl ?_
            · intro p hp
              rcases List.mem_append.mp hp with hp | hp
              · exact hseen.found p hp
              · rw [List.mem_singleton.mp hp]
                rfl
            · rw [setTerminal_live (by rw [hplanned.planned]; rfl)]
              rfl

/-- A thread that has only just started a call. -/
structure View.Blank (m : View) : Prop extends m.Idle where
  looked : m.looked = []
  awaited : m.awaited = []
  raised : m.raised = []
  bufs : m.bufs = []

theorem View.Blank.seen (h : m.Blank) : Seen [] m.looked m.awaited where
  ids := by simp [h.looked]
  completed := by simp [h.looked]
  only := by simp [h.awaited]

theorem keeps_insert {Q : Ref → View → Prop} (hblank : m.Blank) (hfresh : t.Fresh)
    (hop : m.op = .submit t.opts)
    (hQ : ∀ r, Q r { m with made := some (r, t.id), own := some (r, { t with maker := m.me }) }) :
    Keeps rt careful (ask (.insert t)) Q m := by
  refine keeps_ask ⟨hblank.toIdle, hfresh, hop, hblank.looked, hblank.awaited, hblank.bufs⟩
    fun x _ => ?_
  rw [View.after, View.edit_none x rfl]
  exact hQ x

theorem keeps_countCreated {Q : Unit → View → Prop} (hmade : m.made.isSome = true)
    (hcreated : m.created = false) (hQ : Q () { m with created := true }) :
    Keeps rt careful (ask (.count .transferCreated)) Q m := by
  refine keeps_ask ⟨hmade, hcreated⟩ fun x _ => ?_
  rw [View.after, View.edit_none x rfl]
  exact hQ

theorem newTransfer_fresh (opts : TransferOptions) (id : TransferId) {bytes : ByteCount}
    {body : TransferRecord} (hbytes : bytes = body.chunkPlan.plan.total)
    (hbufs : body.stagingBufs = []) : (Runtime.newTransfer id opts bytes body).Fresh where
  created := rfl
  silent := rfl
  scheduled := hbytes
  unstaged := hbufs
  idle := rfl

theorem planTransfer_ok {opts : TransferOptions} {se de : EndpointRecord} {bytes : ByteCount}
    {body : TransferRecord} (h : rt.planTransfer opts se de = .ok (bytes, body)) :
    bytes = body.chunkPlan.plan.total ∧ body.stagingBufs = [] := by
  unfold Runtime.planTransfer at h
  split at h
  · cases h
  · dsimp only at h
    split_ifs at h
    split at h
    · cases h
    · rename_i plan hplan
      obtain ⟨rfl, rfl⟩ := Prod.mk.inj (Except.ok.inj h)
      exact ⟨(ChunkPlan.build_ok_inv hplan).2.2.1.symm, rfl⟩

theorem resolveRanges_error {se de : EndpointRecord} {src dst : ByteRange} {e : Error}
    (h : resolveRanges se de src dst = .error e) : e.ok = false := by
  unfold resolveRanges at h
  dsimp only at h
  split_ifs at h <;> (cases h; rfl)

theorem planTransfer_error {opts : TransferOptions} {se de : EndpointRecord} {e : Error}
    (h : rt.planTransfer opts se de = .error e) : e.ok = false := by
  unfold Runtime.planTransfer at h
  split at h
  · rename_i hranges
    rw [← Except.error.inj h]
    exact resolveRanges_error hranges
  · dsimp only at h
    split at h
    · rw [← Except.error.inj h]
      rfl
    · split at h
      · rw [← Except.error.inj h]
        rfl
      · cases h

theorem keeps_admitAs {opts : TransferOptions} {id : TransferId} {bytes : ByteCount}
    {body : TransferRecord} (hblank : m.Blank) (hop : m.op = .submit opts)
    (hfresh : (Runtime.newTransfer id opts bytes body).Fresh) :
    Keeps rt careful (rt.admitAs opts id bytes body) (View.Post careful) m := by
  refine keeps_bind (keeps_insert hblank hfresh hop fun r => ?_)
  refine keeps_bind (keeps_countCreated rfl hblank.created ?_)
  refine keeps_bind (keeps_count ⟨by simp, rfl⟩ (keeps_bind (keeps_count ⟨by simp, rfl⟩ ?_)))
  refine keeps_bind (keeps_setState rfl rfl ?_ (fun h => by cases h) (keeps_bind ?_))
  · show (Runtime.newTransfer id opts bytes body).state ≠ .active
    simp [hfresh.created]
  have hplanned : (Transfer.setState
      { Runtime.newTransfer id opts bytes body with maker := m.me } .planned).Planned :=
    Transfer.Fresh.planned ⟨hfresh.created, hfresh.silent, hfresh.scheduled, hfresh.unstaged,
      hfresh.idle⟩
  have hdeps : (Transfer.setState
      { Runtime.newTransfer id opts bytes body with maker := m.me } .planned).opts = opts := by
    rw [setState_allowed rfl]
    rfl
  generalize Transfer.setState _ .planned = T at hplanned hdeps ⊢
  refine keeps_awaitDependencies rfl hplanned hblank.handed hblank.closed hblank.client hblank.seen
    ?_ ?_ ?_
  · intro looked awaited hseen
    refine keeps_bind (keeps_queueTransfer rfl hplanned ⟨?_, hseen.completed⟩ hblank.handed
      hblank.closed hblank.counted hblank.client (fun _ => hblank.bufs) (fun left => ?_)
      fun t' left ht' hleft => ?_)
    · rw [hdeps]
      exact hseen.ids
    · exact View.Ended.handless ⟨⟨opts, hop⟩, .queued rfl rfl rfl rfl hblank.closed
        hblank.counted hseen.only hseen.found⟩ rfl
    · exact ⟨⟨⟨opts, hop⟩, .failed rfl rfl ht' rfl hblank.handed rfl rfl hseen.only hseen.found⟩,
        fun hc _ _ => hleft hc⟩
  · intro looked awaited e hmissing honly he
    rw [if_neg (by rw [he]; exact Bool.false_ne_true)]
    exact ⟨⟨⟨opts, hop⟩, .unknownDependency rfl rfl hplanned.planned rfl hblank.handed
      hblank.closed hblank.counted honly hmissing he⟩, fun _ _ _ => hblank.bufs⟩
  · intro looked awaited e t' hfound hother he ht'
    rw [if_neg (by rw [he]; exact Bool.false_ne_true)]
    exact ⟨⟨⟨opts, hop⟩, .dependencyFailed rfl rfl ht' rfl hblank.handed rfl hblank.counted hother
      hfound he⟩, fun _ _ _ => hblank.bufs⟩

/-- A call that teaches the thread nothing it would remember. -/
theorem keeps_plain {c : RtCall} {Q : RtAnswer c → View → Prop} (hp : m.Permits rt careful c)
    (hedits : c.edits = none) (hlearn : ∀ x, m.learn c x = m) (hQ : ∀ x, Q x m) :
    Keeps rt careful (ask c) Q m := by
  refine keeps_ask hp fun x _ => ?_
  rw [View.after, View.edit_none x hedits, hlearn x]
  exact hQ x

theorem keeps_submit {opts : TransferOptions} (hblank : m.Blank) (hop : m.op = .submit opts) :
    Keeps rt careful (rt.submit opts) (View.Post careful) m := by
  have hreject : ∀ e : Error, e.ok = false →
      Keeps rt careful (pure (.submitted e {})) (View.Post careful) m :=
    fun e he => View.Ended.handless
      ⟨⟨opts, hop⟩, .rejected hblank.toIdle hblank.looked hblank.awaited he _⟩ hblank.own
  refine keeps_bind (keeps_plain trivial rfl (fun _ => rfl) fun stopping => ?_)
  cases stopping with
  | true => exact hreject _ rfl
  | false =>
      by_cases hvalid : ¬ opts.source.valid ∨ ¬ opts.destination.valid
      · rw [if_neg Bool.false_ne_true, if_pos hvalid]
        exact hreject _ rfl
      rw [if_neg Bool.false_ne_true, if_neg hvalid]
      refine keeps_bind (keeps_plain trivial rfl (fun _ => rfl) fun se => ?_)
      refine keeps_bind (keeps_plain trivial rfl (fun _ => rfl) fun de => ?_)
      cases se with
      | none => exact hreject _ rfl
      | some se =>
      cases de with
      | none => exact hreject _ rfl
      | some de =>
      dsimp only
      cases hplan : rt.planTransfer opts se de with
      | error e => exact hreject _ (planTransfer_error hplan)
      | ok p =>
          obtain ⟨bytes, body⟩ := p
          obtain ⟨hbytes, hbufs⟩ := planTransfer_ok hplan
          have hfresh := fun id => newTransfer_fresh opts id hbytes hbufs
          by_cases hid : opts.explicitId.valid
          · dsimp only
            rw [if_pos hid]
            exact keeps_admitAs hblank hop (hfresh _)
          · dsimp only
            rw [if_neg hid]
            exact keeps_bind (keeps_plain trivial rfl (fun _ => rfl)
              fun id => keeps_admitAs hblank hop (hfresh id))

/-! The other calls. -/

theorem View.Aside.noteLookup (h : m.Aside) (id : TransferId) (x : Option Ref) :
    (m.noteLookup id x).Aside :=
  ⟨⟨h.made, h.own, h.created, h.handed, h.closed, h.counted, h.client⟩, h.other⟩

/-- A call that looks a transfer up first and goes on with the record it found. -/
theorem keeps_lookup {id : TransferId} {miss : Prog RtSig Result} {hit : Ref → Prog RtSig Result}
    (haside : m.Aside) (hmiss : Keeps rt careful miss (View.Post careful) (m.noteLookup id none))
    (hhit : ∀ r, (m.noteLookup id (some r)).Found r → (m.noteLookup id (some r)).Aside →
      Keeps rt careful (hit r) (View.Post careful) (m.noteLookup id (some r))) :
    Keeps rt careful (do
      let found : Option Ref ← ask (.find id)
      match found with
      | none => miss
      | some r => hit r) (View.Post careful) m := by
  refine keeps_bind (keeps_find haside.handed haside.client (by simp [haside.own]) fun x => ?_)
  cases x with
  | none => exact hmiss
  | some r => exact hhit r ⟨id, by simp [View.noteLookup]⟩ (haside.noteLookup id _)

theorem keeps_cancel {id : TransferId} (hblank : m.Blank) (hop : m.op = .cancel id) :
    Keeps rt careful (cancel id) (View.Post careful) m := by
  have haside : m.Aside := ⟨hblank.toIdle, by rw [hop]; rfl⟩
  refine keeps_lookup haside
    ((haside.noteLookup id none).post fun h => ⟨h, fun _ => hblank.raised⟩)
    fun r hfound haside' => ?_
  refine keeps_bind (keeps_plain hfound rfl (fun _ => rfl) fun s => ?_)
  by_cases hs : TransferState.isTerminal s = true
  · rw [if_pos hs]
    exact haside'.post fun h => ⟨h, fun _ => hblank.raised⟩
  · rw [if_neg hs]
    refine keeps_bind (keeps_ask ⟨hfound, id, hop⟩ fun x _ => ?_)
    rw [View.after, View.edit_none x rfl]
    have hraised : View.Aside { m.noteLookup id (some r) with
        raised := (m.noteLookup id (some r)).raised ++ [r] } :=
      ⟨⟨haside.made, haside.own, haside.created, haside.handed, haside.closed, haside.counted,
        haside.client⟩, haside.other⟩
    exact hraised.post fun h => ⟨h, fun h => by cases h⟩

theorem keeps_status {id : TransferId} (haside : m.Aside) :
    Keeps rt careful (status id) (View.Post careful) m :=
  keeps_lookup haside ((haside.noteLookup id none).post fun h => h) fun _ hfound haside' =>
    keeps_bind (keeps_plain (Or.inr hfound) rfl (fun _ => rfl) fun _ => haside'.post fun h => h)

theorem keeps_inspect {id : TransferId} (haside : m.Aside) :
    Keeps rt careful (inspect id) (View.Post careful) m :=
  keeps_lookup haside ((haside.noteLookup id none).post fun h => h) fun _ hfound haside' =>
    keeps_bind (keeps_plain (Or.inr hfound) rfl (fun _ => rfl) fun _ => haside'.post fun h => h)

theorem keeps_wait {id : TransferId} (haside : m.Aside) :
    Keeps rt careful (wait id) (View.Post careful) m :=
  keeps_lookup haside ((haside.noteLookup id none).post fun h => h) fun _ hfound haside' =>
    keeps_bind (keeps_awaitTerminal hfound fun _ _ => View.Aside.post ⟨⟨haside'.made, haside'.own,
      haside'.created, haside'.handed, haside'.closed, haside'.counted, haside'.client⟩,
      haside'.other⟩ fun h => h)

theorem keeps_registerEndpoint {desc : EndpointDescriptor} (haside : m.Aside) :
    Keeps rt careful (rt.registerEndpoint desc) (View.Post careful) m := by
  refine keeps_bind (keeps_plain trivial rfl (fun _ => rfl) fun stopping => ?_)
  cases rt.os.registerEndpoint stopping desc with
  | error e => exact haside.post fun h => h
  | ok ep => exact keeps_bind (keeps_plain trivial rfl (fun _ => rfl) fun _ => haside.post fun h => h)

/-- Draining the pools frees buffers without asking who holds them. -/
theorem keeps_shutdown (hcareful : ¬ careful) (haside : m.Aside) :
    Keeps rt careful shutdown (View.Post careful) m := by
  refine keeps_bind (keeps_plain trivial rfl (fun _ => rfl) fun already => ?_)
  cases already with
  | true => exact haside.post fun h => h
  | false =>
      have hrest : Keeps rt careful (do
          let _ ← ask (.drain .host)
          let _ ← ask (.drain .hostPinned)
          let _ ← ask .clearEndpoints
          pure .stopped) (View.Post careful) m :=
        keeps_bind (keeps_plain hcareful rfl (fun _ => rfl) fun _ =>
          keeps_bind (keeps_plain hcareful rfl (fun _ => rfl) fun _ =>
            keeps_bind (keeps_plain trivial rfl (fun _ => rfl) fun _ => haside.post fun h => h)))
      refine keeps_bind (keeps_plain trivial rfl (fun _ => rfl) fun join => ?_)
      cases join with
      | false => exact hrest
      | true => exact keeps_bind (keeps_plain trivial rfl (fun _ => rfl) fun _ => hrest)

theorem keeps_client {op : Op} (hblank : m.Blank) (hop : m.op = op) (hclient : ∀ t, op ≠ .work t)
    (hshutdown : careful → op ≠ .shutdown) :
    Keeps rt careful (rt.program op) (View.Post careful) m := by
  have haside : op.isSubmit = false → m.Aside := fun h => ⟨hblank.toIdle, by rw [hop, h]⟩
  cases op with
  | submit opts => exact keeps_submit hblank hop
  | cancel id => exact keeps_cancel hblank hop
  | status id => exact keeps_status (haside rfl)
  | inspect id => exact keeps_inspect (haside rfl)
  | wait id => exact keeps_wait (haside rfl)
  | registerEndpoint desc => exact keeps_registerEndpoint (haside rfl)
  | unregisterEndpoint h =>
      exact keeps_bind (keeps_plain trivial rfl (fun _ => rfl) fun _ => (haside rfl).post fun h => h)
  | shutdown => exact keeps_shutdown (fun hc => hshutdown hc rfl) (haside rfl)
  | work t => exact absurd rfl (hclient t)

end TransferFabric
