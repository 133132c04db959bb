import TransferFabric.Runtime.Coupling

/-!
How the counters of the lifecycle, the records and the threads add up. Every
record was made by one thread, every terminal state was given by one thread, and
every outcome was counted by one thread, so records and counters are compared by
comparing threads.
-/

namespace TransferFabric

open Interaction

variable {rt : Runtime} {careful : Prop} {w w' : World} {l : Tid → View} {n i : Nat} {c : RtCall}
  {x : RtAnswer c} {v : View}

/-- The counter of an outcome. -/
def Telemetry.outcome (t : Telemetry) : TransferState → UInt64
  | .completed => t.completed
  | .failed => t.failed
  | .cancelled => t.cancelled
  | _ => 0

theorem Telemetry.apply_outcome (t : Telemetry) (op : TelemetryOp) (s : TransferState) :
    (t.apply op).outcome s = t.outcome s + UInt64.ofNat (decide (op.outcome = some s)).toNat := by
  cases op <;> cases s <;> simp [Telemetry.apply, Telemetry.outcome, TelemetryOp.outcome] <;>
    split_ifs <;> rfl

theorem Telemetry.apply_created (t : Telemetry) (op : TelemetryOp) :
    (t.apply op).created = t.created + UInt64.ofNat (decide (op = .transferCreated)).toNat := by
  cases op <;> simp [Telemetry.apply]
  split_ifs <;> rfl

theorem World.Changes.outcome (h : w.Changes w' i c x) (hc : ∀ op, c ≠ .count op)
    (s : TransferState) : w'.telemetry.outcome s = w.telemetry.outcome s := by
  obtain ⟨-, hcompleted, hfailed, hcancelled⟩ :
      w'.telemetry.created = w.telemetry.created ∧ w'.telemetry.completed = w.telemetry.completed ∧
        w'.telemetry.failed = w.telemetry.failed ∧
        w'.telemetry.cancelled = w.telemetry.cancelled := by
    simpa [World.counters] using h.counters hc
  cases s <;> first | rfl | assumption

theorem World.Changes.created (h : w.Changes w' i c x) (hc : ∀ op, c ≠ .count op) :
    w'.telemetry.created = w.telemetry.created := by
  simpa [World.counters] using congrArg Prod.fst (h.counters hc)

/-! Threads that neither submit nor work. -/

theorem View.Idle.after {m : View} (h : m.Idle) (hop : m.op.isSubmit = false)
    (hp : m.Permits rt careful c) : (m.after c x).Idle := by
  have hm := m.after_changes c x
  have hinsert : ∀ t, c ≠ .insert t := by
    rintro t rfl
    rw [hp.2.2.1] at hop
    cases hop
  have hschedule : ∀ t, c ≠ .schedule t := by
    rintro t rfl
    obtain ⟨r, hown, -⟩ := hp
    rw [h.own] at hown
    cases hown
  have hterminal : ∀ r s e, c ≠ .setTerminal r s e := by
    rintro r s e rfl
    obtain ⟨⟨t, hown, -⟩, -⟩ := hp
    rw [h.own] at hown
    cases hown
  have hcount : (m.after c x).created = m.created ∧ (m.after c x).counted = m.counted := by
    by_cases hc : ∃ op, c = .count op
    · obtain ⟨op, rfl⟩ := hc
      have hp : if op = .transferCreated then m.made.isSome = true ∧ m.created = false
        else op.outcome.isSome = true → m.counted = none ∧ m.closed = op.outcome := hp
      rw [h.made, h.closed] at hp
      rw [View.after, View.edit_none _ rfl]
      show (m.noteCount op).created = _ ∧ (m.noteCount op).counted = _
      unfold View.noteCount
      by_cases hcreated : op = .transferCreated
      · rw [if_pos hcreated] at hp
        cases hp.1
      · rw [if_neg hcreated] at hp
        rw [if_neg hcreated]
        split_ifs with houtcome
        · rw [← (hp houtcome).2] at houtcome
          cases houtcome
        · exact ⟨rfl, rfl⟩
    · exact ⟨hm.created (not_exists.mp hc), hm.counted (not_exists.mp hc)⟩
  exact ⟨by rw [hm.made hinsert, h.made], by rw [hm.own hinsert hschedule, h.own]; rfl,
    by rw [hcount.1, h.created], by rw [hm.handed hschedule, h.handed],
    by rw [hm.closed hterminal, h.closed], by rw [hcount.2, h.counted], by rw [hm.op, h.client]⟩

structure Ledger (w : World) (l : Tid → View) (n : Nat) : Prop where
  created : w.telemetry.created = UInt64.ofNat (tally View.created l n)
  outcome : ∀ s, w.telemetry.outcome s =
    UInt64.ofNat (tally (fun m : View => decide (m.counted = some s)) l n)
  closed : ∀ s, TransferState.isTerminal s = true →
    tally (fun t : Transfer => decide (t.state = s)) w.heap w.next =
      tally (fun m : View => decide (m.closed = some s)) l n
  made : w.next = tally (fun m : View => m.made.isSome) l n
  hands : tally View.handed l n =
    w.scheduler.tasks.length + tally (fun m : View => m.op.isWork) l n
  aside : ∀ i < n, (l i).op.isSubmit = false → (l i).op.isWork = false → (l i).Idle

namespace Ledger

variable (h : Ledger w l n) (hi : i < n)

include h hi

theorem created_act (hp : (l i).Permits rt careful c) :
    (w.after i c x).telemetry.created =
      UInt64.ofNat (tally View.created (Function.update l i ((l i).after c x)) n) := by
  have hw := w.after_changes i c x
  have hm := (l i).after_changes c x
  by_cases hc : ∃ op, c = .count op
  · obtain ⟨op, rfl⟩ := hc
    have htel : (w.after i (.count op) x).telemetry = w.telemetry.apply op := rfl
    have hview : (l i).after (.count op) x = (l i).noteCount op := by
      rw [View.after, View.edit_none _ rfl]
      rfl
    rw [htel, Telemetry.apply_created, h.created, hview]
    by_cases hop : op = .transferCreated
    · have hnew : (l i).created = false := by
        have : if op = .transferCreated then _ else _ := hp
        rw [if_pos hop] at this
        exact this.2
      rw [tally_rises _ _ hi hnew, UInt64.ofNat_add]
      simp [View.noteCount, hop]
    · rw [tally_same _ _ hi]
      · simp [hop]
      · unfold View.noteCount
        rw [if_neg hop]
        split_ifs <;> rfl
  · replace hc := not_exists.mp hc
    rw [hw.created hc, h.created, tally_same _ _ hi (hm.created hc)]

theorem outcome_act (hp : (l i).Permits rt careful c) (s : TransferState) :
    (w.after i c x).telemetry.outcome s =
      UInt64.ofNat (tally (fun m : View => decide (m.counted = some s))
        (Function.update l i ((l i).after c x)) n) := by
  have hw := w.after_changes i c x
  have hm := (l i).after_changes c x
  by_cases hc : ∃ op, c = .count op
  · obtain ⟨op, rfl⟩ := hc
    have htel : (w.after i (.count op) x).telemetry = w.telemetry.apply op := rfl
    have hview : (l i).after (.count op) x = (l i).noteCount op := by
      rw [View.after, View.edit_none _ rfl]
      rfl
    rw [htel, Telemetry.apply_outcome, h.outcome, hview]
    cases hop : op.outcome with
    | none =>
        rw [tally_same _ _ hi]
        · simp
        · unfold View.noteCount
          split_ifs with hc hs
          · rfl
          · rw [hop] at hs
            cases hs
          · rfl
    | some s' =>
        have hne : op ≠ .transferCreated := by
          rintro rfl
          cases hop
        have hnew : (l i).counted = none := by
          have : if op = .transferCreated then _ else _ := hp
          rw [if_neg hne, hop] at this
          exact (this rfl).1
        rw [tally_rises _ _ hi (by simp [hnew]), UInt64.ofNat_add]
        simp [View.noteCount, hne, hop]
  · replace hc := not_exists.mp hc
    rw [hw.outcome hc, h.outcome, tally_same _ _ hi (by rw [hm.counted hc])]

theorem closed_act (hrec : Records w l n) (hp : (l i).Permits rt careful c) (hx : w.Answers c x)
    {s : TransferState} (hs : s.isTerminal = true) :
    tally (fun t : Transfer => decide (t.state = s)) (w.after i c x).heap (w.after i c x).next =
      tally (fun m : View => decide (m.closed = some s))
        (Function.update l i ((l i).after c x)) n := by
  have hw := w.after_changes i c x
  have hm := (l i).after_changes c x
  by_cases hinsert : ∃ t, c = .insert t
  · obtain ⟨t, rfl⟩ := hinsert
    obtain rfl := hx.insert
    have hheap : (w.after i (.insert t) w.next).heap =
        Function.update w.heap w.next { t with maker := i } := rfl
    have hnext : (w.after i (.insert t) w.next).next = w.next + 1 := rfl
    have hstate : Transfer.state { t with maker := i } ≠ s := by
      rintro rfl
      have hcreated : Transfer.state { t with maker := i } = .created := hp.2.1.created
      rw [hcreated] at hs
      cases hs
    rw [hheap, hnext, tally_start, h.closed s hs, tally_same _ _ hi]
    · simp [hstate]
    · rw [hm.closed fun _ _ _ h => by cases h]
  replace hinsert := not_exists.mp hinsert
  rw [hw.next hinsert]
  cases hedits : c.edits with
  | none =>
      have hheap : (w.after i c x).heap = w.heap := funext fun r => by
        rw [hw.heap hinsert, hedits]
        rfl
      rw [hheap, h.closed s hs, tally_same _ _ hi]
      rw [hm.closed]
      rintro r s e rfl
      cases hedits
  | some r =>
      obtain ⟨t, hown⟩ := hp.owned hedits
      obtain ⟨hr, heq⟩ := hrec.own i hi r t hown
      have hheap : (w.after i c x).heap = Function.update w.heap r (c.edit t x) :=
        funext fun r' => by
          rw [hw.heap hinsert, hedits, Function.update_apply]
          by_cases hrr : r' = r
          · subst hrr
            rw [if_pos rfl, if_pos rfl, heq]
          · rw [if_neg hrr, if_neg fun h => hrr (Option.some.inj h).symm]
      rw [hheap]
      by_cases hterm : ∃ r s e, c = .setTerminal r s e
      · obtain ⟨r', s', e, rfl⟩ := hterm
        obtain ⟨⟨t', hown', hlive, -⟩, hclosed⟩ := hp
        obtain rfl := Option.some.inj hedits
        obtain ⟨-, rfl⟩ := Prod.mk.inj (Option.some.inj (hown'.symm.trans hown))
        have hstate : (RtCall.edit t' (.setTerminal r' s' e) x).state = s' := by
          show (t'.setTerminal s' e).state = s'
          rw [Transfer.setTerminal, hlive]
          rfl
        have hview : ((l i).after (.setTerminal r' s' e) x).closed = some s' := rfl
        rw [tally_rises _ w.heap hr, tally_rises _ _ hi, h.closed s hs, hstate, hview]
        · simp
        · simp [hclosed]
        · rw [heq]
          simp only [decide_eq_false_iff_not]
          rintro rfl
          rw [hlive] at hs
          cases hs
      · have hterm' : ∀ r s e, c ≠ .setTerminal r s e := fun r s e h => hterm ⟨r, s, e, h⟩
        rw [tally_same _ w.heap hr, tally_same _ _ hi, h.closed s hs]
        · rw [hm.closed hterm']
        · rw [heq]
          exact decide_eq_decide.mpr (hp.terminal_iff hedits hown x hterm' hs)

theorem made_act (hp : (l i).Permits rt careful c) (hx : w.Answers c x) :
    (w.after i c x).next =
      tally (fun m : View => m.made.isSome) (Function.update l i ((l i).after c x)) n := by
  by_cases hinsert : ∃ t, c = .insert t
  · obtain ⟨t, rfl⟩ := hinsert
    obtain rfl := hx.insert
    have hnext : (w.after i (.insert t) w.next).next = w.next + 1 := rfl
    rw [hnext, tally_rises _ _ hi (by rw [hp.1.made]; rfl), ← h.made]
    rfl
  · replace hinsert := not_exists.mp hinsert
    rw [(w.after_changes i c x).next hinsert, h.made, tally_same _ _ hi]
    rw [((l i).after_changes c x).made hinsert]

theorem hands_act (hp : (l i).Permits rt careful c) (hx : w.Answers c x) :
    tally View.handed (Function.update l i ((l i).after c x)) n =
      (w.after i c x).scheduler.tasks.length +
        tally (fun m : View => m.op.isWork) (Function.update l i ((l i).after c x)) n := by
  have hm := (l i).after_changes c x
  rw [tally_same (fun m : View => m.op.isWork) l hi (by rw [hm.op])]
  by_cases hschedule : ∃ task, c = .schedule task
  · obtain ⟨task, rfl⟩ := hschedule
    have hsched : (w.after i (.schedule task) x).scheduler = (w.scheduler.submit task).2 := rfl
    obtain rfl := hx.schedule
    obtain ⟨t, -, -, -, hhanded, -⟩ := hp
    rw [tally_rises _ _ hi hhanded, h.hands, hsched, View.after, View.edit_none _ rfl]
    cases hsub : w.scheduler.submit task with
    | mk accepted queue =>
    cases accepted with
    | false =>
        obtain rfl := Scheduler.submit_false hsub
        show _ + (l i).handed.toNat = _
        rw [hhanded]
        rfl
    | true =>
        rw [(Scheduler.submit_tasks hsub).length_eq]
        show _ + 1 = _
        rw [List.length_cons]
        omega
  · replace hschedule := not_exists.mp hschedule
    rw [(w.after_changes i c x).tasks hschedule, tally_same _ _ hi (hm.handed hschedule), h.hands]

theorem aside_act (hp : (l i).Permits rt careful c) :
    ∀ j < n, (Function.update l i ((l i).after c x) j).op.isSubmit = false →
      (Function.update l i ((l i).after c x) j).op.isWork = false →
      (Function.update l i ((l i).after c x) j).Idle := by
  refine forall_update (P := fun _ (m : View) => m.op.isSubmit = false → m.op.isWork = false →
    m.Idle) (fun hsubmit hwork => ?_) fun j hj _ => h.aside j hj
  rw [((l i).after_changes c x).op] at hsubmit hwork
  exact (h.aside i hi hsubmit hwork).after hsubmit hp

theorem act (hrec : Records w l n) (hp : (l i).Permits rt careful c) (hx : w.Answers c x) :
    Ledger (w.after i c x) (Function.update l i ((l i).after c x)) n :=
  ⟨h.created_act hi hp, h.outcome_act hi hp, fun _ hs => h.closed_act hi hrec hp hx hs,
    h.made_act hi hp hx, h.hands_act hi hp hx, h.aside_act hi hp⟩

end Ledger

theorem Ledger.start (h : Ledger w l n) (taken : List Task) (hheap : w'.heap = w.heap)
    (hnext : w'.next = w.next) (htel : w'.telemetry = w.telemetry)
    (hperm : List.Perm w.scheduler.tasks (taken ++ w'.scheduler.tasks)) (hv : v.New n)
    (hwork : taken.length = v.op.isWork.toNat) (hown : v.op.isWork = false → v.own = none) :
    Ledger w' (Function.update l n v) (n + 1) := by
  refine ⟨?_, fun s => ?_, fun s hs => ?_, ?_, ?_, ?_⟩
  · rw [tally_start, hv.created, htel, h.created]
    rfl
  · rw [tally_start, hv.counted, htel, h.outcome]
    rfl
  · rw [tally_start, hv.closed, hheap, hnext, h.closed s hs]
    rfl
  · rw [tally_start, hv.made, hnext, h.made]
    rfl
  · rw [tally_start, tally_start, hv.handed, h.hands, hperm.length_eq, List.length_append, hwork]
    show _ + 0 = _
    omega
  · exact forall_start (P := fun _ (m : View) => m.op.isSubmit = false → m.op.isWork = false →
      m.Idle) (fun _ hclient => ⟨hv.made, hown hclient, hv.created, hv.handed, hv.closed,
        hv.counted, hclient⟩) h.aside

end TransferFabric
