import TransferFabric.Runtime.Flow
import TransferFabric.Runtime.Holdings

/-!
What a worker leaves behind: the record it ran, ended as its result says, the
byte counters it moved, and no staging buffer. A sheet is a thread's view and the
byte counters it has moved. Submissions are held to their buffers and workers are
not: a worker may give a buffer back twice, and still has none at the end.
-/

namespace TransferFabric

open Interaction Relation

/-- The byte counters moved by a call. -/
def tallied : RtEvent → Option TelemetryOp
  | ⟨.count op, _⟩ => if op.tallies then some op else none
  | _ => none

abbrev Sheet := View × List TelemetryOp

namespace Sheet

def step : Effect RtSig Sheet := fun m c x m' =>
  View.step m.1 c x m'.1 ∧ noting tallied m.2 c x m'.2

/-- The thread has the record in hand, holds no buffers beyond these and has moved these
counters. -/
structure At (m : Sheet) (r : Ref) (t : Transfer) (held : List (PoolKind × StagingBuffer))
    (ops : List TelemetryOp) : Prop where
  own : m.1.own = some (r, t)
  bufs : m.1.bufs.Subperm held
  ops : m.2 = ops

end Sheet

/-- Calls that leave the record in the same hands and obtain no buffer. -/
def RtCall.steady : RtCall → Bool
  | .insert _ | .schedule _ | .allocate .. => false
  | _ => true

variable {rt : Runtime} {α β : Type} {m m' : Sheet} {r : Ref} {t : Transfer} {c : RtCall}
  {x : RtAnswer c} {held : List (PoolKind × StagingBuffer)} {ops : List TelemetryOp} {e : Error}

theorem RtCall.rebuf_subperm (hc : c.steady = true) (bufs : List (PoolKind × StagingBuffer)) :
    (c.rebuf x bufs).Subperm bufs := by
  have hdrop : ∀ k (b : StagingBuffer),
      List.Subperm (if b.null then bufs else bufs.erase (k, b)) bufs := by
    intro k b
    split_ifs
    · exact List.Subperm.refl _
    · exact List.erase_subperm _ _
  cases c with
  | allocate r k n => cases hc
  | release r k b => exact hdrop k b
  | exec r ec =>
      cases ec with
      | release k b => exact hdrop k b
      | _ => exact List.Subperm.refl _
  | _ => exact List.Subperm.refl _

theorem Sheet.At.step (h : m.At r t held ops) (hc : c.steady = true) (hs : Sheet.step m c x m') :
    m'.At r (if c.edits = some r then c.edit t x else t) held (ops ++ (tallied ⟨c, x⟩).toList) := by
  obtain ⟨⟨-, hview⟩, hnote⟩ := hs
  have hinsert : ∀ t, c ≠ .insert t := by rintro t rfl; cases hc
  have hschedule : ∀ t, c ≠ .schedule t := by rintro t rfl; cases hc
  refine ⟨?_, ?_, ?_⟩
  · rw [hview, (m.1.after_changes c x).own hinsert hschedule, h.own, Option.map_some]
    split_ifs <;> rfl
  · rw [hview, View.after_rebuf]
    exact (RtCall.rebuf_subperm hc _).trans h.bufs
  · rw [hnote, h.ops]

/-! The worker's program, followed on its sheet. -/

/-- Every run from the sheet ends in `Q`. -/
abbrev Follow (p : Prog RtSig α) (Q : α → Sheet → Prop) (m : Sheet) : Prop :=
  wp (fun _ _ => True) Sheet.step p Q m

theorem follow_bind {p : Prog RtSig α} {f : α → Prog RtSig β} {Q : β → Sheet → Prop}
    (h : Follow p (fun a m => Follow (f a) Q m) m) : Follow (p >>= f) Q m :=
  (wp_bind p f Q m).mpr h

theorem follow_ask {Q : RtAnswer c → Sheet → Prop} (h : m.At r t held ops) (hc : c.steady = true)
    (hQ : ∀ x m', m.1.Sees c x →
      m'.At r (if c.edits = some r then c.edit t x else t) held (ops ++ (tallied ⟨c, x⟩).toList) →
      Q x m') : Follow (ask c) Q m :=
  ⟨trivial, fun x m' hs => hQ x m' hs.1.1 (h.step hc hs)⟩

theorem follow_load {Q : Transfer → Sheet → Prop} (h : m.At r t held ops)
    (hQ : ∀ m', m'.At r t held ops → Q t m') : Follow (ask (.load r)) Q m := by
  refine follow_ask h rfl fun x m' hx hm => ?_
  obtain rfl : x = t := hx t h.own
  exact hQ m' (by simpa [RtCall.edits, tallied] using hm)

theorem follow_write {Q : RtAnswer c → Sheet → Prop} (h : m.At r t held ops) (hc : c.steady = true)
    (hedits : c.edits = some r) (hcount : ∀ x, tallied ⟨c, x⟩ = none)
    (hQ : ∀ x m', m'.At r (c.edit t x) held ops → Q x m') : Follow (ask c) Q m := by
  refine follow_ask h hc fun x m' _ hm => hQ x m' ?_
  rwa [if_pos hedits, hcount x, Option.toList_none, List.append_nil] at hm

theorem follow_count {op : TelemetryOp} {Q : Unit → Sheet → Prop} (h : m.At r t held ops)
    (hQ : ∀ m', m'.At r t held (ops ++ [op].filter TelemetryOp.tallies) → Q () m') :
    Follow (ask (.count op)) Q m := by
  refine follow_ask h rfl fun _ m' _ hm => hQ m' ?_
  cases hop : op.tallies <;> simpa [RtCall.edits, tallied, hop] using hm

theorem follow_uncounted {op : TelemetryOp} {Q : Unit → Sheet → Prop} (h : m.At r t held ops)
    (hop : op.tallies = false) (hQ : ∀ m', m'.At r t held ops → Q () m') :
    Follow (ask (.count op)) Q m :=
  follow_count h fun m' hm => hQ m' (by
    rwa [List.filter_singleton, hop, Bool.cond_false, List.append_nil] at hm)

theorem follow_countAll {more : List TelemetryOp} {Q : Unit → Sheet → Prop}
    (h : m.At r t held ops)
    (hQ : ∀ m', m'.At r t held (ops ++ more.filter TelemetryOp.tallies) → Q () m') :
    Follow (countAll more) Q m := by
  induction more generalizing m ops with
  | nil => exact hQ m (by simpa using h)
  | cons op more ih =>
      refine follow_bind (follow_count h fun m' hm => ih hm fun m'' hm' => hQ m'' ?_)
      rwa [List.append_assoc, ← List.filter_append] at hm'

/-- A buffer that is given back is not held any more, whether it was held or not. -/
theorem follow_releaseBufs {k : PoolKind} {bufs : List StagingBuffer} {Q : Unit → Sheet → Prop}
    (h : m.At r t (liveBufs k bufs ++ held) ops) (hQ : ∀ m', m'.At r t held ops → Q () m') :
    Follow (releaseBufs r k bufs) Q m := by
  induction bufs generalizing m with
  | nil => exact hQ m h
  | cons b bufs ih =>
      refine follow_bind ⟨trivial, fun _ m' hs => ih ?_⟩
      have hat := h.step rfl hs
      refine ⟨by simpa [RtCall.edits] using hat.own, ?_, by simpa [tallied] using hat.ops⟩
      have hbufs : m'.1.bufs = if b.null then m.1.bufs else m.1.bufs.erase (k, b) := by
        rw [hs.1.2, View.after_rebuf]
        rfl
      rw [hbufs]
      have hheld := h.bufs
      split_ifs with hb
      · rwa [liveBufs_cons_null hb] at hheld
      · rw [liveBufs_cons_live hb, List.cons_append] at hheld
        have := hheld.erase (k, b)
        rwa [List.erase_cons_head] at this

theorem follow_releaseNodes {t' : Transfer} {count start : Nat} {Q : Unit → Sheet → Prop}
    (h : m.At r t' (t.stagedIn count start ++ held) ops)
    (hQ : ∀ m', m'.At r t' held ops → Q () m') : Follow (releaseNodes r t count start) Q m := by
  induction count generalizing m start with
  | zero => exact hQ m h
  | succ count ih =>
      unfold releaseNodes forLoop
      rw [stagedIn_succ, List.append_assoc] at h
      exact follow_bind (follow_bind (follow_releaseBufs h fun m' hm => ih hm))

theorem follow_releaseStaging {Q : Unit → Sheet → Prop} (h : m.At r t t.staged ops)
    (hQ : ∀ bufs m', m'.At r (t.setStaging bufs) [] ops → Q () m') :
    Follow (releaseStaging r) Q m := by
  refine follow_bind (follow_load h fun m₁ h₁ => ?_)
  by_cases hlegs : t.body.route.legs = []
  · rw [if_pos hlegs]
    have hnone : t.staged = [] := by simp [Transfer.staged, Transfer.stagedIn, Route.nodes, hlegs]
    rw [hnone] at h₁
    exact hQ t.body.stagingBufs m₁ h₁
  · rw [if_neg hlegs]
    have hall : m₁.At r t (t.stagedIn (t.body.route.nodes.length - 2) 1 ++ []) ops := by
      rwa [List.append_nil]
    refine follow_bind (follow_releaseNodes hall fun m₂ h₂ => ?_)
    exact follow_write h₂ rfl rfl (fun _ => rfl) fun _ m₃ h₃ => hQ [] m₃ h₃

/-- A record ended with a result: the counters are those of the record as it is then. -/
theorem follow_finalize {Q : Unit → Sheet → Prop} (h : m.At r t t.staged ops)
    (hlive : t.state.isTerminal = false)
    (hQ : ∀ m' t' bufs, t'.state = terminalFor e → t'.done = t.done →
      t'.status.bytesScheduled = t.status.bytesScheduled →
      t.body = { t'.body with stagingBufs := bufs } →
      m'.At r t' [] (ops ++ (t'.outcomeOps e).filter TelemetryOp.tallies) → Q () m') :
    Follow (finalize r e) Q m := by
  refine follow_bind (follow_write h rfl rfl (fun _ => rfl) fun _ m₁ h₁ => ?_)
  rw [show RtCall.edit t (.setTerminal r (terminalFor e) e) () = _ from setTerminal_live hlive] at h₁
  refine follow_bind (follow_write h₁ rfl rfl (fun _ => rfl) fun started m₂ h₂ => ?_)
  have hrest : ∀ (m₃ : Sheet) (t' : Transfer), m₃.At r t' t'.staged ops → t'.body = t.body →
      t'.done = t.done → t'.state = terminalFor e →
      t'.status.bytesScheduled = t.status.bytesScheduled →
      Follow (do let t ← ask (.load r); countAll (t.outcomeOps e); releaseStaging r) Q m₃ := by
    intro m₃ t' h₃ hbody hdone hstate hsched
    refine follow_bind (follow_load h₃ fun m₄ h₄ => follow_bind (follow_countAll h₄ fun m₅ h₅ => ?_))
    refine follow_releaseStaging h₅ fun bufs m₆ h₆ =>
      hQ m₆ (t'.setStaging bufs) t.body.stagingBufs hstate hdone hsched ?_ h₆
    rw [← hbody]
    rfl
  cases started with
  | false => exact hrest m₂ _ h₂ rfl rfl rfl rfl
  | true =>
      exact follow_bind (follow_uncounted h₂ rfl fun m₃ h₃ => hrest m₃ _ h₃ rfl rfl rfl rfl)

/-- The record was run with this result, which is its outcome. -/
structure Transfer.Ran (rt : Runtime) (t : Transfer) (e : Error) : Prop where
  state : t.state = terminalFor e
  scheduled : t.status.bytesScheduled = t.body.chunkPlan.plan.total
  /-- Its buffers were given back, so they are only known to have existed. -/
  result : ∃ bufs, (rt.context { t.body with stagingBufs := bufs }).RunResult e t.done

/-- What the worker of a record leaves. -/
structure Worked (rt : Runtime) (r : Ref) (m : Sheet) (t : Transfer) (e : Error) : Prop where
  own : m.1.own = some (r, t)
  bufs : m.1.bufs = []
  ran : t.Ran rt e
  ops : m.2 = (t.outcomeOps e).filter TelemetryOp.tallies

theorem follow_runTransfer {Q : Error → Sheet → Prop} (h : m.At r t held ops)
    (hQ : ∀ e u m', (rt.context t.body).RunResult e u → m'.At r (t.ranAll u) held ops → Q e m') :
    Follow ((rt.context t.body).runTransfer.embed (execHom r)) Q m := by
  refine (wp_embed _ _ _ _).mpr (wp_of_runs _ (fun u m' => m'.At r (t.ranAll u) held ops) h ?_ ?_)
  · rintro u c m₁ - h₁
    refine ⟨trivial, ?_⟩
    rintro x m₂ ⟨_, rfl, hs⟩
    have h₂ := h₁.step rfl hs
    rw [t.ranAll_concat]
    simpa [RtCall.edits, RtCall.edit, tallied, execHom] using h₂
  · intro e u m₁ hrun h₁
    exact hQ e u m₁ (RunContext.runTransfer_result hrun) h₁

theorem follow_work {task : Task} (h : m.At task.ref t t.staged []) (hready : t.Ready) :
    Follow (rt.work task) (fun _ m' => ∃ t e, Worked rt task.ref m' t e) m := by
  refine follow_bind (follow_bind (follow_write h rfl rfl (fun _ => rfl) fun _ m₁ h₁ => ?_))
  rw [show RtCall.edit t (.setState task.ref .active) () = _ from
    setState_allowed (by rw [hready.queued]; rfl)] at h₁
  refine follow_bind (follow_write h₁ rfl rfl (fun _ => rfl) fun _ m₂ h₂ => ?_)
  refine follow_bind (follow_uncounted h₂ rfl fun m₃ h₃ =>
    follow_bind (follow_uncounted h₃ rfl fun m₄ h₄ => ?_))
  refine follow_bind (follow_load h₄ fun m₅ h₅ => follow_bind (follow_runTransfer h₅ ?_))
  generalize hstarted : RtCall.edit _ (.storeStarted task.ref) _ = t₁ at *
  have hbody : t₁.body = t.body := by rw [← hstarted]; rfl
  have hidle : t₁.done = [] := by rw [← hstarted]; exact hready.idle
  have hactive : t₁.state = .active := by rw [← hstarted]; rfl
  intro e u m₆ hresult h₆
  have hran := t₁.ranAll_eq u
  have hstaged : (t₁.ranAll u).staged = t.staged := by
    rw [hran]
    unfold Transfer.staged Transfer.stagedIn Transfer.stagedAt
    rw [hbody]
  refine follow_finalize (hstaged ▸ h₆) ?_ fun m₇ t₂ bufs hstate hdone hsched hsame h₇ => ?_
  · rw [Transfer.ranAll_state, hactive]
    split_ifs <;> rfl
  · refine follow_bind (follow_ask h₇ rfl fun _ m₈ _ h₈ => ?_)
    have h₈ : m₈.At task.ref t₂ [] ((t₂.outcomeOps e).filter TelemetryOp.tallies) := by
      simpa [RtCall.edits, tallied] using h₈
    have hsched₁ : t₂.status.bytesScheduled = t₂.body.chunkPlan.plan.total := by
      rw [hsched, t₁.ranAll_scheduled, ← hstarted]
      have hplan : t₂.body.chunkPlan = t.body.chunkPlan := by
        rw [← hbody, show t₁.body = (t₁.ranAll u).body by rw [hran], hsame]
      rw [hplan]
      exact hready.scheduled
    refine ⟨t₂, e, h₈.own, List.subperm_nil.mp h₈.bufs, ⟨hstate, hsched₁, bufs, ?_⟩, h₈.ops⟩
    have hbody₁ : t₁.body = { t₂.body with stagingBufs := bufs } := by
      rw [← hsame, hran]
    have hdone₁ : t₂.done = u := by
      rw [hdone, hran, hidle]
      rfl
    rwa [← hbody₁, hdone₁]

/-! Who ended which record. -/

structure Closings (w : World) (l : Tid → View) (n : Nat) : Prop where
  /-- A thread that has ended a record still has it. -/
  past : ∀ i < n, ∀ r s e, (⟨.setTerminal r s e, ()⟩ : RtEvent) ∈ w.past i →
    (l i).closed = some s ∧ ∃ t, (l i).own = some (r, t)
  closed : ∀ i < n, ∀ s, (l i).closed = some s →
    ∃ r e, (⟨.setTerminal r s e, ()⟩ : RtEvent) ∈ w.past i
  counted : ∀ i < n, ∀ s, (l i).counted = some s → (l i).closed = some s
  ended : ∀ r < w.next, (w.heap r).state.isTerminal = true →
    ∃ i < n, ∃ e, (⟨.setTerminal r (w.heap r).state e, ()⟩ : RtEvent) ∈ w.past i

namespace Closings

variable {w w' : World} {l : Tid → View} {n : Nat} {i : Tid} {careful : Prop}

theorem past_act (h : Closings w l n) (hi : i < n) (hp : (l i).Permits rt careful c) :
    ∀ r s e, (⟨.setTerminal r s e, ()⟩ : RtEvent) ∈ w.past i ++ [⟨c, x⟩] →
      ((l i).after c x).closed = some s ∧ ∃ t, ((l i).after c x).own = some (r, t) := by
  have hm := (l i).after_changes c x
  intro r s e hmem
  rcases List.mem_append.mp hmem with hmem | hmem
  · obtain ⟨hclosed, t, hown⟩ := h.past i hi r s e hmem
    refine ⟨?_, hm.own_forth ?_ ?_ hown⟩
    · rw [hm.closed, hclosed]
      rintro r' s' e' rfl
      rw [hp.2] at hclosed
      cases hclosed
    · rintro t' rfl
      rw [hp.1.closed] at hclosed
      cases hclosed
    · rintro t' rfl
      obtain ⟨-, -, -, -, -, hnone, -⟩ := hp
      rw [hnone] at hclosed
      cases hclosed
  · cases List.mem_singleton.mp hmem
    obtain ⟨⟨t, hown, -⟩, -⟩ := hp
    exact ⟨rfl, hm.own_forth (fun _ h => by cases h) (fun _ h => by cases h) hown⟩

theorem closed_act (h : Closings w l n) (hi : i < n) :
    ∀ s, ((l i).after c x).closed = some s →
      ∃ r e, (⟨.setTerminal r s e, ()⟩ : RtEvent) ∈ w.past i ++ [⟨c, x⟩] := by
  intro s hs
  by_cases hc : ∃ r s' e, c = .setTerminal r s' e
  · obtain ⟨r, s', e, rfl⟩ := hc
    obtain rfl : s' = s := Option.some.inj hs
    exact ⟨r, e, List.mem_append_right _ List.mem_cons_self⟩
  · rw [((l i).after_changes c x).closed fun r s e h => hc ⟨r, s, e, h⟩] at hs
    obtain ⟨r, e, hmem⟩ := h.closed i hi s hs
    exact ⟨r, e, List.mem_append_left _ hmem⟩

theorem counted_act (h : Closings w l n) (hi : i < n) (hp : (l i).Permits rt careful c) :
    ∀ s, ((l i).after c x).counted = some s → ((l i).after c x).closed = some s := by
  have hm := (l i).after_changes c x
  intro s hs
  by_cases hcount : ∃ op, c = .count op
  · obtain ⟨op, rfl⟩ := hcount
    rw [hm.closed fun _ _ _ h => by cases h]
    have hview : (l i).after (.count op) x = (l i).noteCount op := by
      rw [View.after, View.edit_none _ rfl]
      rfl
    rw [hview] at hs
    unfold View.noteCount at hs
    change if op = .transferCreated then _ else _ at hp
    split_ifs at hs hp with hcreated hout
    · exact h.counted i hi s hs
    · rw [(hp hout).2]
      exact hs
    · exact h.counted i hi s hs
  · rw [hm.counted (not_exists.mp hcount)] at hs
    have hclosed := h.counted i hi s hs
    rw [hm.closed, hclosed]
    rintro r' s' e' rfl
    rw [hp.2] at hclosed
    cases hclosed

theorem ended_act (h : Closings w l n) (hrec : Records w l n) (hi : i < n)
    (hp : (l i).Permits rt careful c) (hx : w.Answers c x) :
    ∀ r < (w.after i c x).next, ((w.after i c x).heap r).state.isTerminal = true →
      ∃ j < n, ∃ e, (⟨.setTerminal r ((w.after i c x).heap r).state e, ()⟩ : RtEvent) ∈
        (w.after i c x).past j := by
  have hw := w.after_changes i c x
  have hkeep : ∀ j (ev : RtEvent), ev ∈ w.past j → ev ∈ (w.after i c x).past j := by
    intro j ev hev
    rw [hw.past, Function.update_apply]
    split_ifs with hj
    · subst hj
      exact List.mem_append_left _ hev
    · exact hev
  intro r hr hterm
  rcases (Records.grows hp hx).2 r hr with hlt | ⟨rfl, t, rfl, hfresh, hnew⟩
  · cases hold : (w.heap r).state.isTerminal with
    | true =>
        obtain ⟨j, hj, e, hmem⟩ := h.ended r hlt hold
        refine ⟨j, hj, e, hkeep j _ ?_⟩
        rwa [Transfer.state, Truth.final hrec hi hp hx hlt hold]
    | false =>
        have hinsert : ∀ t, c ≠ .insert t := by
          rintro t rfl
          obtain rfl := hx.insert
          rw [World.insert_heap_lt i t hlt, hold] at hterm
          cases hterm
        have hheap := hw.heap hinsert r
        split_ifs at hheap with hedits
        · rw [hheap] at hterm ⊢
          obtain ⟨s, e, rfl, hs⟩ := hp.ends hedits hold hterm
          refine ⟨i, hi, e, ?_⟩
          rw [hs, hw.past, Function.update_self]
          exact List.mem_append_right _ List.mem_cons_self
        · rw [hheap, hold] at hterm
          cases hterm
  · rw [hnew] at hterm
    have hcreated : t.state = .created := hfresh.created
    rw [show Transfer.state { t with maker := i } = t.state from rfl, hcreated] at hterm
    cases hterm

theorem act (h : Closings w l n) (hrec : Records w l n) (hi : i < n)
    (hp : (l i).Permits rt careful c) (hx : w.Answers c x) :
    Closings (w.after i c x) (Function.update l i ((l i).after c x)) n := by
  refine ⟨?_, ?_, ?_, h.ended_act hrec hi hp hx⟩
  · rw [(w.after_changes i c x).past]
    refine forall_update (P := fun j (m : View) => ∀ r s e,
      (⟨.setTerminal r s e, ()⟩ : RtEvent) ∈ Function.update w.past i (w.past i ++ [⟨c, x⟩]) j →
        m.closed = some s ∧ ∃ t, m.own = some (r, t)) ?_ fun j hj hne => ?_
    · rw [Function.update_self]
      exact h.past_act hi hp
    · rw [Function.update_of_ne hne]
      exact h.past j hj
  · rw [(w.after_changes i c x).past]
    refine forall_update (P := fun j (m : View) => ∀ s, m.closed = some s → ∃ r e,
      (⟨.setTerminal r s e, ()⟩ : RtEvent) ∈
        Function.update w.past i (w.past i ++ [⟨c, x⟩]) j) ?_ fun j hj hne => ?_
    · rw [Function.update_self]
      exact h.closed_act hi
    · rw [Function.update_of_ne hne]
      exact h.closed j hj
  · exact forall_update (P := fun _ (m : View) => ∀ s, m.counted = some s → m.closed = some s)
      (h.counted_act hi hp) fun j hj _ => h.counted j hj

theorem start (h : Closings w l n) {v : View} (hheap : w'.heap = w.heap) (hnext : w'.next = w.next)
    (hpast : w'.past = w.past) (hsilent : w.past n = []) (hv : v.New n) :
    Closings w' (Function.update l n v) (n + 1) := by
  refine ⟨?_, ?_, ?_, ?_⟩
  · rw [hpast]
    refine forall_start (P := fun j (m : View) => ∀ r s e,
      (⟨.setTerminal r s e, ()⟩ : RtEvent) ∈ w.past j →
        m.closed = some s ∧ ∃ t, m.own = some (r, t)) ?_ h.past
    rw [hsilent]
    exact fun _ _ _ hmem => by cases hmem
  · rw [hpast]
    refine forall_start (P := fun j (m : View) => ∀ s, m.closed = some s → ∃ r e,
      (⟨.setTerminal r s e, ()⟩ : RtEvent) ∈ w.past j) ?_ h.closed
    rw [hv.closed]
    exact fun _ hs => by cases hs
  · refine forall_start (P := fun _ (m : View) => ∀ s, m.counted = some s → m.closed = some s) ?_
      h.counted
    rw [hv.counted]
    exact fun _ hs => by cases hs
  · rw [hheap, hnext, hpast]
    intro r hr hterm
    obtain ⟨i, hi, e, hmem⟩ := h.ended r hr hterm
    exact ⟨i, Nat.lt_succ_of_lt hi, e, hmem⟩

end Closings

/-! The sheets of all threads. -/

def Sheet.Permits (rt : Runtime) (m : Sheet) (c : RtCall) : Prop :=
  m.1.Permits rt (m.1.op.isSubmit = true) c

def Sheet.Post (rt : Runtime) (res : Result) (m : Sheet) : Prop :=
  m.1.Post (m.1.op.isSubmit = true) res ∧
    ∀ task, m.1.op = .work task → ∃ t e, Worked rt task.ref m t e

/-- The account of a thread in terms of its operation is one in terms of its sheet. -/
theorem Sheet.account {op : Op} {p : Prog RtSig Result} {R : Result → Sheet → Prop}
    (hop : m.1.op = op)
    (h : Keeps rt (op.isSubmit = true) p (View.Post (op.isSubmit = true)) m.1) (h' : Follow p R m)
    (hR : ∀ res m, R res m → ∀ task, op = .work task → ∃ t e, Worked rt task.ref m t e) :
    wp (Sheet.Permits rt) Sheet.step p (Sheet.Post rt) m := by
  have hjoin := wp_join Sheet.step Prod.fst id (fun m c x m' hs => ⟨hs.1, hs⟩) h h'
  refine wp_keeping (I := fun m : Sheet => m.1.op = op) ?_ hjoin hop ?_ ?_
  · rintro m c x m' hm ⟨⟨-, hview⟩, -⟩
    rw [hview, (m.1.after_changes c x).op, hm]
  · rintro m c hm ⟨hp, -⟩
    unfold Sheet.Permits
    rwa [hm]
  · rintro res m hm ⟨hpost, hres⟩
    unfold Sheet.Post
    rw [hm]
    exact ⟨hpost, hR res m hres⟩

structure Audited (rt : Runtime) (w : World) (l : Tid → Sheet) (n : Nat) : Prop where
  coupled : Coupled rt w (Prod.fst ∘ l) n
  holdings : Holdings w (Prod.fst ∘ l) n
  closings : Closings w (Prod.fst ∘ l) n
  /-- A worker has the record it was given. -/
  equipped : ∀ i < n, ∀ task, (l i).1.op = .work task → ∃ t, (l i).1.own = some (task.ref, t)
  tallied : ∀ i < n, (l i).2 = (w.past i).filterMap tallied

namespace Audited

variable {w : World} {l : Tid → Sheet} {n : Nat} {i : Tid}

theorem equipped_act (h : Audited rt w l n) (hi : i < n) (hp : (l i).Permits rt c) :
    ∀ task, ((l i).1.after c x).op = .work task →
      ∃ t, ((l i).1.after c x).own = some (task.ref, t) := by
  have hm := (l i).1.after_changes c x
  intro task hop
  rw [hm.op] at hop
  have hclient : (l i).1.op.isWork = true := by rw [hop]; rfl
  obtain ⟨t, ht⟩ := h.equipped i hi task hop
  refine hm.own_forth ?_ ?_ ht
  · rintro t' rfl
    have := hp.1.client
    rw [hclient] at this
    cases this
  · rintro t' rfl
    obtain ⟨-, -, -, -, -, -, hwork, -⟩ := hp
    rw [hclient] at hwork
    cases hwork

/-- Only submissions hand records over. -/
theorem hands_over (h : Audited rt w l n) (hi : i < n) {task : Task}
    (hp : (l i).Permits rt (.schedule task)) : (l i).1.op.isSubmit = true := by
  obtain ⟨t, hown, -, -, -, -, hwork, -⟩ := hp
  obtain ⟨id, hmade⟩ := h.coupled.records.hand i hi hwork task.ref t hown
  have hop : (l i).1.op = .submit _ := h.coupled.records.submitted i hi task.ref id hmade
  rw [hop]
  rfl

theorem act (h : Audited rt w l n) (hi : i < n) (hp : (l i).Permits rt c) (hx : w.Answers c x) :
    Audited rt (w.after i c x) (Function.update l i
      ((l i).1.after c x, (l i).2 ++ (TransferFabric.tallied ⟨c, x⟩).toList)) n := by
  refine ⟨?_, ?_, ?_, ?_, ?_⟩
  · rw [Function.comp_update]
    exact h.coupled.act hi hp hx
  · rw [Function.comp_update]
    refine h.holdings.act h.coupled.records hi hp (fun task hc => ?_) hx
    subst hc
    exact h.hands_over hi hp
  · rw [Function.comp_update]
    exact h.closings.act h.coupled.records hi hp hx
  · exact forall_update (P := fun _ (m : Sheet) => ∀ task, m.1.op = .work task →
      ∃ t, m.1.own = some (task.ref, t)) (h.equipped_act hi hp) fun j hj _ => h.equipped j hj
  · rw [(w.after_changes i c x).past]
    refine forall_update (P := fun j (m : Sheet) => m.2 =
      (Function.update w.past i (w.past i ++ [⟨c, x⟩]) j).filterMap TransferFabric.tallied) ?_
      fun j hj hne => ?_
    · rw [Function.update_self, List.filterMap_append, h.tallied i hi]
      cases htallied : TransferFabric.tallied ⟨c, x⟩ <;> simp [htallied]
    · rw [Function.update_of_ne hne]
      exact h.tallied j hj

theorem startCall (h : Audited rt w l n) (op : Op) (hop : ∀ t, op ≠ .work t) :
    Audited rt { w with calls := w.calls ++ [op] }
      (Function.update l n (Coupled.clientView n op, [])) (n + 1) := by
  refine ⟨?_, ?_, ?_, ?_, ?_⟩
  · rw [Function.comp_update]
    exact h.coupled.startCall op hop
  · rw [Function.comp_update]
    exact h.holdings.startCall op
  · rw [Function.comp_update]
    exact h.closings.start rfl rfl rfl (h.coupled.history.silent n (Nat.le_refl n))
      (by constructor <;> rfl)
  · exact forall_start (P := fun _ (m : Sheet) => ∀ task, m.1.op = .work task →
      ∃ t, m.1.own = some (task.ref, t)) (fun task htask => absurd htask (hop task)) h.equipped
  · refine forall_start (P := fun j (m : Sheet) => m.2 =
      (w.past j).filterMap TransferFabric.tallied) ?_ h.tallied
    rw [h.coupled.history.silent n (Nat.le_refl n)]
    rfl

theorem startTask (h : Audited rt w l n) {task : Task} {queue : Scheduler} {busy : Nat}
    (hpop : w.scheduler.pop = (some task, queue)) :
    Audited rt { w with scheduler := queue, busy, calls := w.calls ++ [.work task] }
      (Function.update l n (Coupled.workerView n task (w.heap task.ref), [])) (n + 1) := by
  refine ⟨?_, ?_, ?_, ?_, ?_⟩
  · rw [Function.comp_update]
    exact h.coupled.startTask hpop
  · rw [Function.comp_update]
    exact h.holdings.startTask hpop
  · rw [Function.comp_update]
    exact h.closings.start rfl rfl rfl (h.coupled.history.silent n (Nat.le_refl n))
      (by constructor <;> rfl)
  · refine forall_start (P := fun _ (m : Sheet) => ∀ task, m.1.op = .work task →
      ∃ t, m.1.own = some (task.ref, t)) (fun task' htask => ?_) h.equipped
    cases htask
    exact ⟨_, rfl⟩
  · refine forall_start (P := fun j (m : Sheet) => m.2 =
      (w.past j).filterMap TransferFabric.tallied) ?_ h.tallied
    rw [h.coupled.history.silent n (Nat.le_refl n)]
    rfl

end Audited

namespace Runtime

def audit (rt : Runtime) : Discipline effect rt.Starts Sheet where
  allowed := Sheet.Permits rt
  view := Sheet.step
  post := Sheet.Post rt
  Coupled := Audited rt
  act := by
    rintro w _ l n i c x h hi hp ⟨hx, rfl⟩
    exact ⟨(_, _), ⟨⟨h.coupled.sees hi hx, rfl⟩, rfl⟩, h.act hi hp hx⟩
  start := by
    intro w w' l n prog h hs
    cases hs with
    | call op hop =>
        refine ⟨_, Sheet.account rfl ?_ (wp_true _ _) ?_, h.startCall op hop⟩
        · refine keeps_client (clientView_blank n hop) rfl hop ?_
          rintro hsubmit rfl
          cases hsubmit
        · exact fun _ _ _ task htask => absurd htask (hop task)
    | @task task queue hdepth hbusy hpop =>
        obtain ⟨-, hready, -⟩ := h.coupled.records.queued task
          ((Scheduler.pop_tasks hpop).mem_iff.mpr List.mem_cons_self)
        refine ⟨_, Sheet.account (rfl : _ = Op.work task) ?_
          (follow_work ⟨rfl, List.Subperm.refl _, rfl⟩ hready) ?_, h.startTask hpop⟩
        · exact keeps_work rfl hready rfl rfl rfl rfl rfl rfl (fun hc => by cases hc)
            (fun hc => by cases hc)
        · rintro _ m hm task' htask
          cases htask
          exact hm

theorem initial_audited (rt : Runtime) (l : Tid → Sheet) : Audited rt rt.initial l 0 where
  coupled := rt.initial_coupled _
  holdings := Holdings.initial rt _
  closings := ⟨by simp, by simp, by simp, by simp [initial]⟩
  equipped := by simp
  tallied := by simp

variable {σ : System}

/-- Every state the runtime reaches is explained by the sheets of its threads. -/
theorem Reaches.audited (h : rt.Reaches σ) : ∃ l, rt.audit.Holds σ l :=
  Discipline.sound (p := rt.start)
    ⟨rt.initial_audited fun i => ({ me := i, op := .shutdown }, []), fun _ _ hi => (by cases hi)⟩ h

/-- What a worker that has returned leaves, in the world. -/
theorem Reaches.worked (h : rt.Reaches σ) {i : Tid} {task : Task} {res : Result}
    (hop : σ.world.calls[i]? = some (.work task)) (hret : σ.threads[i]? = some (.done res)) :
    ∃ e, (σ.world.heap task.ref).Ran rt e ∧
      (σ.world.past i).filterMap tallied =
        ((σ.world.heap task.ref).outcomeOps e).filter TelemetryOp.tallies ∧
      σ.world.heldBy task.ref = [] := by
  obtain ⟨l, hl⟩ := h.audited
  obtain ⟨hcoupled, hholdings, -, -, htallied⟩ := hl.1
  have hi : i < σ.threads.length := (List.getElem?_eq_some_iff.mp hret).1
  have hwork : (l i).1.op = .work task :=
    (Option.some.inj (hop.symm.trans (hcoupled.history.op i hi))).symm
  obtain ⟨t, e, hown, hbufs, hran, hops⟩ := (hl.returned hret).2 task hwork
  obtain ⟨-, rfl⟩ := hcoupled.records.own i hi task.ref t hown
  refine ⟨e, hran, (htallied i hi).symm.trans hops, ?_⟩
  have hperm := hholdings.mine i hi task.ref _ hown
  exact List.perm_nil.mp (hbufs ▸ hperm.symm :)

end Runtime

end TransferFabric
