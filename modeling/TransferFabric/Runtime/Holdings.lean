import TransferFabric.Runtime.Custody
import TransferFabric.Runtime.Discipline

/-!
Who holds which staging buffers. The views of the threads name the buffers of the
record in hand, and the ledger names the buffers of every record; they agree,
whatever the threads do with the buffers. A queued record holds what it lists,
if its submission handed over just that.
-/

namespace TransferFabric

open Interaction

variable {rt : Runtime} {careful : Prop} {w w' : World} {l : Tid → View} {n i : Nat} {c : RtCall}
  {x : RtAnswer c} {r : Ref}

/-- The buffers a record has obtained and not given back. -/
def World.heldBy (w : World) (r : Ref) : List (PoolKind × StagingBuffer) :=
  (w.held.filter fun h => decide (h.ref = r)).map fun h => (h.pool, h.buf)

theorem World.heldBy_of_perm {h : Hold} (hperm : w.held.Perm (h :: w'.held)) (r : Ref) :
    (w.heldBy r).Perm
      (if h.ref = r then (h.pool, h.buf) :: w'.heldBy r else w'.heldBy r) := by
  have := (hperm.filter fun h => decide (h.ref = r)).map fun h => (h.pool, h.buf)
  unfold World.heldBy
  split_ifs with hr
  · rwa [List.filter_cons_of_pos (by simpa using hr), List.map_cons] at this
  · rwa [List.filter_cons_of_neg (by simpa using hr)] at this

theorem World.mem_heldBy {h : Hold} (hmem : h ∈ w.held) : (h.pool, h.buf) ∈ w.heldBy h.ref :=
  List.mem_map.mpr ⟨h, List.mem_filter.mpr ⟨hmem, by simp⟩, rfl⟩

theorem World.mem_held_of_heldBy {k : PoolKind} {b : StagingBuffer} (h : (k, b) ∈ w.heldBy r) :
    ⟨r, k, b⟩ ∈ w.held := by
  obtain ⟨hd, hmem, heq⟩ := List.mem_map.mp h
  obtain ⟨hheld, href⟩ := List.mem_filter.mp hmem
  obtain ⟨rfl, rfl⟩ := Prod.mk.inj heq
  obtain rfl : hd.ref = r := by simpa using href
  exact hheld

theorem World.heldBy_congr (hheld : w'.held = w.held) (r : Ref) : w'.heldBy r = w.heldBy r := by
  unfold World.heldBy
  rw [hheld]

/-! One call, on the buffers of the record it is about. -/

/-- The record a call obtains a buffer for or gives one back of. -/
def RtCall.stagesFor : RtCall → Option Ref
  | .allocate r .. | .release r .. | .exec r (.release ..) => some r
  | _ => none

def RtCall.rebuf : (c : RtCall) → RtAnswer c → List (PoolKind × StagingBuffer) →
    List (PoolKind × StagingBuffer)
  | .allocate _ k _, some b, bufs => if b.null then bufs else bufs ++ [(k, b)]
  | .release _ k b, _, bufs => if b.null then bufs else bufs.erase (k, b)
  | .exec _ (.release k b), _, bufs => if b.null then bufs else bufs.erase (k, b)
  | _, _, bufs => bufs

theorem RtCall.rebuf_perm {bufs bufs' : List (PoolKind × StagingBuffer)} (h : bufs.Perm bufs')
    (c : RtCall) (x : RtAnswer c) : (c.rebuf x bufs).Perm (c.rebuf x bufs') := by
  cases c with
  | allocate r k bytes =>
      cases x with
      | none => exact h
      | some b =>
          show List.Perm (if b.null then _ else _) (if b.null then _ else _)
          split_ifs
          · exact h
          · exact h.append_right _
  | release r k b =>
      show List.Perm (if b.null then _ else _) (if b.null then _ else _)
      split_ifs
      · exact h
      · exact h.erase _
  | exec r ec =>
      cases ec with
      | release k b =>
          show List.Perm (if b.null then _ else _) (if b.null then _ else _)
          split_ifs
          · exact h
          · exact h.erase _
      | _ => exact h
  | _ => exact h

theorem RtCall.rebuf_of_none (hc : c.stagesFor = none) (bufs : List (PoolKind × StagingBuffer)) :
    c.rebuf x bufs = bufs := by
  cases c with
  | allocate | release => cases hc
  | exec r ec =>
      cases ec with
      | release => cases hc
      | _ => rfl
  | _ => rfl

theorem View.after_rebuf (m : View) (c : RtCall) (x : RtAnswer c) :
    (m.after c x).bufs = c.rebuf x m.bufs := by
  cases c with
  | allocate r k bytes =>
      cases x with
      | none => rfl
      | some b =>
          show (View.takeBuf _ k b).bufs = if b.null then _ else _
          unfold View.takeBuf
          split_ifs <;> rfl
  | release r k b =>
      show (View.dropBuf _ k b).bufs = if b.null then _ else _
      unfold View.dropBuf
      split_ifs <;> rfl
  | count op =>
      show (View.noteCount _ op).bufs = _
      unfold View.noteCount
      split_ifs <;> rfl
  | schedule t => cases x <;> rfl
  | exec r ec =>
      cases ec with
      | release k b =>
          show (View.dropBuf _ k b).bufs = if b.null then _ else _
          unfold View.dropBuf
          split_ifs <;> rfl
      | _ => rfl
  | _ => rfl

namespace World

/-- A buffer that a record gives back leaves its holdings, if it was there. -/
theorem heldBy_erase {k : PoolKind} {b : StagingBuffer} (hheld : w'.held = w.held.erase ⟨r, k, b⟩)
    (r' : Ref) :
    (w'.heldBy r').Perm (if r = r' then (w.heldBy r').erase (k, b) else w.heldBy r') := by
  by_cases hmem : (⟨r, k, b⟩ : Hold) ∈ w.held
  · have hsplit : w.held.Perm (⟨r, k, b⟩ :: w'.held) := by
      rw [hheld]
      exact List.perm_cons_erase hmem
    have hby := heldBy_of_perm hsplit r'
    split_ifs at hby ⊢ with hr
    · have := hby.symm.erase (k, b)
      rwa [List.erase_cons_head] at this
    · exact hby.symm
  · rw [heldBy_congr (hheld.trans (List.erase_of_not_mem hmem))]
    split_ifs with hr
    · subst hr
      rw [List.erase_of_not_mem fun h => hmem (mem_held_of_heldBy h)]
    · exact List.Perm.refl _

theorem giveBack_heldBy {k : PoolKind} {b : StagingBuffer} (hheld : w'.held = (w.giveBack r k b).held)
    (r' : Ref) : (w'.heldBy r').Perm
      (if some r = some r' then if b.null then w.heldBy r' else (w.heldBy r').erase (k, b)
        else w.heldBy r') := by
  rw [giveBack_held] at hheld
  simp only [Option.some_inj]
  by_cases hb : b.null
  · rw [if_pos hb] at hheld
    rw [heldBy_congr hheld, if_pos hb, ite_self]
  · rw [if_neg hb] at hheld
    rw [if_neg hb]
    exact heldBy_erase hheld r'

theorem after_heldBy (w : World) (i : Tid) (c : RtCall) (x : RtAnswer c) (r : Ref) :
    ((w.after i c x).heldBy r).Perm
      (if c.stagesFor = some r then c.rebuf x (w.heldBy r) else w.heldBy r) := by
  have hafter := (w.after_staging i c x).held
  have hsame : (w.share i c x).held = w.held → (w.after i c x).heldBy r = w.heldBy r :=
    fun h => heldBy_congr (hafter.trans h) r
  cases c with
  | allocate r' k bytes =>
      cases x with
      | none =>
          rw [hsame rfl]
          split_ifs <;> exact List.Perm.refl _
      | some b =>
          have hheld : (w.after i (.allocate r' k bytes) (some b)).held =
              w.held ++ if b.null then [] else [⟨r', k, b⟩] := by
            rw [hafter]
            show ((w.setPool k ((w.pool k).allocate bytes (some b.data)).2).takeHold r' k b).held = _
            rw [(takeHold_ledger _ _ _ _).1, (w.setPool_ledger k _).2.1]
          have hby : (w.after i (.allocate r' k bytes) (some b)).heldBy r =
              w.heldBy r ++ if b.null ∨ r' ≠ r then [] else [(k, b)] := by
            unfold heldBy
            rw [hheld, List.filter_append, List.map_append]
            by_cases hb : b.null <;> by_cases hr : r' = r <;> simp [hb, hr]
          rw [hby]
          show List.Perm _ (if some r' = some r then if b.null then _ else _ else _)
          by_cases hb : b.null <;> by_cases hr : r' = r <;> simp [hb, hr]
  | release r' k b => exact giveBack_heldBy hafter r
  | exec r' ec =>
      cases ec with
      | release k b => exact giveBack_heldBy hafter r
      | _ => rw [hsame rfl]; exact List.Perm.refl _
  | drain k => rw [hsame (w.setPool_ledger k _).2.1]; exact List.Perm.refl _
  | _ => rw [hsame rfl]; exact List.Perm.refl _

end World

/-- A thread obtains and gives back buffers for the record in hand only. -/
theorem View.Permits.staging {m : View} (hp : m.Permits rt careful c) (hc : c.stagesFor = some r) :
    ∃ t, m.own = some (r, t) := by
  cases c with
  | allocate r' k bytes =>
      obtain rfl := Option.some.inj hc
      exact hp
  | release r' k b =>
      obtain rfl := Option.some.inj hc
      exact hp.1
  | exec r' ec =>
      obtain ⟨t, hown, -⟩ := hp
      cases ec with
      | release k b =>
          obtain rfl := Option.some.inj hc
          exact ⟨t, hown⟩
      | _ => cases hc
  | _ => cases hc

structure Holdings (w : World) (l : Tid → View) (n : Nat) : Prop where
  mine : ∀ i < n, ∀ r t, (l i).own = some (r, t) → (l i).bufs.Perm (w.heldBy r)
  queued : ∀ task ∈ w.scheduler.tasks, (w.heldBy task.ref).Perm (w.heap task.ref).staged
  owned : ∀ h ∈ w.held, (∃ i < n, ∃ t, (l i).own = some (h.ref, t)) ∨
    ∃ task ∈ w.scheduler.tasks, task.ref = h.ref

namespace Holdings

/-- What is held, is held for a record. -/
theorem older (h : Holdings w l n) (hrec : Records w l n) {r : Ref} (hr : w.next ≤ r) :
    w.heldBy r = [] := by
  unfold World.heldBy
  rw [List.filter_eq_nil_iff.mpr]
  · rfl
  · intro hd hmem
    have hlt : hd.ref < w.next := by
      rcases h.owned hd hmem with ⟨j, hj, t', hown⟩ | ⟨task, ht, heq⟩
      · exact (hrec.own j hj hd.ref t' hown).1
      · exact heq ▸ (hrec.queued task ht).1
    simpa using Nat.ne_of_lt (Nat.lt_of_lt_of_le hlt hr)

theorem ordinary (h : Holdings w l n) (hrec : Records w l n) (hi : i < n)
    (hp : (l i).Permits rt careful c) (hc : ∀ t, c ≠ .insert t) (hs : ∀ t, c ≠ .schedule t) :
    Holdings (w.after i c x) (Function.update l i ((l i).after c x)) n := by
  have hw := w.after_changes i c x
  have hm := (l i).after_changes c x
  have hothers : ∀ r, (∀ t, (l i).own ≠ some (r, t)) →
      ((w.after i c x).heldBy r).Perm (w.heldBy r) := fun r hr => by
    have := w.after_heldBy i c x r
    rwa [if_neg fun hstages => (hp.staging hstages).elim hr] at this
  have hmine : ∀ r t, (l i).own = some (r, t) →
      ((w.after i c x).heldBy r).Perm (c.rebuf x (w.heldBy r)) := fun r t hr => by
    have := w.after_heldBy i c x r
    split_ifs at this with hstages
    · exact this
    · cases hfor : c.stagesFor with
      | none => rwa [RtCall.rebuf_of_none hfor]
      | some r' =>
          obtain ⟨t', hr'⟩ := hp.staging hfor
          obtain ⟨rfl, -⟩ := Prod.mk.inj (Option.some.inj (hr.symm.trans hr'))
          exact absurd hfor hstages
  refine ⟨?_, ?_, ?_⟩
  · refine forall_update (P := fun j (m : View) => ∀ r t, m.own = some (r, t) →
      m.bufs.Perm ((w.after i c x).heldBy r)) ?_ fun j hj hne r t hr => ?_
    · intro r t hr
      obtain ⟨t', hr', -⟩ := hm.own_back hc hs hr
      rw [View.after_rebuf]
      exact (RtCall.rebuf_perm (h.mine i hi r t' hr') c x).trans (hmine r t' hr').symm
    · refine (h.mine j hj r t hr).trans (hothers r fun t' hr' => ?_).symm
      exact hne (hrec.apart j hj i hi r t t' hr hr')
  · intro task ht
    rw [hw.tasks hs] at ht
    have hfree := (hrec.queued task ht).2.2 i hi
    rw [hw.heap hc, if_neg]
    · exact (hothers task.ref hfree).trans (h.queued task ht)
    · intro hedits
      obtain ⟨t, hown⟩ := hp.owned hedits
      exact hfree t hown
  · have hkeep : ∀ r j, j < n → (∃ t, (l j).own = some (r, t)) →
        ∃ t, (Function.update l i ((l i).after c x) j).own = some (r, t) := by
      rintro r j - ⟨t, hown⟩
      by_cases hji : j = i
      · subst hji
        rw [Function.update_self]
        exact hm.own_forth hc hs hown
      · rw [Function.update_of_ne hji]
        exact ⟨t, hown⟩
    intro hd hmem
    rw [hw.tasks hs]
    by_cases hown : ∃ t, (l i).own = some (hd.ref, t)
    · exact Or.inl ⟨i, hi, hkeep hd.ref i hi hown⟩
    · have hold := World.mem_held_of_heldBy
        ((hothers hd.ref (not_exists.mp hown)).subset (World.mem_heldBy hmem))
      refine (h.owned _ hold).imp_left ?_
      rintro ⟨j, hj, hown⟩
      exact ⟨j, hj, hkeep hd.ref j hj hown⟩

/-- A submission makes its record, which holds nothing yet. -/
theorem insert (h : Holdings w l n) (hrec : Records w l n) {t : Transfer}
    (hp : (l i).Permits rt careful (.insert t)) :
    Holdings (w.after i (.insert t) w.next)
      (Function.update l i ((l i).after (.insert t) w.next)) n := by
  have hheld : (w.after i (.insert t) w.next).held = w.held :=
    (w.after_staging i (.insert t) w.next).held.trans
      (World.share_staging (w := w) (i := i) (c := .insert t) rfl w.next).held
  obtain ⟨hidle, -, -, -, -, hbufs⟩ := hp
  refine ⟨?_, ?_, ?_⟩
  · refine forall_update (P := fun j (m : View) => ∀ r t', m.own = some (r, t') →
      m.bufs.Perm ((w.after i (.insert t) w.next).heldBy r)) ?_ fun j hj _ r t' hr => ?_
    · intro r t' hr
      obtain ⟨rfl, -⟩ := Prod.mk.inj (Option.some.inj hr)
      rw [World.heldBy_congr hheld, h.older hrec (Nat.le_refl _), View.after_rebuf, hbufs]
      exact List.Perm.refl _
    · rw [World.heldBy_congr hheld]
      exact h.mine j hj r t' hr
  · intro task ht
    rw [World.heldBy_congr hheld, World.insert_heap_lt i t (hrec.queued task ht).1]
    exact h.queued task ht
  · intro hd hmem
    refine (h.owned hd (hheld ▸ hmem)).imp_left ?_
    rintro ⟨j, hj, t', hown⟩
    refine ⟨j, hj, t', ?_⟩
    by_cases hji : j = i
    · subst hji
      rw [hidle.own] at hown
      cases hown
    · rwa [Function.update_of_ne hji]

/-- The scheduler takes a record with its buffers, or refuses it. -/
theorem schedule (h : Holdings w l n) (hrec : Records w l n) (hi : i < n) {task : Task}
    (hp : (l i).Permits rt careful (.schedule task)) (hcareful : careful) {accepted : Bool}
    (hx : w.Answers (.schedule task) accepted) :
    Holdings (w.after i (.schedule task) accepted)
      (Function.update l i ((l i).after (.schedule task) accepted)) n := by
  have hheld : (w.after i (.schedule task) accepted).held = w.held :=
    (w.after_staging i (.schedule task) accepted).held.trans
      (World.share_staging (w := w) (i := i) (c := .schedule task) rfl accepted).held
  have hw := w.after_changes i (.schedule task) accepted
  have hheap : (w.after i (.schedule task) accepted).heap = w.heap :=
    funext fun r => hw.heap (fun _ h => by cases h) r
  obtain ⟨t, hown, -, -, -, -, hclient, hbufs⟩ := hp
  have hanswer := hx.schedule
  have hscheduler : (w.after i (.schedule task) accepted).scheduler =
      (w.scheduler.submit task).2 := rfl
  cases hsub : w.scheduler.submit task with
  | mk accepted' queue =>
  rw [hsub] at hanswer hscheduler
  obtain rfl : accepted = accepted' := hanswer
  rw [View.after, View.edit_none _ rfl]
  cases accepted with
  | false =>
      obtain rfl := Scheduler.submit_false hsub
      show Holdings _ (Function.update l i (l i)) n
      rw [Function.update_eq_self]
      refine ⟨fun j hj r t' hr => ?_, ?_, ?_⟩
      · rw [World.heldBy_congr hheld]
        exact h.mine j hj r t' hr
      · intro task' ht
        rw [hscheduler] at ht
        rw [World.heldBy_congr hheld, hheap]
        exact h.queued task' ht
      · rw [hheld, hscheduler]
        exact h.owned
  | true =>
      have hperm : (w.after i (.schedule task) true).scheduler.tasks.Perm
          (task :: w.scheduler.tasks) := hscheduler ▸ Scheduler.submit_tasks hsub
      show Holdings _ (Function.update l i { l i with handed := true, own := none }) n
      refine ⟨?_, ?_, ?_⟩
      · refine forall_update (P := fun j (m : View) => ∀ r t', m.own = some (r, t') →
          m.bufs.Perm ((w.after i (.schedule task) true).heldBy r)) (fun _ _ hr => by cases hr)
          fun j hj _ r t' hr => ?_
        rw [World.heldBy_congr hheld]
        exact h.mine j hj r t' hr
      · intro task' ht
        rw [World.heldBy_congr hheld, hheap]
        rcases List.mem_cons.mp (hperm.mem_iff.mp ht) with rfl | ht
        · rw [(hrec.own i hi _ t hown).2]
          exact (h.mine i hi _ t hown).symm.trans (hbufs hcareful)
        · exact h.queued task' ht
      · intro hd hmem
        rcases h.owned hd (hheld ▸ hmem) with ⟨j, hj, t', hr⟩ | ⟨task', ht, heq⟩
        · by_cases hji : j = i
          · subst hji
            obtain ⟨href, -⟩ := Prod.mk.inj (Option.some.inj (hown.symm.trans hr))
            exact Or.inr ⟨task, hperm.mem_iff.mpr List.mem_cons_self, href⟩
          · exact Or.inl ⟨j, hj, t', by rwa [Function.update_of_ne hji]⟩
        · exact Or.inr ⟨task', hperm.mem_iff.mpr (List.mem_cons_of_mem _ ht), heq⟩

/-- Only a thread that hands its record over has to be careful. -/
theorem act (h : Holdings w l n) (hrec : Records w l n) (hi : i < n)
    (hp : (l i).Permits rt careful c) (hcareful : ∀ task, c = .schedule task → careful)
    (hx : w.Answers c x) :
    Holdings (w.after i c x) (Function.update l i ((l i).after c x)) n := by
  by_cases hinsert : ∃ t, c = .insert t
  · obtain ⟨t, rfl⟩ := hinsert
    obtain rfl := hx.insert
    exact h.insert hrec hp
  by_cases hschedule : ∃ task, c = .schedule task
  · obtain ⟨task, rfl⟩ := hschedule
    exact h.schedule hrec hi hp (hcareful task rfl) hx
  exact h.ordinary hrec hi hp (not_exists.mp hinsert) (not_exists.mp hschedule)

theorem startCall (h : Holdings w l n) (op : Op) :
    Holdings { w with calls := w.calls ++ [op] }
      (Function.update l n (Coupled.clientView n op)) (n + 1) := by
  refine ⟨?_, h.queued, ?_⟩
  · exact forall_start (P := fun j (m : View) => ∀ r t, m.own = some (r, t) →
      m.bufs.Perm (w.heldBy r)) (fun _ _ hr => by cases hr) h.mine
  · intro hd hmem
    refine (h.owned hd hmem).imp_left ?_
    rintro ⟨j, hj, t, hown⟩
    exact ⟨j, Nat.lt_succ_of_lt hj, t, by rwa [Function.update_of_ne (Nat.ne_of_lt hj)]⟩

/-- A worker takes a queued record with its buffers. -/
theorem startTask (h : Holdings w l n) {task : Task} {queue : Scheduler} {busy : Nat}
    (hpop : w.scheduler.pop = (some task, queue)) :
    Holdings { w with scheduler := queue, busy, calls := w.calls ++ [.work task] }
      (Function.update l n (Coupled.workerView n task (w.heap task.ref))) (n + 1) := by
  have hperm := Scheduler.pop_tasks hpop
  have htask : task ∈ w.scheduler.tasks := hperm.mem_iff.mpr List.mem_cons_self
  have hworker : ∀ r t, (Coupled.workerView n task (w.heap task.ref)).own = some (r, t) →
      r = task.ref := fun r t hr => (Prod.mk.inj (Option.some.inj hr)).1.symm
  refine ⟨?_, ?_, ?_⟩
  · refine forall_start (P := fun j (m : View) => ∀ r t, m.own = some (r, t) →
      m.bufs.Perm (w.heldBy r)) (fun r t hr => ?_) h.mine
    rw [hworker r t hr]
    exact (h.queued task htask).symm
  · exact fun task' ht => h.queued task' (hperm.mem_iff.mpr (List.mem_cons_of_mem _ ht))
  · intro hd hmem
    rcases h.owned hd hmem with ⟨j, hj, t, hown⟩ | ⟨task', ht, heq⟩
    · exact Or.inl ⟨j, Nat.lt_succ_of_lt hj, t, by rwa [Function.update_of_ne (Nat.ne_of_lt hj)]⟩
    · rcases List.mem_cons.mp (hperm.mem_iff.mp ht) with rfl | ht
      · refine Or.inl ⟨n, Nat.lt_succ_self n, w.heap task'.ref, ?_⟩
        rw [Function.update_self, ← heq]
        rfl
      · exact Or.inr ⟨task', ht, heq⟩

theorem initial (rt : Runtime) (l : Tid → View) : Holdings rt.initial l 0 where
  mine := by simp
  queued := by simp [Runtime.initial, Scheduler.tasks]
  owned := by simp [Runtime.initial]

end Holdings

end TransferFabric
