import TransferFabric.Runtime.WorldSteps

/-!
How the views of the threads hang together with the shared world. A thread that
has a record knows its contents, no two threads have the same record, a queued
record is in nobody's hands, every record has one maker, and what a thread has
been told about terminal records stays true.
-/

namespace TransferFabric

open Interaction

variable {rt : Runtime} {careful : Prop} {w w' : World} {l : Tid → View} {n i : Nat} {c : RtCall}
  {x : RtAnswer c} {v : View}

/-! What the threads have asked so far. -/

structure History (w : World) (l : Tid → View) (n : Nat) : Prop where
  length : w.calls.length = n
  op : ∀ i < n, w.calls[i]? = some (l i).op
  me : ∀ i < n, (l i).me = i
  looked : ∀ i < n, (l i).looked = lookups (w.past i)
  awaited : ∀ i < n, (l i).awaited = waits (w.past i)
  raised : ∀ i < n, (l i).raised = raises (w.past i)
  silent : ∀ i ≥ n, w.past i = []

theorem History.act (h : History w l n) (hi : i < n) :
    History (w.after i c x) (Function.update l i ((l i).after c x)) n := by
  have hw := w.after_changes i c x
  have hm := (l i).after_changes c x
  have hpast : ∀ j, j ≠ i → (w.after i c x).past j = w.past j := fun j hj => by
    rw [hw.past, Function.update_of_ne hj]
  have hself : (w.after i c x).past i = w.past i ++ [⟨c, x⟩] := by
    rw [hw.past, Function.update_self]
  refine ⟨by rw [hw.calls, h.length], ?_, ?_, ?_, ?_, ?_, ?_⟩
  · rw [hw.calls]
    exact forall_update (P := fun j (m : View) => w.calls[j]? = some m.op) (by rw [hm.op, h.op i hi])
      fun j hj _ => h.op j hj
  · exact forall_update (P := fun j (m : View) => m.me = j) (by rw [hm.me, h.me i hi]) fun j hj _ => h.me j hj
  · refine forall_update (P := fun j (m : View) => m.looked = lookups ((w.after i c x).past j)) ?_
      fun j hj hne => by rw [hpast j hne, h.looked j hj]
    rw [hm.looked, hself, h.looked i hi]
    exact (List.filterMap_append ..).symm
  · refine forall_update (P := fun j (m : View) => m.awaited = waits ((w.after i c x).past j)) ?_
      fun j hj hne => by rw [hpast j hne, h.awaited j hj]
    rw [hm.awaited, hself, h.awaited i hi]
    exact (List.filterMap_append ..).symm
  · refine forall_update (P := fun j (m : View) => m.raised = raises ((w.after i c x).past j)) ?_
      fun j hj hne => by rw [hpast j hne, h.raised j hj]
    rw [hm.raised, hself, h.raised i hi]
    exact (List.filterMap_append ..).symm
  · intro j hj
    rw [hpast j (by omega), h.silent j hj]

/-- A thread that has just started has asked nothing. -/
structure View.New (v : View) (n : Nat) : Prop where
  me : v.me = n
  made : v.made = none
  looked : v.looked = []
  awaited : v.awaited = []
  raised : v.raised = []
  created : v.created = false
  handed : v.handed = false
  closed : v.closed = none
  counted : v.counted = none

theorem History.start (h : History w l n) (hcalls : w'.calls = w.calls ++ [v.op])
    (hpast : w'.past = w.past) (hv : v.New n) : History w' (Function.update l n v) (n + 1) := by
  have hsilent : w.past n = [] := h.silent n (Nat.le_refl n)
  refine ⟨by rw [hcalls, List.length_append, h.length]; rfl, ?_, ?_, ?_, ?_, ?_, ?_⟩
  · rw [hcalls]
    refine forall_start (P := fun j (m : View) => (w.calls ++ [v.op])[j]? = some m.op) ?_ fun j hj => ?_
    · rw [← h.length, List.getElem?_concat_length]
    · rw [List.getElem?_append_left (by rw [h.length]; exact hj), h.op j hj]
  · exact forall_start (P := fun j (m : View) => m.me = j) hv.me h.me
  · rw [hpast]
    exact forall_start (P := fun j (m : View) => m.looked = lookups (w.past j))
      (by rw [hv.looked, hsilent]; rfl) h.looked
  · rw [hpast]
    exact forall_start (P := fun j (m : View) => m.awaited = waits (w.past j))
      (by rw [hv.awaited, hsilent]; rfl) h.awaited
  · rw [hpast]
    exact forall_start (P := fun j (m : View) => m.raised = raises (w.past j))
      (by rw [hv.raised, hsilent]; rfl) h.raised
  · intro j hj
    rw [hpast]
    exact h.silent j (by omega)

/-! Who has which record. -/

structure Records (w : World) (l : Tid → View) (n : Nat) : Prop where
  own : ∀ i < n, ∀ r t, (l i).own = some (r, t) → r < w.next ∧ w.heap r = t
  apart : ∀ i < n, ∀ j < n, ∀ r t t', (l i).own = some (r, t) → (l j).own = some (r, t') → i = j
  made : ∀ i < n, ∀ r id, (l i).made = some (r, id) →
    r < w.next ∧ (w.heap r).maker = i ∧ (w.heap r).id = id
  maker : ∀ r < w.next,
    (w.heap r).maker < n ∧ (l (w.heap r).maker).made = some (r, (w.heap r).id)
  submitted : ∀ i < n, ∀ r id, (l i).made = some (r, id) → (l i).op = .submit (w.heap r).opts
  /-- A client has no record but its own. -/
  hand : ∀ i < n, (l i).op.isWork = false → ∀ r t, (l i).own = some (r, t) →
    ∃ id, (l i).made = some (r, id)
  /-- A submission has its record in hand until the scheduler takes it. -/
  kept : ∀ i < n, ∀ r id, (l i).made = some (r, id) → (l i).handed = false →
    (∃ t, (l i).own = some (r, t)) ∧ (w.heap r).done = []
  queued : ∀ t ∈ w.scheduler.tasks, t.ref < w.next ∧ (w.heap t.ref).Ready ∧
    ∀ i < n, ∀ t', (l i).own ≠ some (t.ref, t')
  distinct : (w.scheduler.tasks.map Task.ref).Nodup
  registered : ∀ id r, w.transfers id = some r → r < w.next ∧ (w.heap r).id = id
  /-- An id that was ever given to a record leads to this record or to a later one. -/
  covered : ∀ r < w.next, ∃ r' ≥ r, w.transfers (w.heap r).id = some r'

namespace Records

/-- What one thread writes is not written to the record of another. -/
theorem unwritten (h : Records w l n) (hi : i < n) (hp : (l i).Permits rt careful c)
    (hc : ∀ t, c ≠ .insert t) {j : Nat} (hj : j < n) (hne : j ≠ i) {r : Ref} {t : Transfer}
    (hown : (l j).own = some (r, t)) : (w.after i c x).heap r = w.heap r := by
  rw [(w.after_changes i c x).heap hc r, if_neg]
  intro hedits
  obtain ⟨t', hown'⟩ := hp.owned hedits
  exact hne (h.apart j hj i hi r t t' hown hown')

theorem same_of_ordinary (hc : ∀ t, c ≠ .insert t) (r : Ref) :
    (w.heap r).Same ((w.after i c x).heap r) := by
  rw [(w.after_changes i c x).heap hc r]
  split_ifs
  · exact RtCall.edit_same _ c x
  · exact ⟨rfl, rfl, rfl⟩

/-- A call that neither makes a record nor gives it away. -/
theorem ordinary (h : Records w l n) (hi : i < n) (hp : (l i).Permits rt careful c)
    (hc : ∀ t, c ≠ .insert t) (hs : ∀ t, c ≠ .schedule t) :
    Records (w.after i c x) (Function.update l i ((l i).after c x)) n := by
  have hw := w.after_changes i c x
  have hm := (l i).after_changes c x
  have hsame := same_of_ordinary (w := w) (i := i) (x := x) hc
  have hother : ∀ j < n, j ≠ i → ∀ r t, (l j).own = some (r, t) →
      (w.after i c x).heap r = w.heap r := fun j hj hne r t hown =>
    h.unwritten hi hp hc hj hne hown
  -- nobody gets or loses a record
  have hviews : ∀ j < n, ∀ r t, (Function.update l i ((l i).after c x) j).own = some (r, t) →
      ∃ t', (l j).own = some (r, t') := by
    refine forall_update (P := fun j (m : View) => ∀ r t, m.own = some (r, t) →
      ∃ t', (l j).own = some (r, t')) ?_ fun j _ _ r t hr => ⟨t, hr⟩
    intro r t hr
    obtain ⟨t', hr', -⟩ := hm.own_back hc hs hr
    exact ⟨t', hr'⟩
  refine ⟨?_, ?_, ?_, ?_, ?_, ?_, ?_, ?_, by rw [hw.tasks hs]; exact h.distinct, ?_, ?_⟩
  · rw [hw.next hc]
    refine forall_update (P := fun j (m : View) => ∀ r t, m.own = some (r, t) →
      r < w.next ∧ (w.after i c x).heap r = t) ?_ fun j hj hne r t hr => ?_
    · intro r t hr
      obtain ⟨t', hr', ht⟩ := hm.own_back hc hs hr
      obtain ⟨hlt, heq⟩ := h.own i hi r t' hr'
      exact ⟨hlt, by rw [hw.heap hc, heq, ht]⟩
    · obtain ⟨hlt, heq⟩ := h.own j hj r t hr
      exact ⟨hlt, by rw [hother j hj hne r t hr, heq]⟩
  · intro j hj k hk r t t' hjr hkr
    obtain ⟨tj, hjr⟩ := hviews j hj r t hjr
    obtain ⟨tk, hkr⟩ := hviews k hk r t' hkr
    exact h.apart j hj k hk r tj tk hjr hkr
  · rw [hw.next hc]
    refine forall_update (P := fun j (m : View) => ∀ r id, m.made = some (r, id) →
      r < w.next ∧ ((w.after i c x).heap r).maker = j ∧ ((w.after i c x).heap r).id = id) ?_
      fun j hj _ r id hr => ?_
    · intro r id hr
      rw [(hsame r).maker, (hsame r).id]
      exact h.made i hi r id (hm.made hc ▸ hr)
    · rw [(hsame r).maker, (hsame r).id]
      exact h.made j hj r id hr
  · intro r hr
    rw [(hsame r).maker, (hsame r).id]
    obtain ⟨hlt, hmk⟩ := h.maker r (hw.next hc ▸ hr)
    refine ⟨hlt, ?_⟩
    by_cases hi' : (w.heap r).maker = i
    · rw [hi', Function.update_self, hm.made hc, ← hi', hmk]
    · rw [Function.update_of_ne hi', hmk]
  · refine forall_update (P := fun j (m : View) => ∀ r id, m.made = some (r, id) →
      m.op = .submit ((w.after i c x).heap r).opts) ?_ fun j hj _ r id hr => ?_
    · intro r id hr
      rw [hm.op, (hsame r).opts]
      exact h.submitted i hi r id (hm.made hc ▸ hr)
    · rw [(hsame r).opts]
      exact h.submitted j hj r id hr
  · refine forall_update (P := fun j (m : View) => m.op.isWork = false → ∀ r t,
      m.own = some (r, t) → ∃ id, m.made = some (r, id)) ?_ fun j hj _ => h.hand j hj
    intro hwork r t hr
    obtain ⟨t', hr', -⟩ := hm.own_back hc hs hr
    rw [hm.made hc]
    exact h.hand i hi (hm.op ▸ hwork) r t' hr'
  · refine forall_update (P := fun j (m : View) => ∀ r id, m.made = some (r, id) →
      m.handed = false → (∃ t, m.own = some (r, t)) ∧ ((w.after i c x).heap r).done = []) ?_
      fun j hj hne r id hr hh => ?_
    · intro r id hr hh
      rw [hm.made hc] at hr
      obtain ⟨⟨t, ht⟩, hdone⟩ := h.kept i hi r id hr (hm.handed hs ▸ hh)
      refine ⟨hm.own_forth hc hs ht, ?_⟩
      rw [hw.heap hc r]
      split_ifs with hedits
      · have hwork : (l i).op.isWork = false := by rw [h.submitted i hi r id hr]; rfl
        obtain ⟨-, heq⟩ := h.own i hi r t ht
        rw [heq, (hp.write hedits ht x).done_grows hwork, ← heq, hdone]
      · exact hdone
    · obtain ⟨⟨t, ht⟩, hdone⟩ := h.kept j hj r id hr hh
      exact ⟨⟨t, ht⟩, by rw [hother j hj hne r t ht, hdone]⟩
  · intro t ht
    rw [hw.tasks hs] at ht
    obtain ⟨hlt, hready, hfree⟩ := h.queued t ht
    refine ⟨by rwa [hw.next hc], ?_, fun j hj t' hjr => ?_⟩
    · rw [hw.heap hc, if_neg]
      · exact hready
      · intro hedits
        obtain ⟨t', hir⟩ := hp.owned hedits
        exact hfree i hi t' hir
    · obtain ⟨t'', hjr⟩ := hviews j hj t.ref t' hjr
      exact hfree j hj t'' hjr
  · intro id r hr
    rw [hw.next hc, (hsame r).id]
    exact h.registered id r (hw.transfers hc ▸ hr)
  · intro r hr
    rw [(hsame r).id, hw.transfers hc]
    exact h.covered r (hw.next hc ▸ hr)

/-- A submission makes its record. -/
theorem insert (h : Records w l n) (hi : i < n) (hme : (l i).me = i) {t : Transfer}
    (hidle : (l i).Idle) (hfresh : t.Fresh) (hop : (l i).op = .submit t.opts) :
    Records (w.after i (.insert t) w.next)
      (Function.update l i ((l i).after (.insert t) w.next)) n := by
  have hold : ∀ r, r ≠ w.next → (w.after i (.insert t) w.next).heap r = w.heap r :=
    fun r hr => Function.update_of_ne hr _ _
  have hlt : ∀ r, r < w.next → (w.after i (.insert t) w.next).heap r = w.heap r :=
    fun r hr => hold r (Nat.ne_of_lt hr)
  have hnew : (w.after i (.insert t) w.next).heap w.next = { t with maker := i } :=
    Function.update_self ..
  have hnext : (w.after i (.insert t) w.next).next = w.next + 1 := rfl
  have htransfers : (w.after i (.insert t) w.next).transfers =
      Function.update w.transfers t.id (some w.next) := rfl
  have htasks : (w.after i (.insert t) w.next).scheduler.tasks = w.scheduler.tasks := rfl
  have hview : (l i).after (.insert t) w.next =
      { l i with made := some (w.next, t.id), own := some (w.next, { t with maker := i }) } := by
    have hmk : ({ t with maker := (l i).me } : Transfer) = { t with maker := i } := by rw [hme]
    rw [View.after, View.edit_none _ rfl, View.learn, hmk]
  rw [hview]
  generalize w.after i (.insert t) w.next = w₁ at *
  -- the records others have are older than the new one
  have holder : ∀ j < n, ∀ r t', (l j).own = some (r, t') → r < w.next := fun j hj r t' hr =>
    (h.own j hj r t' hr).1
  have hlast : w.next < w₁.next := hnext ▸ Nat.lt_succ_self _
  have hmore : ∀ r, r < w.next → r < w₁.next := fun r hr => Nat.lt_trans hr hlast
  have hsplit : ∀ r, r < w₁.next → r ≠ w.next → r < w.next := fun r hr hne =>
    Nat.lt_of_le_of_ne (Nat.le_of_lt_succ (Nat.lt_of_lt_of_eq hr hnext)) hne
  have hmaker : ∀ r < w.next, (w.heap r).maker ≠ i := by
    intro r hr hmk
    have := (h.maker r hr).2
    rw [hmk, hidle.made] at this
    cases this
  refine ⟨?_, ?_, ?_, ?_, ?_, ?_, ?_, ?_, by rw [htasks]; exact h.distinct, ?_, ?_⟩
  · refine forall_update (P := fun j (m : View) => ∀ r t', m.own = some (r, t') →
      r < w₁.next ∧ w₁.heap r = t') ?_ fun j hj _ r t' hr => ?_
    · intro r t' hr
      obtain ⟨rfl, rfl⟩ := Prod.mk.inj (Option.some.inj hr)
      exact ⟨hlast, hnew⟩
    · obtain ⟨hr', heq⟩ := h.own j hj r t' hr
      exact ⟨hmore r hr', by rw [hlt r hr', heq]⟩
  · have hone : ∀ j < n, j ≠ i → ∀ r t', (l j).own = some (r, t') → r ≠ w.next :=
      fun j hj _ r t' hr => Nat.ne_of_lt (holder j hj r t' hr)
    intro j hj k hk r tj tk hjr hkr
    by_cases hji : j = i <;> by_cases hki : k = i
    · rw [hji, hki]
    · subst hji
      rw [Function.update_self] at hjr
      rw [Function.update_of_ne hki] at hkr
      exact absurd (Prod.mk.inj (Option.some.inj hjr)).1.symm (hone k hk hki r tk hkr)
    · subst hki
      rw [Function.update_self] at hkr
      rw [Function.update_of_ne hji] at hjr
      exact absurd (Prod.mk.inj (Option.some.inj hkr)).1.symm (hone j hj hji r tj hjr)
    · rw [Function.update_of_ne hji] at hjr
      rw [Function.update_of_ne hki] at hkr
      exact h.apart j hj k hk r tj tk hjr hkr
  · refine forall_update (P := fun j (m : View) => ∀ r id, m.made = some (r, id) →
      r < w₁.next ∧ (w₁.heap r).maker = j ∧ (w₁.heap r).id = id) ?_ fun j hj _ r id hr => ?_
    · intro r id hr
      obtain ⟨rfl, rfl⟩ := Prod.mk.inj (Option.some.inj hr)
      rw [hnew]
      exact ⟨hlast, rfl, rfl⟩
    · obtain ⟨hr', hmk, hid⟩ := h.made j hj r id hr
      rw [hlt r hr']
      exact ⟨hmore r hr', hmk, hid⟩
  · intro r hr
    by_cases hrn : r = w.next
    · subst hrn
      rw [hnew, Function.update_self]
      exact ⟨hi, rfl⟩
    · have hr' : r < w.next := hsplit r hr hrn
      rw [hlt r hr', Function.update_of_ne (hmaker r hr')]
      exact h.maker r hr'
  · refine forall_update (P := fun j (m : View) => ∀ r id, m.made = some (r, id) →
      m.op = .submit (w₁.heap r).opts) ?_ fun j hj _ r id hr => ?_
    · intro r id hr
      obtain ⟨rfl, rfl⟩ := Prod.mk.inj (Option.some.inj hr)
      rw [hnew]
      exact hop
    · rw [hlt r (h.made j hj r id hr).1]
      exact h.submitted j hj r id hr
  · refine forall_update (P := fun j (m : View) => m.op.isWork = false → ∀ r t',
      m.own = some (r, t') → ∃ id, m.made = some (r, id)) ?_ fun j hj _ => h.hand j hj
    intro _ r t' hr
    obtain ⟨rfl, rfl⟩ := Prod.mk.inj (Option.some.inj hr)
    exact ⟨t.id, rfl⟩
  · refine forall_update (P := fun j (m : View) => ∀ r id, m.made = some (r, id) →
      m.handed = false → (∃ t', m.own = some (r, t')) ∧ (w₁.heap r).done = []) ?_
      fun j hj _ r id hr hh => ?_
    · intro r id hr _
      obtain ⟨rfl, rfl⟩ := Prod.mk.inj (Option.some.inj hr)
      rw [hnew]
      exact ⟨⟨_, rfl⟩, hfresh.idle⟩
    · rw [hlt r (h.made j hj r id hr).1]
      exact h.kept j hj r id hr hh
  · intro task ht
    rw [htasks] at ht
    obtain ⟨hr, hready, hfree⟩ := h.queued task ht
    refine ⟨hmore _ hr, by rwa [hlt _ hr], ?_⟩
    refine forall_update (P := fun j (m : View) => ∀ t', m.own ≠ some (task.ref, t')) ?_
      fun j hj _ => hfree j hj
    intro t' hr'
    exact absurd (Prod.mk.inj (Option.some.inj hr')).1.symm (Nat.ne_of_lt hr)
  · intro id r hr
    rw [htransfers] at hr
    by_cases hid : id = t.id
    · subst hid
      rw [Function.update_self] at hr
      obtain rfl := Option.some.inj hr
      rw [hnew]
      exact ⟨hlast, rfl⟩
    · rw [Function.update_of_ne hid] at hr
      obtain ⟨hr', heq⟩ := h.registered id r hr
      rw [hlt r hr']
      exact ⟨hmore r hr', heq⟩
  · intro r hr
    rw [htransfers]
    by_cases hrn : r = w.next
    · subst hrn
      rw [hnew]
      exact ⟨w.next, Nat.le_refl _, Function.update_self ..⟩
    · have hr' : r < w.next := hsplit r hr hrn
      rw [hlt r hr']
      by_cases hid : (w.heap r).id = t.id
      · rw [hid]
        exact ⟨w.next, Nat.le_of_lt hr', Function.update_self ..⟩
      · rw [Function.update_of_ne hid]
        exact h.covered r hr'

/-- The scheduler takes a record, or refuses it. -/
theorem schedule (h : Records w l n) (hi : i < n) {task : Task}
    (hp : (l i).Permits rt careful (.schedule task)) {accepted : Bool}
    (hx : w.Answers (.schedule task) accepted) :
    Records (w.after i (.schedule task) accepted)
      (Function.update l i ((l i).after (.schedule task) accepted)) n := by
  obtain ⟨t, hown, hready, -, hhanded, -, hclient, -⟩ := hp
  obtain ⟨hlt, hheap⟩ := h.own i hi _ t hown
  have hnot : ∀ task' ∈ w.scheduler.tasks, task'.ref ≠ task.ref := fun task' ht heq =>
    (h.queued task' ht).2.2 i hi t (heq ▸ hown)
  have hanswer := hx.schedule
  cases hsub : w.scheduler.submit task with
  | mk accepted' queue =>
  rw [hsub] at hanswer
  obtain rfl : accepted = accepted' := hanswer
  have hw := w.after_changes i (.schedule task) accepted
  have hsame : (w.after i (.schedule task) accepted).heap = w.heap :=
    funext fun r => hw.heap (fun _ h => by cases h) r
  have hnext := hw.next fun _ h => by cases h
  have htransfers := hw.transfers fun _ h => by cases h
  have hqueue : (w.after i (.schedule task) accepted).scheduler = queue := by
    show (w.scheduler.submit task).2 = queue
    rw [hsub]
  generalize w.after i (.schedule task) accepted = w₁ at *
  rw [View.after, View.edit_none _ rfl]
  cases accepted with
  | false =>
      have hqueue : w₁.scheduler = w.scheduler := hqueue.trans (Scheduler.submit_false hsub)
      show Records _ (Function.update l i (l i)) n
      rw [Function.update_eq_self]
      refine ⟨?_, h.apart, ?_, ?_, ?_, h.hand, ?_, ?_, ?_, ?_, ?_⟩ <;>
        simp only [hsame, hnext, htransfers, hqueue]
      · exact h.own
      · exact h.made
      · exact h.maker
      · exact h.submitted
      · exact h.kept
      · exact h.queued
      · exact h.distinct
      · exact h.registered
      · exact h.covered
  | true =>
      have hperm := Scheduler.submit_tasks hsub
      rw [← hqueue] at hperm
      show Records _ (Function.update l i { l i with handed := true, own := none }) n
      have hviews : ∀ j < n, ∀ r t', (Function.update l i { l i with handed := true, own := none } j).own
          = some (r, t') → j ≠ i ∧ (l j).own = some (r, t') := by
        intro j _ r t' hr
        by_cases hji : j = i
        · subst hji
          rw [Function.update_self] at hr
          cases hr
        · rw [Function.update_of_ne hji] at hr
          exact ⟨hji, hr⟩
      refine ⟨?_, ?_, ?_, ?_, ?_, ?_, ?_, ?_, ?_, ?_, ?_⟩
      · intro j hj r t' hr
        rw [hnext, hsame]
        exact h.own j hj r t' (hviews j hj r t' hr).2
      · intro j hj k hk r tj tk hjr hkr
        exact h.apart j hj k hk r tj tk (hviews j hj r tj hjr).2 (hviews k hk r tk hkr).2
      · rw [hnext, hsame]
        exact forall_update (P := fun j (m : View) => ∀ r id, m.made = some (r, id) →
          r < w.next ∧ (w.heap r).maker = j ∧ (w.heap r).id = id) (h.made i hi)
          fun j hj _ => h.made j hj
      · rw [hnext, hsame]
        intro r hr
        obtain ⟨hmlt, hmade⟩ := h.maker r hr
        refine ⟨hmlt, ?_⟩
        by_cases hmk : (w.heap r).maker = i
        · rw [hmk] at hmade ⊢
          rw [Function.update_self]
          exact hmade
        · rw [Function.update_of_ne hmk]
          exact hmade
      · rw [hsame]
        exact forall_update (P := fun j (m : View) => ∀ r id, m.made = some (r, id) →
          m.op = .submit (w.heap r).opts) (h.submitted i hi) fun j hj _ => h.submitted j hj
      · exact forall_update (P := fun j (m : View) => m.op.isWork = false → ∀ r t',
          m.own = some (r, t') → ∃ id, m.made = some (r, id)) (fun _ _ _ hr => by cases hr)
          fun j hj _ => h.hand j hj
      · rw [hsame]
        exact forall_update (P := fun j (m : View) => ∀ r id, m.made = some (r, id) →
          m.handed = false → (∃ t', m.own = some (r, t')) ∧ (w.heap r).done = [])
          (fun _ _ _ hh => by cases hh) fun j hj _ => h.kept j hj
      · intro task' ht
        rw [hnext, hsame]
        rcases List.mem_cons.mp (hperm.mem_iff.mp ht) with rfl | ht
        · refine ⟨hlt, by rwa [hheap], fun j hj t' hr => ?_⟩
          obtain ⟨hji, hr⟩ := hviews j hj _ t' hr
          exact hji (h.apart j hj i hi _ t' t hr hown)
        · obtain ⟨hr, hready', hfree⟩ := h.queued task' ht
          exact ⟨hr, hready', fun j hj t' hr' => hfree j hj t' (hviews j hj _ t' hr').2⟩
      · rw [(hperm.map Task.ref).nodup_iff]
        refine List.nodup_cons.mpr ⟨fun hmem => ?_, h.distinct⟩
        obtain ⟨task', ht, heq⟩ := List.mem_map.mp hmem
        exact hnot task' ht heq
      · rw [hnext, hsame, htransfers]
        exact h.registered
      · rw [hnext, hsame, htransfers]
        exact h.covered

theorem act (h : Records w l n) (hi : i < n) (hme : (l i).me = i)
    (hp : (l i).Permits rt careful c) (hx : w.Answers c x) :
    Records (w.after i c x) (Function.update l i ((l i).after c x)) n := by
  cases c with
  | insert t =>
      obtain rfl := hx.insert
      exact h.insert hi hme hp.1 hp.2.1 hp.2.2.1
  | schedule task => exact h.schedule hi hp hx
  | _ => exact h.ordinary hi hp (fun _ h => by cases h) (fun _ h => by cases h)

/-- A thread starts. A worker takes the record of its task from the queue; a client
starts without a record. -/
theorem start (h : Records w l n) (taken : List Task) (hheap : w'.heap = w.heap)
    (hnext : w'.next = w.next) (htransfers : w'.transfers = w.transfers)
    (hperm : List.Perm w.scheduler.tasks (taken ++ w'.scheduler.tasks)) (hv : v.New n)
    (hown : ∀ r t, v.own = some (r, t) →
      v.op.isWork = true ∧ t = w.heap r ∧ ∃ task ∈ taken, task.ref = r) :
    Records w' (Function.update l n v) (n + 1) := by
  have hrefs : (taken.map Task.ref ++ w'.scheduler.tasks.map Task.ref).Nodup := by
    rw [← List.map_append]
    exact (hperm.map Task.ref).nodup_iff.mp h.distinct
  have htaken : ∀ task ∈ taken, task ∈ w.scheduler.tasks := fun task ht =>
    hperm.mem_iff.mpr (List.mem_append_left _ ht)
  have hleft : ∀ task ∈ w'.scheduler.tasks, task ∈ w.scheduler.tasks := fun task ht =>
    hperm.mem_iff.mpr (List.mem_append_right _ ht)
  have hviews : ∀ j < n + 1, ∀ r t, (Function.update l n v j).own = some (r, t) →
      j = n ∧ v.own = some (r, t) ∨ j < n ∧ (l j).own = some (r, t) :=
    forall_start (P := fun j (m : View) => ∀ r t, m.own = some (r, t) →
      j = n ∧ v.own = some (r, t) ∨ j < n ∧ (l j).own = some (r, t))
      (fun r t hr => Or.inl ⟨rfl, hr⟩) fun j hj r t hr => Or.inr ⟨hj, hr⟩
  have hfree : ∀ r t, v.own = some (r, t) → ∀ j < n, ∀ t', (l j).own ≠ some (r, t') := by
    intro r t hr
    obtain ⟨-, -, task, ht, rfl⟩ := hown r t hr
    exact (h.queued task (htaken task ht)).2.2
  have hmade : ∀ j < n + 1, ∀ r id, (Function.update l n v j).made = some (r, id) →
      j < n ∧ Function.update l n v j = l j := by
    intro j hj r id hr
    by_cases hjn : j = n
    · subst hjn
      rw [Function.update_self, hv.made] at hr
      cases hr
    · exact ⟨by omega, Function.update_of_ne hjn _ _⟩
  refine ⟨?_, ?_, ?_, ?_, ?_, ?_, ?_, ?_, hrefs.of_append_right, ?_, ?_⟩
  · intro j hj r t hr
    rw [hnext, hheap]
    rcases hviews j hj r t hr with ⟨-, hr⟩ | ⟨hj', hr'⟩
    · obtain ⟨-, rfl, task, ht, rfl⟩ := hown r t hr
      exact ⟨(h.queued task (htaken task ht)).1, rfl⟩
    · exact h.own j hj' r t hr'
  · intro j hj k hk r t t' hjr hkr
    rcases hviews j hj r t hjr with ⟨hjn, hjr⟩ | ⟨hj', hjr⟩ <;>
      rcases hviews k hk r t' hkr with ⟨hkn, hkr⟩ | ⟨hk', hkr⟩
    · exact hjn.trans hkn.symm
    · exact absurd hkr (hfree r t hjr k hk' t')
    · exact absurd hjr (hfree r t' hkr j hj' t)
    · exact h.apart j hj' k hk' r t t' hjr hkr
  · intro j hj r id hr
    rw [hnext, hheap]
    obtain ⟨hj', heq⟩ := hmade j hj r id hr
    exact h.made j hj' r id (heq ▸ hr)
  · intro r hr
    rw [hheap]
    obtain ⟨hlt, hmk⟩ := h.maker r (hnext ▸ hr)
    rw [Function.update_of_ne (Nat.ne_of_lt hlt)]
    exact ⟨Nat.lt_succ_of_lt hlt, hmk⟩
  · intro j hj r id hr
    obtain ⟨hj', heq⟩ := hmade j hj r id hr
    rw [heq] at hr ⊢
    rw [hheap]
    exact h.submitted j hj' r id hr
  · intro j hj hclient r t hr
    rcases hviews j hj r t hr with ⟨rfl, hr'⟩ | ⟨hj', hr'⟩
    · rw [Function.update_self, (hown r t hr').1] at hclient
      cases hclient
    · rw [Function.update_of_ne (Nat.ne_of_lt hj')] at hclient ⊢
      exact h.hand j hj' hclient r t hr'
  · intro j hj r id hr hh
    obtain ⟨hj', heq⟩ := hmade j hj r id hr
    rw [heq] at hr hh ⊢
    rw [hheap]
    exact h.kept j hj' r id hr hh
  · intro task ht
    rw [hnext, hheap]
    obtain ⟨hlt, hready, hfree'⟩ := h.queued task (hleft task ht)
    refine ⟨hlt, hready, fun j hj t' hr => ?_⟩
    rcases hviews j hj _ t' hr with ⟨-, hr⟩ | ⟨hj', hr'⟩
    · obtain ⟨-, -, task', ht', heq⟩ := hown _ t' hr
      exact (List.nodup_append'.mp hrefs).2.2 (heq ▸ List.mem_map_of_mem ht')
        (List.mem_map_of_mem ht)
    · exact hfree' j hj' t' hr'
  · rw [htransfers, hnext, hheap]
    exact h.registered
  · rw [htransfers, hnext, hheap]
    exact h.covered

/-- An existing record stays as it is, or the thread that has it writes to it. -/
theorem writes (h : Records w l n) (hi : i < n) (hp : (l i).Permits rt careful c)
    (hx : w.Answers c x) {r : Ref} (hr : r < w.next) :
    (w.after i c x).heap r = w.heap r ∨
      (∃ t, (l i).own = some (r, t)) ∧ (w.heap r).Write rt (l i) ((w.after i c x).heap r) := by
  by_cases hc : ∃ t, c = .insert t
  · obtain ⟨t, rfl⟩ := hc
    obtain rfl := hx.insert
    exact Or.inl (Function.update_of_ne (Nat.ne_of_lt hr) _ _)
  · rw [(w.after_changes i c x).heap (not_exists.mp hc) r]
    split_ifs with hedits
    · obtain ⟨t, hown⟩ := hp.owned hedits
      obtain ⟨-, heq⟩ := h.own i hi r t hown
      refine Or.inr ⟨⟨t, hown⟩, ?_⟩
      rw [heq]
      exact hp.write hedits hown x
    · exact Or.inl rfl

/-- Records are only ever added, and a new one is fresh. -/
theorem grows (hp : (l i).Permits rt careful c) (hx : w.Answers c x) :
    w.next ≤ (w.after i c x).next ∧ ∀ r < (w.after i c x).next, r < w.next ∨
      r = w.next ∧ ∃ t, c = .insert t ∧ t.Fresh ∧ (w.after i c x).heap r = { t with maker := i } := by
  by_cases hc : ∃ t, c = .insert t
  · obtain ⟨t, rfl⟩ := hc
    obtain rfl := hx.insert
    refine ⟨Nat.le_succ _, fun r hr => ?_⟩
    rcases Nat.lt_or_eq_of_le (Nat.le_of_lt_succ hr) with hlt | rfl
    · exact Or.inl hlt
    · exact Or.inr ⟨rfl, t, rfl, hp.2.1, Function.update_self ..⟩
  · rw [(w.after_changes i c x).next (not_exists.mp hc)]
    exact ⟨Nat.le_refl _, fun r hr => Or.inl hr⟩

theorem same (h : Records w l n) (hi : i < n) (hp : (l i).Permits rt careful c)
    (hx : w.Answers c x) {r : Ref} (hr : r < w.next) :
    (w.heap r).Same ((w.after i c x).heap r) := by
  by_cases hc : ∃ t, c = .insert t
  · obtain ⟨t, rfl⟩ := hc
    rcases h.writes hi hp hx hr with heq | ⟨⟨t', hown⟩, -⟩
    · rw [heq]
      exact ⟨rfl, rfl, rfl⟩
    · rw [hp.1.own] at hown
      cases hown
  · exact same_of_ordinary (not_exists.mp hc) r

end Records

/-! What the records and the flags mean. -/

structure Truth (rt : Runtime) (w : World) (l : Tid → View) (n : Nat) : Prop where
  sound : ∀ r < w.next, (w.heap r).Sound rt
  found : ∀ i < n, ∀ id r, (id, some r) ∈ (l i).looked → r < w.next ∧ (w.heap r).id = id
  /-- What a thread saw of a terminal record is still so. -/
  awaited : ∀ i < n, ∀ r s, (r, s) ∈ (l i).awaited →
    r < w.next ∧ (w.heap r).state = s ∧ s.isTerminal = true
  /-- A record is queued, and the scheduler has it, only after its maker saw all its
  dependencies completed. -/
  gate : ∀ i < n, ∀ r id, (l i).made = some (r, id) →
    (l i).handed = true ∨ (w.heap r).state = .queued → (l i).Cleared (w.heap r)
  flags : ∀ r, w.cancel r = true → ∃ i < n, r ∈ (l i).raised ∧ ∃ id, (l i).op = .cancel id

theorem mem_lookups_single {id : TransferId} {o : Option Ref} {ev : RtEvent}
    (h : (id, o) ∈ lookups [ev]) : ev = ⟨.find id, o⟩ := by
  obtain ⟨c, x⟩ := ev
  cases c with
  | find d =>
      obtain ⟨rfl, rfl⟩ := Prod.mk.inj (List.mem_singleton.mp h)
      rfl
  | _ => exact absurd h List.not_mem_nil

theorem mem_waits_single {r : Ref} {s : TransferState} {ev : RtEvent} (h : (r, s) ∈ waits [ev]) :
    ev = ⟨.awaitTerminal r, s⟩ := by
  obtain ⟨c, x⟩ := ev
  cases c with
  | awaitTerminal r' =>
      obtain ⟨rfl, rfl⟩ := Prod.mk.inj (List.mem_singleton.mp h)
      rfl
  | _ => exact absurd h List.not_mem_nil

/-- Being cleared only needs the maker's knowledge to grow by waits. -/
theorem View.Cleared.mono {m m' : View} {t t' : Transfer} (h : m.Cleared t)
    (hlooked : m'.looked = m.looked) (hawaited : ∀ p ∈ m.awaited, p ∈ m'.awaited)
    (hopts : t'.opts = t.opts) : m'.Cleared t' := by
  refine ⟨by rw [hlooked, hopts]; exact h.1, fun p hp => ?_⟩
  obtain ⟨r, hr, hmem⟩ := h.2 p (hlooked ▸ hp)
  exact ⟨r, hr, hawaited _ hmem⟩

theorem Transfer.Fresh.sound {t : Transfer} (h : t.Fresh) (i : Tid) :
    Transfer.Sound rt { t with maker := i } := by
  have hs : Transfer.state { t with maker := i } = .created := h.created
  refine ⟨fun hc => ?_, fun hc => ?_, ?_⟩
  · rw [hs] at hc
    cases hc
  · rw [hs] at hc
    cases hc
  · rw [hs]
    exact h.silent

namespace Truth

/-- A record that has ended keeps its status. -/
theorem final (hrec : Records w l n) (hi : i < n) (hp : (l i).Permits rt careful c)
    (hx : w.Answers c x) {r : Ref} (hr : r < w.next) (hterm : (w.heap r).state.isTerminal = true) :
    ((w.after i c x).heap r).status = (w.heap r).status := by
  rcases hrec.writes hi hp hx hr with heq | ⟨-, hwrite⟩
  · rw [heq]
  · exact (hwrite.final hterm).1

/-- What one thread does cannot open the gate for the record of another. -/
theorem gate_other (h : Truth rt w l n) (hrec : Records w l n) (hi : i < n)
    (hp : (l i).Permits rt careful c) (hx : w.Answers c x) {j : Nat} (hj : j < n) (hne : j ≠ i)
    (r : Ref) (id : TransferId) (hmade : (l j).made = some (r, id))
    (hgate : (l j).handed = true ∨ ((w.after i c x).heap r).state = .queued) :
    (l j).Cleared ((w.after i c x).heap r) := by
  have hr := (hrec.made j hj r id hmade).1
  refine View.Cleared.mono (h.gate j hj r id hmade ?_) rfl (fun _ hp => hp)
    (hrec.same hi hp hx hr).opts
  cases hh : (l j).handed with
  | true => exact Or.inl rfl
  | false =>
      refine Or.inr ?_
      have hqueued := hgate.resolve_left (by simp [hh])
      obtain ⟨⟨t, hown⟩, -⟩ := hrec.kept j hj r id hmade hh
      rcases hrec.writes hi hp hx hr with heq | ⟨⟨t', hown'⟩, -⟩
      · rwa [heq] at hqueued
      · exact absurd (hrec.apart j hj i hi r t t' hown hown') hne

/-- A thread opens the gate for its record only when it knows the dependencies. -/
theorem gate_self (h : Truth rt w l n) (hrec : Records w l n) (hi : i < n)
    (hp : (l i).Permits rt careful c) (hx : w.Answers c x) (r : Ref) (id : TransferId)
    (hmade : ((l i).after c x).made = some (r, id))
    (hgate : ((l i).after c x).handed = true ∨ ((w.after i c x).heap r).state = .queued) :
    ((l i).after c x).Cleared ((w.after i c x).heap r) := by
  have hm := (l i).after_changes c x
  by_cases hinsert : ∃ t, c = .insert t
  · obtain ⟨t, rfl⟩ := hinsert
    exfalso
    rw [hm.handed (fun _ h => by cases h), hp.1.handed] at hgate
    have hqueued := hgate.resolve_left Bool.false_ne_true
    have hmade' : some (x, t.id) = some (r, id) := hmade
    obtain ⟨rfl, -⟩ := Prod.mk.inj (Option.some.inj hmade')
    obtain rfl := hx.insert
    have hnew : (w.after i (.insert t) w.next).heap w.next = { t with maker := i } :=
      Function.update_self ..
    rw [hnew] at hqueued
    exact absurd (hp.2.1.created.symm.trans hqueued) (by decide)
  · replace hinsert := not_exists.mp hinsert
    rw [hm.made hinsert] at hmade
    have hr := (hrec.made i hi r id hmade).1
    by_cases hfind : ∃ d, c = .find d
    · obtain ⟨d, rfl⟩ := hfind
      exfalso
      rw [hm.handed (fun _ h => by cases h), hp.1] at hgate
      have hqueued := hgate.resolve_left Bool.false_ne_true
      obtain ⟨⟨t, hown⟩, -⟩ := hrec.kept i hi r id hmade hp.1
      rw [(w.after_changes i _ x).heap hinsert r, if_neg (by simp [RtCall.edits]),
        (hrec.own i hi r t hown).2, hp.2.2 r t hown] at hqueued
      cases hqueued
    · have hlooked : ((l i).after c x).looked = (l i).looked := by
        rw [hm.looked]
        have : lookups [(⟨c, x⟩ : RtEvent)] = [] := by
          cases c <;> first | rfl | exact absurd ⟨_, rfl⟩ hfind
        rw [this, List.append_nil]
      refine View.Cleared.mono (m := l i) (t := w.heap r) ?_ hlooked
        (fun p hp => by rw [hm.awaited]; exact List.mem_append_left _ hp)
        (hrec.same hi hp hx hr).opts
      rcases hgate with hhanded | hqueued
      · by_cases hschedule : ∃ task, c = .schedule task
        · obtain ⟨task, rfl⟩ := hschedule
          obtain ⟨t, hown, -, hcleared, -, -, hclient, -⟩ := hp
          obtain ⟨id', hmade'⟩ := hrec.hand i hi hclient _ t hown
          obtain ⟨rfl, -⟩ := Prod.mk.inj (Option.some.inj (hmade.symm.trans hmade'))
          rw [(hrec.own i hi _ t hown).2]
          exact hcleared
        · rw [hm.handed (not_exists.mp hschedule)] at hhanded
          exact h.gate i hi r id hmade (Or.inl hhanded)
      · rcases hrec.writes hi hp hx hr with heq | ⟨-, hwrite⟩
        · rw [heq] at hqueued
          exact h.gate i hi r id hmade (Or.inr hqueued)
        · rcases hwrite.queued hqueued with hq | hcleared
          · exact h.gate i hi r id hmade (Or.inr hq)
          · exact hcleared

theorem act (h : Truth rt w l n) (hrec : Records w l n) (hi : i < n)
    (hp : (l i).Permits rt careful c) (hx : w.Answers c x) :
    Truth rt (w.after i c x) (Function.update l i ((l i).after c x)) n := by
  have hw := w.after_changes i c x
  have hm := (l i).after_changes c x
  obtain ⟨hle, hgrow⟩ := Records.grows hp hx
  have hwrites := fun r (hr : r < w.next) => hrec.writes hi hp hx hr
  have hsame := fun r (hr : r < w.next) => hrec.same hi hp hx hr
  have hstate : ∀ r s, r < w.next → (w.heap r).state = s → s.isTerminal = true →
      ((w.after i c x).heap r).state = s := by
    intro r s hr hs hterm
    have := final hrec hi hp hx hr (by rw [hs]; exact hterm)
    exact (congrArg TransferStatus.state this).trans hs
  refine ⟨fun r hr => ?_, ?_, ?_, ?_, ?_⟩
  · rcases hgrow r hr with hlt | ⟨-, t, -, hfresh, heq⟩
    · rcases hwrites r hlt with heq | ⟨-, hwrite⟩
      · rw [heq]
        exact h.sound r hlt
      · exact hwrite.sound (h.sound r hlt)
    · rw [heq]
      exact hfresh.sound i
  · have hold : ∀ j < n, ∀ id r, (id, some r) ∈ (l j).looked →
        r < (w.after i c x).next ∧ ((w.after i c x).heap r).id = id := by
      intro j hj id r hmem
      obtain ⟨hr, hid⟩ := h.found j hj id r hmem
      exact ⟨Nat.lt_of_lt_of_le hr hle, by rw [(hsame r hr).id, hid]⟩
    refine forall_update (P := fun _ (m : View) => ∀ id r, (id, some r) ∈ m.looked →
      r < (w.after i c x).next ∧ ((w.after i c x).heap r).id = id) ?_ fun j hj _ => hold j hj
    intro id r hmem
    rw [hm.looked] at hmem
    rcases List.mem_append.mp hmem with hmem | hmem
    · exact hold i hi id r hmem
    · cases mem_lookups_single hmem
      obtain ⟨hr, hid⟩ := hrec.registered id r hx.find.symm
      exact ⟨Nat.lt_of_lt_of_le hr hle, by rw [(hsame r hr).id, hid]⟩
  · have hold : ∀ j < n, ∀ r s, (r, s) ∈ (l j).awaited →
        r < (w.after i c x).next ∧ ((w.after i c x).heap r).state = s ∧ s.isTerminal = true := by
      intro j hj r s hmem
      obtain ⟨hr, hs, hterm⟩ := h.awaited j hj r s hmem
      exact ⟨Nat.lt_of_lt_of_le hr hle, hstate r s hr hs hterm, hterm⟩
    refine forall_update (P := fun _ (m : View) => ∀ r s, (r, s) ∈ m.awaited →
      r < (w.after i c x).next ∧ ((w.after i c x).heap r).state = s ∧ s.isTerminal = true) ?_
      fun j hj _ => hold j hj
    intro r s hmem
    rw [hm.awaited] at hmem
    rcases List.mem_append.mp hmem with hmem | hmem
    · exact hold i hi r s hmem
    · cases mem_waits_single hmem
      obtain ⟨hs, hterm⟩ := hx.awaitTerminal
      obtain ⟨id, hfound⟩ := hp
      obtain ⟨hr, -⟩ := h.found i hi id r hfound
      exact ⟨Nat.lt_of_lt_of_le hr hle, hstate r s hr hs.symm hterm, hterm⟩
  · exact forall_update (P := fun j (m : View) => ∀ r id, m.made = some (r, id) →
      m.handed = true ∨ ((w.after i c x).heap r).state = .queued →
      m.Cleared ((w.after i c x).heap r)) (h.gate_self hrec hi hp hx)
      fun j hj hne => h.gate_other hrec hi hp hx hj hne
  · intro r hr
    have hmono : ∀ j < n, r ∈ (l j).raised ∧ (∃ id, (l j).op = .cancel id) →
        r ∈ (Function.update l i ((l i).after c x) j).raised ∧
          ∃ id, (Function.update l i ((l i).after c x) j).op = .cancel id := by
      refine forall_update (P := fun j (m : View) => r ∈ (l j).raised ∧
        (∃ id, (l j).op = .cancel id) → r ∈ m.raised ∧ ∃ id, m.op = .cancel id) ?_ fun j _ _ hj => hj
      rintro ⟨hmem, hop⟩
      rw [hm.raised, hm.op]
      exact ⟨List.mem_append_left _ hmem, hop⟩
    by_cases hc : ∃ r', c = .storeCancel r'
    · obtain ⟨r', rfl⟩ := hc
      have hcancel : (w.after i (.storeCancel r') x).cancel = Function.update w.cancel r' true := rfl
      rw [hcancel] at hr
      by_cases hrr : r = r'
      · subst hrr
        refine ⟨i, hi, ?_⟩
        rw [Function.update_self, hm.raised, hm.op]
        exact ⟨List.mem_append_right _ List.mem_cons_self, hp.2⟩
      · rw [Function.update_of_ne hrr] at hr
        obtain ⟨j, hj, hflag⟩ := h.flags r hr
        exact ⟨j, hj, hmono j hj hflag⟩
    · rw [hw.cancel (not_exists.mp hc)] at hr
      obtain ⟨j, hj, hflag⟩ := h.flags r hr
      exact ⟨j, hj, hmono j hj hflag⟩

theorem start (h : Truth rt w l n) (hheap : w'.heap = w.heap) (hnext : w'.next = w.next)
    (hcancel : w'.cancel = w.cancel) (hv : v.New n) :
    Truth rt w' (Function.update l n v) (n + 1) := by
  refine ⟨by rw [hnext, hheap]; exact h.sound, ?_, ?_, ?_, ?_⟩
  · rw [hnext, hheap]
    exact forall_start (P := fun _ (m : View) => ∀ id r, (id, some r) ∈ m.looked →
      r < w.next ∧ (w.heap r).id = id) (by simp [hv.looked]) h.found
  · rw [hnext, hheap]
    exact forall_start (P := fun _ (m : View) => ∀ r s, (r, s) ∈ m.awaited →
      r < w.next ∧ (w.heap r).state = s ∧ s.isTerminal = true) (by simp [hv.awaited]) h.awaited
  · rw [hheap]
    exact forall_start (P := fun _ (m : View) => ∀ r id, m.made = some (r, id) →
      m.handed = true ∨ (w.heap r).state = .queued → m.Cleared (w.heap r)) (by simp [hv.made]) h.gate
  · intro r hr
    rw [hcancel] at hr
    obtain ⟨j, hj, hflag⟩ := h.flags r hr
    refine ⟨j, Nat.lt_succ_of_lt hj, ?_⟩
    rwa [Function.update_of_ne (Nat.ne_of_lt hj)]

end Truth

end TransferFabric
