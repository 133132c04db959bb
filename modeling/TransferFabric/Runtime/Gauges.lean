import TransferFabric.Runtime.Accounting
import TransferFabric.Runtime.Flow

/-!
The two gauges of the runtime. Each counts the transfers that are between two
milestones, shown by the threads that serve the transfer: its submission and its
worker. The registers wrap at their width; the numbers they stand for are never
lowered at zero.
-/

namespace TransferFabric

open Interaction Relation

namespace World

/-- Thread `i` made the record or works on it. -/
def Serves (w : World) (i : Tid) (r : Ref) : Prop := (w.heap r).maker = i ∨ w.Works i r

instance (w : World) (i : Tid) (r : Ref) : Decidable (w.Serves i r) :=
  inferInstanceAs (Decidable (_ ∨ _))

/-- The transfers for which the first milestone has been shown and the second has not. -/
def between (w : World) (a b : Mark) : Finset Ref :=
  (Finset.range w.next).filter fun r =>
    (∃ i < w.calls.length, w.Serves i r ∧ a ∈ w.marks i) ∧
      ∀ i < w.calls.length, w.Serves i r → b ∉ w.marks i

/-- The transfers between `transfer_started` and `transfer_done`. -/
def running (w : World) : Finset Ref := w.between .begun .ended

/-- The transfers between `queue_pushed` and their `queue_popped`. -/
def waiting (w : World) : Finset Ref := w.between .pushed .popped

variable {w w' : World} {i : Tid} {c : RtCall} {x : RtAnswer c} {r : Ref} {a b : Mark}

/-- Threads that have not started have shown nothing. -/
def Silent (w : World) : Prop := ∀ i ≥ w.calls.length, w.marks i = []

theorem mem_between (hs : w.Silent) : r ∈ w.between a b ↔
    r < w.next ∧ (∃ i, w.Serves i r ∧ a ∈ w.marks i) ∧ ∀ i, w.Serves i r → b ∉ w.marks i := by
  have hlt : ∀ i (k : Mark), k ∈ w.marks i → i < w.calls.length := fun i k hk => by
    by_contra hge
    rw [hs i (Nat.le_of_not_lt hge)] at hk
    cases hk
  unfold between
  rw [Finset.mem_filter, Finset.mem_range]
  refine and_congr_right fun _ => and_congr ?_ ?_
  · exact exists_congr fun i => and_iff_right_of_imp fun hi => hlt i a hi.2
  · exact ⟨fun h i hi hb => h i (hlt i b hb) hi hb, fun h i _ => h i⟩

theorem after_serves (hc : ∀ t, c ≠ .insert t) {j : Tid} :
    (w.after i c x).Serves j r ↔ w.Serves j r := by
  unfold Serves
  rw [after_maker hc, after_works]

theorem after_silent (hs : w.Silent) (hi : i < w.calls.length) : (w.after i c x).Silent := by
  intro j hj
  have hw := w.after_changes i c x
  rw [hw.calls] at hj
  unfold marks
  rw [hw.past, Function.update_of_ne (Nat.ne_of_gt (Nat.lt_of_lt_of_le hi hj))]
  exact hs j hj

section Calls

variable (hs : w.Silent) (hi : i < w.calls.length) (hc : ∀ t, c ≠ .insert t)

include hs hi hc

theorem mem_after_between : r ∈ (w.after i c x).between a b ↔ r < w.next ∧
    (∃ j, w.Serves j r ∧ (a ∈ w.marks j ∨ j = i ∧ mark ⟨c, x⟩ = some a)) ∧
      ∀ j, w.Serves j r → ¬ (b ∈ w.marks j ∨ j = i ∧ mark ⟨c, x⟩ = some b) := by
  simp only [mem_between (after_silent hs hi), (w.after_changes i c x).next hc, after_serves hc,
    mem_after_marks]

theorem between_same (ha : mark ⟨c, x⟩ ≠ some a) (hb : mark ⟨c, x⟩ ≠ some b) :
    (w.after i c x).between a b = w.between a b := by
  ext r
  rw [mem_after_between hs hi hc, mem_between hs]
  simp [ha, hb]

/-- The thread serves this record and no other. -/
def ServesOnly (w : World) (i : Tid) (r : Ref) : Prop :=
  r < w.next ∧ w.Serves i r ∧ ∀ r' < w.next, w.Serves i r' → r' = r

theorem between_opens (hr : w.ServesOnly i r) (ha : mark ⟨c, x⟩ = some a) (hab : a ≠ b)
    (hnew : ∀ j, w.Serves j r → a ∉ w.marks j ∧ b ∉ w.marks j) :
    ∃ hnot : r ∉ w.between a b, (w.after i c x).between a b = (w.between a b).cons r hnot := by
  refine ⟨fun hmem => ?_, ?_⟩
  · obtain ⟨-, ⟨j, hj, hja⟩, -⟩ := (mem_between hs).mp hmem
    exact (hnew j hj).1 hja
  · obtain ⟨hlt, hserves, honly⟩ := hr
    ext r'
    rw [Finset.mem_cons, mem_after_between hs hi hc, mem_between hs, ha]
    simp only [Option.some_inj, hab, and_false, or_false, and_true]
    constructor
    · rintro ⟨hr', ⟨j, hj, hja | rfl⟩, hb⟩
      · exact Or.inr ⟨hr', ⟨j, hj, hja⟩, hb⟩
      · exact Or.inl (honly r' hr' hj)
    · rintro (rfl | ⟨hr', ⟨j, hj, hja⟩, hb⟩)
      · exact ⟨hlt, ⟨i, hserves, Or.inr rfl⟩, fun j hj => (hnew j hj).2⟩
      · exact ⟨hr', ⟨j, hj, Or.inl hja⟩, hb⟩

theorem between_closes (hr : w.ServesOnly i r) (hb : mark ⟨c, x⟩ = some b) (hab : b ≠ a) :
    (w.after i c x).between a b = (w.between a b).erase r := by
  obtain ⟨hlt, hserves, honly⟩ := hr
  ext r'
  rw [Finset.mem_erase, mem_after_between hs hi hc, mem_between hs, hb]
  simp only [Option.some_inj, hab, and_false, or_false, and_true, not_or]
  constructor
  · rintro ⟨hr', hopen, hnot⟩
    refine ⟨?_, hr', hopen, fun j hj => (hnot j hj).1⟩
    rintro rfl
    exact (hnot i hserves).2 rfl
  · rintro ⟨hne, hr', hopen, hnot⟩
    refine ⟨hr', hopen, fun j hj => ⟨hnot j hj, ?_⟩⟩
    rintro rfl
    exact hne (honly r' hr' hj)

/-- A register that counts the records between two milestones, one call later. -/
theorem between_counted (hab : a ≠ b)
    (hopen : mark ⟨c, x⟩ = some a → ∃ r, w.ServesOnly i r ∧
      ∀ j, w.Serves j r → a ∉ w.marks j ∧ b ∉ w.marks j)
    (hclose : mark ⟨c, x⟩ = some b → ∃ r, w.ServesOnly i r ∧ r ∈ w.between a b) {n n' : UInt64}
    (hn : n = UInt64.ofNat (w.between a b).card)
    (hn' : n' = if mark ⟨c, x⟩ = some a then n + 1 else if mark ⟨c, x⟩ = some b then n - 1 else n) :
    n' = UInt64.ofNat ((w.after i c x).between a b).card := by
  subst hn hn'
  split_ifs with ha hb
  · obtain ⟨r, hr, hnew⟩ := hopen ha
    obtain ⟨hnot, heq⟩ := between_opens hs hi hc hr ha hab hnew
    rw [heq, Finset.card_cons, UInt64.ofNat_add]
    rfl
  · obtain ⟨r, hr, hmem⟩ := hclose hb
    rw [between_closes hs hi hc hr hb (Ne.symm hab), ← Finset.card_erase_add_one hmem,
      UInt64.ofNat_add]
    exact UInt64.add_sub_cancel _ _
  · rw [between_same hs hi hc ha hb]

end Calls

/-- How the gauges move with a call. -/
theorem after_active (w : World) (i : Tid) (c : RtCall) (x : RtAnswer c) :
    (w.after i c x).telemetry.active =
      if mark ⟨c, x⟩ = some .begun then w.telemetry.active + 1
      else if mark ⟨c, x⟩ = some .ended then w.telemetry.active - 1 else w.telemetry.active := by
  by_cases hc : ∃ op, c = .count op
  · obtain ⟨op, rfl⟩ := hc
    have htel : (w.after i (.count op) x).telemetry = w.telemetry.apply op := rfl
    rw [htel]
    cases op with
    | stagingPoolHit hit => cases hit <;> rfl
    | _ => rfl
  · have hmark : mark ⟨c, x⟩ ≠ some .begun ∧ mark ⟨c, x⟩ ≠ some .ended := by
      cases c <;> simp_all [mark]
    rw [if_neg hmark.1, if_neg hmark.2]
    rcases after_telemetry x (not_exists.mp hc) with htel | ⟨hit, htel⟩
    · rw [htel]
    · rw [htel]
      cases hit <;> rfl

theorem after_queueDepth (w : World) (i : Tid) (c : RtCall) (x : RtAnswer c) :
    (w.after i c x).telemetry.queueDepth =
      if mark ⟨c, x⟩ = some .pushed then w.telemetry.queueDepth + 1
      else if mark ⟨c, x⟩ = some .popped then w.telemetry.queueDepth - 1
      else w.telemetry.queueDepth := by
  by_cases hc : ∃ op, c = .count op
  · obtain ⟨op, rfl⟩ := hc
    have htel : (w.after i (.count op) x).telemetry = w.telemetry.apply op := rfl
    rw [htel]
    cases op with
    | stagingPoolHit hit => cases hit <;> rfl
    | _ => rfl
  · have hmark : mark ⟨c, x⟩ ≠ some .pushed ∧ mark ⟨c, x⟩ ≠ some .popped := by
      cases c <;> simp_all [mark]
    rw [if_neg hmark.1, if_neg hmark.2]
    rcases after_telemetry x (not_exists.mp hc) with htel | ⟨hit, htel⟩
    · rw [htel]
    · rw [htel]
      cases hit <;> rfl

/-- A record that has just been made is not counted. -/
theorem between_insert (hs : w.Silent) (hi : i < w.calls.length) (hflow : Flow w) {t : Transfer}
    (hm : w.marks i = []) (ha : ∀ r s, a ≠ .made r s) (hb : ∀ r s, b ≠ .made r s) :
    (w.after i (.insert t) w.next).between a b = w.between a b := by
  have hmark : ∀ j (k : Mark), (∀ r s, k ≠ .made r s) →
      (k ∈ (w.after i (.insert t) w.next).marks j ↔ k ∈ w.marks j) := fun j k hk => by
    rw [mem_after_marks]
    refine or_iff_left ?_
    rintro ⟨-, hmade⟩
    exact hk _ _ (Option.some.inj hmade).symm
  have hnext : (w.after i (.insert t) w.next).next = w.next + 1 := rfl
  have hserves : ∀ r < w.next, ∀ j,
      (w.after i (.insert t) w.next).Serves j r ↔ w.Serves j r := fun r hr j => by
    rw [Serves, insert_heap_lt i t hr, after_works]
    rfl
  ext r
  rw [mem_between (after_silent hs hi), mem_between hs, hnext, Nat.lt_succ_iff_lt_or_eq]
  simp only [hmark _ _ ha, hmark _ _ hb]
  constructor
  · rintro ⟨hr | rfl, hopen⟩
    · simp only [hserves r hr] at hopen
      exact ⟨hr, hopen⟩
    · obtain ⟨⟨j, hj, hja⟩, -⟩ := hopen
      rcases hj with hj | hj
      · rw [insert_heap_next] at hj
        rw [← hj, hm] at hja
        cases hja
      · exact absurd (hflow.works_taken (after_works.mp hj)).1 (Nat.lt_irrefl _)
  · rintro ⟨hr, hopen⟩
    simp only [hserves r hr]
    exact ⟨Or.inl hr, hopen⟩

/-- A thread that starts has shown nothing. -/
theorem between_start {op : Op} (hs : w.Silent) (hheap : w'.heap = w.heap)
    (hnext : w'.next = w.next) (hpast : w'.past = w.past) (hcalls : w'.calls = w.calls ++ [op]) :
    w'.Silent ∧ w'.between a b = w.between a b := by
  have hmarks : w'.marks = w.marks := funext fun i => by unfold marks; rw [hpast]
  have hs' : w'.Silent := fun i hi => by
    rw [hmarks]
    refine hs i (Nat.le_trans ?_ hi)
    rw [hcalls, List.length_append]
    exact Nat.le_add_right _ _
  refine ⟨hs', ?_⟩
  have hserves : ∀ r i k, k ∈ w.marks i → (w'.Serves i r ↔ w.Serves i r) := fun r i k hk => by
    have hlt : i < w.calls.length := by
      by_contra hge
      rw [hs i (Nat.le_of_not_lt hge)] at hk
      cases hk
    unfold Serves Works
    rw [hheap, hcalls, List.getElem?_append_left hlt]
  ext r
  rw [mem_between hs', mem_between hs, hnext, hmarks]
  refine and_congr_right fun _ => and_congr ?_ ?_
  · exact exists_congr fun i => and_congr_left fun hi => hserves r i a hi
  · exact ⟨fun h i hi hb => h i ((hserves r i b hb).mpr hi) hb,
      fun h i hi hb => h i ((hserves r i b hb).mp hi) hb⟩

end World

/-! Which transfer a milestone of the counters is about. -/

namespace Flow

variable {w : World} {i : Tid} {r : Ref} {op : Op}

/-- A submission serves the one record it has made. -/
theorem submits (h : Flow w) (hop : w.calls[i]? = some op) (href : op.workRef = none)
    (hm : ∀ r' b, .made r' b ∈ w.marks i ↔ r' = r ∧ b = true) : w.ServesOnly i r := by
  obtain ⟨hr, hmaker⟩ := h.made i r true ((hm r true).mpr ⟨rfl, rfl⟩)
  refine ⟨hr, Or.inl hmaker, fun r' hr' hserves => ?_⟩
  rcases hserves with rfl | hworks
  · obtain ⟨b, hb⟩ := h.maker r' hr'
    exact ((hm r' b).mp hb).1
  · rw [World.works_call hop, href] at hworks
    cases hworks

/-- A worker serves the one record it was given. -/
theorem works (h : Flow w) (hop : w.calls[i]? = some op) (href : op.workRef = some r)
    (hm : ∀ r' b, .made r' b ∉ w.marks i) : w.ServesOnly i r := by
  have hi : w.Works i r := (World.works_call hop).mpr href
  refine ⟨(h.works_taken hi).1, Or.inr hi, fun r' hr' hserves => ?_⟩
  rcases hserves with rfl | hworks
  · obtain ⟨b, hb⟩ := h.maker r' hr'
    exact absurd hb (hm r' b)
  · exact Option.some.inj (hworks.symm.trans hi)

/-- The threads that serve a record nobody has taken. -/
theorem untaken (h : Flow w) (hr : w.ServesOnly i r) (hop : w.calls[i]? = some op)
    (href : op.workRef = none) (hm : .offered r true ∉ w.marks i) {j : Tid}
    (hj : w.Serves j r) : j = i := by
  have hmaker : (w.heap r).maker = i := hr.2.1.resolve_right fun hworks => by
    rw [World.works_call hop, href] at hworks
    cases hworks
  rcases hj with rfl | hworks
  · exact hmaker
  · exact absurd (hmaker ▸ (h.works_taken hworks).2) hm

/-- The submission of a record that a worker has, and that worker. -/
theorem serves_taken (h : Flow w) (hi : w.Works i r) {j : Tid} (hj : w.Serves j r) :
    j = (w.heap r).maker ∨ j = i :=
  hj.imp Eq.symm fun hworks => h.works_unique hworks hi

end Flow

/-- The gauges count what they should. -/
structure Gauges (w : World) : Prop where
  silent : w.Silent
  active : w.telemetry.active = UInt64.ofNat w.running.card
  depth : w.telemetry.queueDepth = UInt64.ofNat w.waiting.card

/-- What is known of a thread that shows a milestone next. -/
structure Showing (w : World) (i : Tid) (op : Op) (k : Mark) : Prop where
  flow : Flow w
  silent : w.Silent
  call : w.calls[i]? = some op
  next : Next op (w.marks i) k
  script : ∀ j op, w.calls[j]? = some op → ∃ rest, Script op (w.marks j ++ rest)

namespace Showing

variable {w : World} {i : Tid} {op : Op} {r : Ref}

/-- A submission whose record a worker has shows what it showed when it gave it away. -/
theorem maker_marks {k : Mark} (h : Showing w i op k) (hi : w.Works i r) :
    w.marks (w.heap r).maker = [.made r true, .pushed, .offered r true] := by
  have hoffered := (h.flow.works_taken hi).2
  have hlt : (w.heap r).maker < w.calls.length := by
    by_contra hge
    rw [h.silent _ (Nat.le_of_not_lt hge)] at hoffered
    cases hoffered
  obtain ⟨rest, hscript⟩ := h.script _ _ (List.getElem?_eq_getElem hlt)
  exact hscript.accepted hoffered

theorem pushed (h : Showing w i op .pushed) : ∃ r, w.ServesOnly i r ∧
    ∀ j, w.Serves j r → .pushed ∉ w.marks j ∧ .popped ∉ w.marks j := by
  obtain ⟨r, href, hm⟩ := h.next.pushed_inv
  have hr := h.flow.submits (r := r) h.call href (by simp [hm])
  refine ⟨r, hr, fun j hj => ?_⟩
  rw [h.flow.untaken hr h.call href (by simp [hm]) hj, hm]
  simp

theorem popped (h : Showing w i op .popped) : ∃ r, w.ServesOnly i r ∧ r ∈ w.waiting := by
  rcases h.next.popped_inv with ⟨r, href, hm⟩ | ⟨r, href, hm⟩
  · have hr := h.flow.submits (r := r) h.call href (by simp [hm])
    refine ⟨r, hr, (World.mem_between h.silent).mpr ⟨hr.1, ⟨i, hr.2.1, by simp [hm]⟩, ?_⟩⟩
    intro j hj
    rw [h.flow.untaken hr h.call href (by simp [hm]) hj, hm]
    simp
  · have hr := h.flow.works h.call href (by simp [hm])
    have hi : w.Works i r := (World.works_call h.call).mpr href
    refine ⟨r, hr, (World.mem_between h.silent).mpr ⟨hr.1, ⟨_, Or.inl rfl, ?_⟩, ?_⟩⟩
    · rw [h.maker_marks hi]
      simp
    · intro j hj
      rcases h.flow.serves_taken hi hj with rfl | rfl
      · rw [h.maker_marks hi]
        simp
      · simp [hm]

theorem begun (h : Showing w i op .begun) : ∃ r, w.ServesOnly i r ∧
    ∀ j, w.Serves j r → .begun ∉ w.marks j ∧ .ended ∉ w.marks j := by
  obtain ⟨r, href, hm⟩ := h.next.begun_inv
  have hi : w.Works i r := (World.works_call h.call).mpr href
  refine ⟨r, h.flow.works h.call href (by simp [hm]), fun j hj => ?_⟩
  rcases h.flow.serves_taken hi hj with rfl | rfl
  · rw [h.maker_marks hi]
    simp
  · simp [hm]

theorem ended (h : Showing w i op .ended) : ∃ r, w.ServesOnly i r ∧ r ∈ w.running := by
  rcases h.next.ended_inv with ⟨href, r, hup⟩ | ⟨r, href, hm⟩
  · -- a submission does not find the flag up
    obtain ⟨task, htask⟩ := (h.flow.found i r true hup).mp rfl
    obtain rfl := Option.some.inj (h.call.symm.trans htask)
    cases href
  · have hi : w.Works i r := (World.works_call h.call).mpr href
    have hr := h.flow.works h.call href (by simp [hm])
    refine ⟨r, hr, (World.mem_between h.silent).mpr ⟨hr.1, ⟨i, hr.2.1, by simp [hm]⟩, ?_⟩⟩
    intro j hj
    rcases h.flow.serves_taken hi hj with rfl | rfl
    · rw [h.maker_marks hi]
      simp
    · simp [hm]

end Showing

namespace Gauges

variable {w w' : World} {i : Tid} {op : Op} {c : RtCall} {x : RtAnswer c}

theorem act (h : Gauges w) (hflow : Flow w) (hx : w.Answers c x) (hi : i < w.calls.length)
    (hshow : ∀ k, mark ⟨c, x⟩ = some k → Showing w i op k) : Gauges (w.after i c x) := by
  refine ⟨World.after_silent h.silent hi, ?_, ?_⟩
  · by_cases hc : ∃ t, c = .insert t
    · obtain ⟨t, rfl⟩ := hc
      obtain rfl := hx.insert
      rw [World.after_active, World.running, World.between_insert h.silent hi hflow
        (hshow _ rfl).next.made_inv.1 (by simp) (by simp)]
      exact h.active
    · exact World.between_counted h.silent hi (not_exists.mp hc) (by simp)
        (fun hk => (hshow _ hk).begun) (fun hk => (hshow _ hk).ended) h.active
        (w.after_active i c x)
  · by_cases hc : ∃ t, c = .insert t
    · obtain ⟨t, rfl⟩ := hc
      obtain rfl := hx.insert
      rw [World.after_queueDepth, World.waiting, World.between_insert h.silent hi hflow
        (hshow _ rfl).next.made_inv.1 (by simp) (by simp)]
      exact h.depth
    · exact World.between_counted h.silent hi (not_exists.mp hc) (by simp)
        (fun hk => (hshow _ hk).pushed) (fun hk => (hshow _ hk).popped) h.depth
        (w.after_queueDepth i c x)

theorem start (h : Gauges w) (hheap : w'.heap = w.heap) (hnext : w'.next = w.next)
    (hpast : w'.past = w.past) (hcalls : w'.calls = w.calls ++ [op])
    (htel : w'.telemetry = w.telemetry) : Gauges w' := by
  have hsame := fun a b => World.between_start (a := a) (b := b) h.silent hheap hnext hpast hcalls
  refine ⟨(hsame .begun .ended).1, ?_, ?_⟩
  · rw [htel, World.running, (hsame _ _).2]
    exact h.active
  · rw [htel, World.waiting, (hsame _ _).2]
    exact h.depth

end Gauges

namespace Runtime

variable {rt : Runtime} {σ : System} {i : Tid}

theorem Reaches.silent (h : rt.Reaches σ) : σ.world.Silent := fun i hi => by
  rw [World.marks, show σ.world.past i = [] from h.kept.silent i (h.calls_length ▸ hi)]
  rfl

theorem Reaches.showing {c : RtCall} {next : RtAnswer c → Prog RtSig Result} (h : rt.Reaches σ)
    (hi : σ.threads[i]? = some (.call c next)) :
    ∃ op, σ.world.calls[i]? = some op ∧
      ∀ (x : RtAnswer c) k, mark ⟨c, x⟩ = some k → Showing σ.world i op k := by
  obtain ⟨op, hop, hnext⟩ := h.next hi
  exact ⟨op, hop, fun x k hk => ⟨h.flow, h.silent, hop, hnext x k hk, fun j op hj => h.script hj⟩⟩

theorem Reaches.gauges (h : rt.Reaches σ) : Gauges σ.world := by
  induction h with
  | refl => exact ⟨fun _ _ => rfl, rfl, rfl⟩
  | @tail σ₁ σ₂ hrun hstep ih =>
      have hreach : rt.Reaches σ₁ := hrun
      cases hstep with
      | @act i c next x w' hi he =>
          obtain ⟨hx, rfl⟩ := he
          obtain ⟨op, hop, hshow⟩ := hreach.showing hi
          exact ih.act hreach.flow hx (List.getElem?_eq_some_iff.mp hop).1 (hshow x)
      | start hs =>
          cases hs with
          | call op hop => exact ih.start rfl rfl rfl rfl rfl
          | task hdepth hbusy hpop => exact ih.start rfl rfl rfl rfl rfl

theorem Quiescent.whole (h : rt.Reaches σ) (hq : Quiescent σ) {op : Op}
    (hop : σ.world.calls[i]? = some op) (hends : op.isSubmit = true ∨ op.isWork = true) :
    Script op (σ.world.marks i) := h.whole hop (hq.ended i op hop hends)

/-- Every worker that has returned has lowered both gauges. -/
theorem Finished.worked (h : rt.Reaches σ) (hf : Finished σ) {task : Task}
    (hop : σ.world.calls[i]? = some (.work task)) :
    .popped ∈ σ.world.marks i ∧ .ended ∈ σ.world.marks i := by
  obtain ⟨was, hm⟩ := h.whole hop (hf.ended i task hop)
  have hup : was = true := (h.flow.found i task.ref was (by simp [hm, ending])).mpr ⟨task, hop⟩
  rw [hm, hup]
  simp [ending]

theorem Reaches.shown (h : rt.Reaches σ) {k : Mark} (hk : k ∈ σ.world.marks i) :
    ∃ op l, σ.world.calls[i]? = some op ∧ Script op l ∧ k ∈ l := by
  have hlt : i < σ.world.calls.length := by
    by_contra hge
    rw [h.silent i (Nat.le_of_not_lt hge)] at hk
    cases hk
  obtain ⟨rest, hscript⟩ := h.script (List.getElem?_eq_getElem hlt)
  exact ⟨_, _, List.getElem?_eq_getElem hlt, hscript, List.mem_append_left _ hk⟩

theorem Finished.running (h : rt.Reaches σ) (hf : Finished σ) : σ.world.running = ∅ := by
  rw [Finset.eq_empty_iff_forall_notMem]
  intro r hr
  obtain ⟨-, ⟨i, hi, hbegun⟩, hnot⟩ := (World.mem_between h.silent).mp hr
  obtain ⟨op, l, hop, hscript, hl⟩ := h.shown hbegun
  obtain ⟨task, -, rfl, -⟩ := hscript.begun_work hl
  exact hnot i hi (hf.worked h hop).2

/-- At rest, no transfer waits. -/
theorem Quiescent.waiting (h : rt.Reaches σ) (hq : Quiescent σ) : σ.world.waiting = ∅ := by
  rw [Finset.eq_empty_iff_forall_notMem]
  intro r hr
  obtain ⟨hlt, ⟨i, hi, hpushed⟩, hnot⟩ := (World.mem_between h.silent).mp hr
  obtain ⟨op, l, hop, hscript, hl⟩ := h.shown hpushed
  have hsubmit := (hscript.pushed_submit hl).1
  obtain ⟨-, hpopped | ⟨r', hm⟩⟩ := (hq.whole h hop (Or.inl hsubmit)).pushed_submit hpushed
  · exact hnot i hi hpopped
  -- the scheduler took the record, so it has a worker
  have href : op.workRef = none := by cases op <;> first | rfl | cases hsubmit
  have hmaker : (σ.world.heap r).maker = i := hi.resolve_right fun hworks => by
    rw [World.works_call hop, href] at hworks
    cases hworks
  obtain ⟨b, hmade⟩ := h.flow.maker r hlt
  rw [hmaker, hm] at hmade
  have hrr : r = r' ∧ b = true := by simpa using hmade
  obtain ⟨rfl, -⟩ := hrr
  have htaken := (h.flow.taken r).mpr ⟨hlt, by rw [hmaker, hm]; simp⟩
  rw [hq.drained, List.map_nil, List.nil_append, World.mem_workRefs] at htaken
  obtain ⟨j, hj⟩ := htaken
  obtain ⟨p, hwork⟩ := World.works_iff.mp hj
  exact hnot j (Or.inr hj) (hq.finished.worked h hwork).1

/-- The gauges of every reachable state count the transfers between their milestones, as numbers
that wrap at `2 ^ 64` and exactly while there are fewer threads than that; a thread that is about
to lower one finds at least one transfer counted; and at rest both are zero. -/
theorem gauges_exact (h : rt.Reaches σ) :
    (σ.world.telemetry.active = UInt64.ofNat σ.world.running.card ∧
      σ.world.telemetry.queueDepth = UInt64.ofNat σ.world.waiting.card) ∧
    (σ.threads.length < 2 ^ 64 →
      σ.world.telemetry.active.toNat = σ.world.running.card ∧
      σ.world.telemetry.queueDepth.toNat = σ.world.waiting.card) ∧
    (∀ (i : Tid) next, σ.threads[i]? = some (.call (.count .transferDone) next) →
      0 < σ.world.running.card) ∧
    (∀ (i : Tid) next, σ.threads[i]? = some (.call (.count .queuePopped) next) →
      0 < σ.world.waiting.card) ∧
    (Quiescent σ → σ.world.telemetry.active = 0 ∧ σ.world.telemetry.queueDepth = 0) := by
  have hgauges := h.gauges
  have hle : ∀ a b, (σ.world.between a b).card ≤ σ.threads.length := by
    intro a b
    obtain ⟨l, hl, -⟩ := h.known
    calc (σ.world.between a b).card ≤ (Finset.range σ.world.next).card :=
          Finset.card_le_card (Finset.filter_subset _ _)
      _ = σ.world.next := Finset.card_range _
      _ = tally (fun m : View => m.made.isSome) l σ.threads.length := hl.ledger.made
      _ ≤ (List.range σ.threads.length).length := List.countP_le_length
      _ = σ.threads.length := List.length_range
  refine ⟨⟨hgauges.active, hgauges.depth⟩, fun hfew => ?_, fun i next hi => ?_, fun i next hi => ?_,
    fun hq => ?_⟩
  · rw [hgauges.active, hgauges.depth, UInt64.toNat_ofNat', UInt64.toNat_ofNat']
    exact ⟨Nat.mod_eq_of_lt (Nat.lt_of_le_of_lt (hle _ _) hfew),
      Nat.mod_eq_of_lt (Nat.lt_of_le_of_lt (hle _ _) hfew)⟩
  · obtain ⟨op, -, hshow⟩ := h.showing hi
    obtain ⟨r, -, hr⟩ := (hshow () .ended rfl).ended
    exact Finset.card_pos.mpr ⟨r, hr⟩
  · obtain ⟨op, -, hshow⟩ := h.showing hi
    obtain ⟨r, -, hr⟩ := (hshow () .popped rfl).popped
    exact Finset.card_pos.mpr ⟨r, hr⟩
  · rw [hgauges.active, hgauges.depth, hq.finished.running h, hq.waiting h]
    exact ⟨rfl, rfl⟩

/-- The worker of a transfer that is being moved. -/
def oneRunning : List Move := oneTransfer ++ .task :: List.replicate 5 (.act 3 (fair 0))

theorem oneRunning_counted :
    (loopback.play oneRunning).world.running = {0} ∧
      (loopback.play oneRunning).world.telemetry.active = UInt64.ofNat 1 := by
  have hrunning : (loopback.play oneRunning).world.running = {0} := by decide +kernel
  refine ⟨hrunning, ?_⟩
  rw [(gauges_exact (loopback.play_reaches oneRunning)).1.1, hrunning]
  rfl

end Runtime

end TransferFabric
