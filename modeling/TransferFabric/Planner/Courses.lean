import TransferFabric.Planner.Search

/-!
The shape of the domain graph. The two staging domains are its hubs: every other
domain is joined to both of them and to nothing else. A simple path between two
different domains therefore does one of three things: it turns at one hub, it
goes from one hub straight to the other, or it goes from one hub to the other
through a third domain. Which of these an input leaves open can be read off its
fields, without a search.
-/

namespace TransferFabric

open Paths

namespace DefaultRoutePlanner

inductive Course where
  | turn (hub : MemoryDomain)
  | link
  | through (x : MemoryDomain)
  deriving DecidableEq, Repr

namespace Course

/-- The domains a course visits besides the endpoints, and the hubs among the endpoints. -/
def stations : Course → List MemoryDomain
  | .turn hub => [hub]
  | .link => [.hostPageable, .hostPinned]
  | .through x => [.hostPageable, x, .hostPinned]

/-- The course makes sense between the two endpoint domains. -/
def Suits (s t : MemoryDomain) : Course → Prop
  | .turn hub => isStagingDomain hub = true ∧ ∀ e ∈ [s, t], isStagingDomain e = true → e = hub
  | .link => True
  | .through x => isStagingDomain x = false ∧ x ∉ [s, t]

instance (s t : MemoryDomain) : DecidablePred (Suits s t)
  | .turn _ => inferInstanceAs (Decidable (_ ∧ _))
  | .link => inferInstanceAs (Decidable True)
  | .through _ => inferInstanceAs (Decidable (_ ∧ _))

/-- How many of the endpoint domains are not hubs. -/
def outerEnds (s t : MemoryDomain) : Nat := [s, t].countP fun e => !isStagingDomain e

def legs (s t : MemoryDomain) : Course → Nat
  | .turn _ => outerEnds s t
  | .link => outerEnds s t + 1
  | .through _ => outerEnds s t + 2

/-- A course takes the edge between a hub and each of these domains. -/
def reaches (s t : MemoryDomain) (c : Course) : List MemoryDomain :=
  (s :: t :: c.stations).filter (fun e => !isStagingDomain e) ++
    match c with
    | .link => [.hostPinned]
    | _ => []

end Course

/-- The pool bytes the planner compares its estimate for a hub with. -/
def hubCapacity (inp : PlannerInput) (hub : MemoryDomain) : ByteCount :=
  if hub = .hostPinned then inp.pinnedStagingCapacity else inp.hostStagingCapacity

/-- The input leaves a course open. -/
structure Open (inp : PlannerInput) (c : Course) : Prop where
  suits : c.Suits inp.src.memoryDomain inp.dst.memoryDomain
  short : c.legs inp.src.memoryDomain inp.dst.memoryDomain ≤ inp.policy.maxHops.toNat
  permitted : StagingPermits inp.policy (c.legs inp.src.memoryDomain inp.dst.memoryDomain)
  fits : ∀ hub ∈ c.stations, isStagingDomain hub = true →
    hub ∉ [inp.src.memoryDomain, inp.dst.memoryDomain] →
      4 * inp.policy.preferredChunkSize.toNat % 2 ^ 64 ≤ (hubCapacity inp hub).toNat
  linked : ∀ e ∈ c.reaches inp.src.memoryDomain inp.dst.memoryDomain, Linked inp .hostPageable e

/-! The simple paths of the graph, and the courses they take. -/

/-- All edges taken for open. -/
def simplePaths (s t : MemoryDomain) : List (List MemoryDomain) := search neighbours t 7 8 s [s]

theorem mem_simplePaths {s t : MemoryDomain} (h : s ≠ t) (p : List MemoryDomain) :
    p ∈ simplePaths s t ↔
      p.head? = some s ∧ p.getLast? = some t ∧ p.Nodup ∧ p.IsChain fun a b => b ∈ neighbours a := by
  have hcard : Fintype.card MemoryDomain = 8 := rfl
  rw [simplePaths, ← hcard, mem_search_from h]
  constructor
  · rintro ⟨u, rfl, hway, hnd, -⟩
    obtain ⟨hchain, hlast⟩ := (way_iff hnd).mp hway
    exact ⟨rfl, hlast, hnd, hchain⟩
  · rintro ⟨hs, ht, hnd, hchain⟩
    obtain ⟨u, rfl⟩ := List.head?_eq_some_iff.mp hs
    have hle := hnd.length_le_card
    rw [hcard, List.length_cons] at hle
    exact ⟨u, rfl, (way_iff hnd).mpr ⟨hchain, ht⟩, hnd, by omega⟩

def courses : List Course :=
  [.turn .hostPageable, .turn .hostPinned, .link, .through .device, .through .shared,
    .through .storage, .through .remote, .through .mmap]

/-- Of the two ends of an edge the one that is not a hub. Of the edge between the
hubs it is the second. -/
def outer (ab : MemoryDomain × MemoryDomain) : MemoryDomain :=
  if isStagingDomain ab.1 then if isStagingDomain ab.2 then .hostPinned else ab.2 else ab.1

/-- What can be said of the paths of a course without the input. -/
structure Course.Follows (s t : MemoryDomain) (c : Course) (p : List MemoryDomain) : Prop where
  legs : p.length - 1 = c.legs s t
  visited : p ⊆ s :: t :: c.stations
  visits : s :: t :: c.stations ⊆ p
  taken : (hops p).map outer ⊆ c.reaches s t
  takes : c.reaches s t ⊆ (hops p).map outer

instance (s t : MemoryDomain) (c : Course) (p : List MemoryDomain) : Decidable (c.Follows s t p) :=
  decidable_of_iff (_ ∧ _ ∧ _ ∧ _ ∧ _)
    ⟨fun ⟨h₁, h₂, h₃, h₄, h₅⟩ => ⟨h₁, h₂, h₃, h₄, h₅⟩,
      fun h => ⟨h.legs, h.visited, h.visits, h.taken, h.takes⟩⟩

theorem simplePaths_follow : ∀ s t, s ≠ t → ∀ p ∈ simplePaths s t,
    ∃ c ∈ courses, c.Suits s t ∧ c.Follows s t p := by
  decide +kernel

theorem courses_simple : ∀ s t, s ≠ t → s ≠ .unknown → t ≠ .unknown → ∀ c ∈ courses,
    c.Suits s t → ∃ p ∈ simplePaths s t, c.Follows s t p := by
  decide +kernel

/-- A domain is joined to both hubs by edges of one backend. -/
theorem edgeBetween_outer : ∀ a b, a ≠ b → b ∈ neighbours a →
    (edgeBetween a b).map (fun e => (e.backend, e.remote)) =
      (edgeBetween .hostPageable (outer (a, b))).map fun e => (e.backend, e.remote) := by
  decide +kernel

section Inputs

variable {inp : PlannerInput}

theorem Linked.neighbours {a b : MemoryDomain} (h : Linked inp a b) : b ∈ neighbours a := by
  obtain ⟨e, he, hjoins, -⟩ := h
  exact mem_neighbours.mpr ⟨e, he, hjoins⟩

theorem linked_kind {a b : MemoryDomain} :
    Linked inp a b ↔
      ∃ k, (edgeBetween a b).map (fun e => (e.backend, e.remote)) = some k ∧
        backendKnown k.1 inp.availableBackends = true ∧
        (k.2 = true → inp.remoteAvailable = true) := by
  constructor
  · rintro ⟨e, he, hjoins, hfeasible⟩
    exact ⟨_, by rw [edgeBetween_of_joins a b e he hjoins]; rfl, feasibleEdge_iff.mp hfeasible⟩
  · rintro ⟨k, hk, hknown⟩
    obtain ⟨e, he, rfl⟩ := Option.map_eq_some_iff.mp hk
    obtain ⟨hmem, hjoins⟩ := edgeBetween_eq_some.mp he
    exact ⟨e, hmem, hjoins, feasibleEdge_iff.mpr hknown⟩

theorem linked_outer {a b : MemoryDomain} (hne : a ≠ b) (h : b ∈ DefaultRoutePlanner.neighbours a) :
    Linked inp a b ↔ Linked inp .hostPageable (outer (a, b)) := by
  rw [linked_kind, linked_kind, edgeBetween_outer a b hne h]

theorem not_linked_unknown : ¬ Linked inp .hostPageable .unknown := by
  rw [linked_kind]
  rintro ⟨k, hk, -⟩
  cases hk

theorem Course.Follows.linked_iff {s t : MemoryDomain} {c : Course} {p : List MemoryDomain}
    (h : c.Follows s t p) (hnd : p.Nodup) (hchain : p.IsChain fun a b => b ∈ neighbours a) :
    p.IsChain (Linked inp) ↔ ∀ e ∈ c.reaches s t, Linked inp .hostPageable e := by
  have houter : ∀ ab ∈ hops p,
      (Linked inp ab.1 ab.2 ↔ Linked inp .hostPageable (outer (ab.1, ab.2))) := fun ab hab =>
    linked_outer (hops_ne hnd ab hab) ((isChain_iff_hops p).mp hchain ab hab)
  rw [isChain_iff_hops]
  constructor
  · intro hlinked e he
    obtain ⟨ab, hab, rfl⟩ := List.mem_map.mp (h.takes he)
    exact (houter ab hab).mp (hlinked ab hab)
  · intro hlinked ab hab
    exact (houter ab hab).mpr (hlinked _ (h.taken (List.mem_map_of_mem hab)))

/-- A path passes a hub in between at most once. -/
theorem Course.Follows.count_hub {s t : MemoryDomain} {c : Course} {p : List MemoryDomain}
    (h : c.Follows s t p) (hne : s ≠ t) (hs : p.head? = some s) (ht : p.getLast? = some t)
    (hnd : p.Nodup) (hub : MemoryDomain) :
    (intermediate p).count hub = if hub ∈ c.stations ∧ hub ∉ [s, t] then 1 else 0 := by
  have hp := split_ends hne hs ht
  have hsplit : (s :: (intermediate p ++ [t])).Nodup := hp ▸ hnd
  obtain ⟨hsout, hrest⟩ := List.nodup_cons.mp hsplit
  have htout : t ∉ intermediate p := fun hmem =>
    List.disjoint_of_nodup_append hrest hmem List.mem_cons_self
  have hinner : hub ∈ intermediate p ↔ hub ∈ c.stations ∧ hub ∉ [s, t] := by
    have hmem : hub ∈ p ↔ hub = s ∨ hub ∈ intermediate p ∨ hub = t := by
      conv_lhs => rw [hp]
      simp
    have hvisits : hub ∈ p ↔ hub = s ∨ hub = t ∨ hub ∈ c.stations :=
      ⟨fun hd => by simpa using h.visited hd, fun hd => h.visits (by simpa using hd)⟩
    simp only [List.mem_cons, List.not_mem_nil, or_false, not_or]
    constructor
    · intro hd
      have hds : hub ≠ s := fun he => hsout (List.mem_append_left _ (he ▸ hd))
      have hdt : hub ≠ t := fun he => htout (he ▸ hd)
      have hstations := hvisits.mp (hmem.mpr (Or.inr (Or.inl hd)))
      simp only [hds, hdt, false_or] at hstations
      exact ⟨hstations, hds, hdt⟩
    · rintro ⟨hd, hds, hdt⟩
      simpa [hds, hdt] using hmem.mp (hvisits.mpr (Or.inr (Or.inr hd)))
  split_ifs with hif
  · exact List.count_eq_one_of_mem (List.Nodup.of_append_left hrest) (hinner.mpr hif)
  · exact List.count_eq_zero_of_not_mem fun hmem => hif (hinner.mp hmem)

theorem Course.Follows.fits_iff {c : Course} {p : List MemoryDomain}
    (h : c.Follows inp.src.memoryDomain inp.dst.memoryDomain p)
    (hne : inp.src.memoryDomain ≠ inp.dst.memoryDomain)
    (hs : p.head? = some inp.src.memoryDomain) (ht : p.getLast? = some inp.dst.memoryDomain)
    (hnd : p.Nodup) :
    (4 * inp.policy.preferredChunkSize.toNat * (intermediate p).count .hostPageable % 2 ^ 64
        ≤ inp.hostStagingCapacity.toNat ∧
      4 * inp.policy.preferredChunkSize.toNat * (intermediate p).count .hostPinned % 2 ^ 64
        ≤ inp.pinnedStagingCapacity.toNat) ↔
      ∀ hub ∈ c.stations, isStagingDomain hub = true →
        hub ∉ [inp.src.memoryDomain, inp.dst.memoryDomain] →
          4 * inp.policy.preferredChunkSize.toNat % 2 ^ 64 ≤ (hubCapacity inp hub).toNat := by
  have hfits : ∀ (hub : MemoryDomain) (capacity : Nat),
      4 * inp.policy.preferredChunkSize.toNat * (intermediate p).count hub % 2 ^ 64 ≤ capacity ↔
        (hub ∈ c.stations → hub ∉ [inp.src.memoryDomain, inp.dst.memoryDomain] →
          4 * inp.policy.preferredChunkSize.toNat % 2 ^ 64 ≤ capacity) := by
    intro hub capacity
    rw [h.count_hub hne hs ht hnd, ← and_imp]
    split_ifs with hif
    · rw [Nat.mul_one]
      exact ⟨fun hle _ => hle, fun hle => hle hif⟩
    · exact ⟨fun _ hmem => absurd hmem hif, fun _ => by simp⟩
  rw [hfits, hfits]
  constructor
  · rintro ⟨hpageable, hpinned⟩ hub hmem hhub hout
    simp only [isStagingDomain, decide_eq_true_eq] at hhub
    rcases hhub with rfl | rfl
    · exact hpageable hmem hout
    · exact hpinned hmem hout
  · intro hall
    exact ⟨fun hmem hout => hall _ hmem rfl hout, fun hmem hout => hall _ hmem rfl hout⟩

/-- Every feasible path takes an open course. -/
theorem FeasiblePath.course {p : List MemoryDomain} (h : FeasiblePath inp p)
    (hne : inp.src.memoryDomain ≠ inp.dst.memoryDomain) :
    ∃ c, Open inp c ∧ c.Follows inp.src.memoryDomain inp.dst.memoryDomain p := by
  have hchain : p.IsChain fun a b => b ∈ neighbours a :=
    h.linked.imp fun _ _ hlinked => hlinked.neighbours
  obtain ⟨c, -, hsuits, hfollows⟩ := simplePaths_follow _ _ hne p
    ((mem_simplePaths hne p).mpr ⟨h.starts, h.ends, h.simple, hchain⟩)
  refine ⟨c, ⟨hsuits, ?_, ?_, ?_, (hfollows.linked_iff h.simple hchain).mp h.linked⟩, hfollows⟩
  · rw [← hfollows.legs]
    exact h.short
  · rw [← hfollows.legs]
    exact h.permitted
  · exact (hfollows.fits_iff hne h.starts h.ends h.simple).mp ⟨h.pageable, h.pinned⟩

theorem Open.known {c : Course} (h : Open inp c) {d : MemoryDomain}
    (hd : d ∈ inp.src.memoryDomain :: inp.dst.memoryDomain :: c.stations) : d ≠ .unknown := by
  rintro rfl
  refine not_linked_unknown (h.linked .unknown (List.mem_append_left _ ?_))
  exact List.mem_filter.mpr ⟨hd, rfl⟩

theorem Open.mem_courses {c : Course} (h : Open inp c) : c ∈ courses := by
  cases c with
  | turn hub =>
      have hhub := h.suits.1
      simp only [isStagingDomain, decide_eq_true_eq] at hhub
      rcases hhub with rfl | rfl <;> decide
  | link => decide
  | through x =>
      have houter := h.suits.1
      have hknown : x ≠ .unknown := h.known (by simp [Course.stations])
      cases x <;> first | decide | contradiction

/-- Every open course has a feasible path. -/
theorem Open.feasible {c : Course} (h : Open inp c)
    (hne : inp.src.memoryDomain ≠ inp.dst.memoryDomain) :
    ∃ p, FeasiblePath inp p ∧ c.Follows inp.src.memoryDomain inp.dst.memoryDomain p := by
  obtain ⟨p, hsimple, hfollows⟩ := courses_simple _ _ hne (h.known (by simp)) (h.known (by simp)) c
    h.mem_courses h.suits
  obtain ⟨hs, ht, hnd, hchain⟩ := (mem_simplePaths hne p).mp hsimple
  obtain ⟨hpageable, hpinned⟩ := (hfollows.fits_iff hne hs ht hnd).mpr h.fits
  refine ⟨p, ⟨hs, ht, hnd, (hfollows.linked_iff hnd hchain).mpr h.linked, ?_, hpageable, hpinned,
    ?_⟩, hfollows⟩
  · rw [hfollows.legs]
    exact h.short
  · rw [hfollows.legs]
    exact h.permitted

end Inputs

end DefaultRoutePlanner

end TransferFabric
