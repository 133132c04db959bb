import TransferFabric.Planner.Ranking
import TransferFabric.Runtime.Reservation

/-!
Whether the staging the planner checks for covers the staging a submission
reserves. The planner estimates four times the preferred chunk for every hub in
between. The runtime reserves its pipeline depth of buffers of the clamped chunk
size for every node in between, and takes those of a node that is not a hub from
the host pool. The two agree for the sizes that satisfy `Sizing.Covers`, and for
no others.

Which of the candidates is the best depends on costs, and the characterisation
does not. It ranges over the sizes alone: for sizes that do not satisfy it there
is an input whose only route cannot be reserved.
-/

namespace TransferFabric

open Interaction Paths
open TransferFabric.Runtime (chunkInput)

namespace DefaultRoutePlanner

/-- The sizes both sides compute with. -/
structure Sizing where
  preferred : ByteCount
  maximum : ByteCount
  host : ByteCount
  pinned : ByteCount

namespace Sizing

variable (z : Sizing)

def policy : TransferPolicy := { preferredChunkSize := z.preferred, maxChunkSize := z.maximum }

/-- The chunk size of a submission whose legs are all as the planner makes them. -/
def chunk : ByteCount :=
  ChunkPlan.chunkSizeFor (chunkInput z.policy { src := {}, dst := {}, bytes := 0 } [{}])

def capacity (pinned : Bool) : ByteCount := if pinned then z.pinned else z.host

/-- The planner's check for one hub in between. -/
def Estimate (pinned : Bool) : Prop := 4 * z.preferred.toNat % 2 ^ 64 ≤ (z.capacity pinned).toNat

/-- The sizes for which the estimate suffices. Below the least chunk size no
submission gets as far as a reservation. A detour through a domain that is not a
hub draws from the host pool, and the planner does not count it. -/
structure Covers (depth : Nat) : Prop where
  detour : Holds (z.capacity false) z.chunk depth
  host : z.Estimate false → Holds (z.capacity false) z.chunk (2 * depth)
  pinned : z.Estimate true → Holds (z.capacity true) z.chunk depth

end Sizing

def sizing (inp : PlannerInput) : Sizing :=
  { preferred := inp.policy.preferredChunkSize, maximum := inp.policy.maxChunkSize
    host := inp.hostStagingCapacity, pinned := inp.pinnedStagingCapacity }

/-- Pools of the planner's capacities from which nothing was drawn, and a record with the
planned route and its chunk plan. -/
structure Idle (inp : PlannerInput) (p : ChunkPlan) (w : World) (r : Ref) : Prop where
  host : w.hostPool = { capacityBytes := inp.hostStagingCapacity }
  pinned : w.pinnedPool = { capacityBytes := inp.pinnedStagingCapacity }
  route : (w.heap r).body.route = (plan inp).best
  chunkPlan : (w.heap r).body.chunkPlan.plan = p

/-- If a route is found and a chunk plan is built for it, the reservation goes through. -/
def Covered (inp : PlannerInput) (depth : Nat) : Prop :=
  ∀ ranges p, (plan inp).found = true → ranges.bytes = inp.bytes →
    ChunkPlan.build (chunkInput inp.policy ranges (plan inp).best.legs) = .ok p →
      ∀ w r i, Idle inp p w r →
        wp served (granted i) (reserveStaging depth r) (fun e _ => e.ok = true) w

/-! The chunk size of a planned route. -/

/-- The planner leaves the chunking fields of a leg at their defaults. -/
structure StockLeg (l : Leg) : Prop where
  preferred : l.preferredChunk = 64 * 1024
  maximum : l.maxChunk = 256 * 1024 * 1024
  alignment : l.alignment = 16

theorem stockLeg_legBetween (inp : PlannerInput) (ab : MemoryDomain × MemoryDomain) :
    StockLeg (legBetween inp ab) := by
  unfold legBetween
  cases edgeBetween ab.1 ab.2 with
  | none => exact ⟨rfl, rfl, rfl⟩
  | some e => exact ⟨rfl, rfl, rfl⟩

theorem foldl_stock {β : Type} {g : β → Leg → β} (hstock : ∀ m l, StockLeg l → g m l = g m {})
    (hidem : ∀ m, g (g m {}) {} = g m {}) {legs : List Leg} (hne : legs ≠ [])
    (h : ∀ l ∈ legs, StockLeg l) (m : β) : legs.foldl g m = g m {} := by
  induction legs generalizing m with
  | nil => exact absurd rfl hne
  | cons l legs ih =>
      rw [List.foldl_cons, hstock m l (h l List.mem_cons_self)]
      cases legs with
      | nil => rfl
      | cons l' legs =>
          rw [ih (List.cons_ne_nil _ _) (fun x hx => h x (List.mem_cons_of_mem _ hx)), hidem]

theorem chunkInput_stock (policy : TransferPolicy) (ranges : ResolvedRanges) {legs : List Leg}
    (hne : legs ≠ []) (h : ∀ l ∈ legs, StockLeg l) :
    chunkInput policy ranges legs = chunkInput policy ranges [{}] := by
  unfold chunkInput
  congr 1
  · refine foldl_stock (fun m l hl => by rw [hl.maximum]) (fun m => ?_) hne h _
    split_ifs <;> rfl
  · refine foldl_stock (fun m l hl => by rw [hl.preferred]) (fun m => ?_) hne h _
    split_ifs <;> rfl
  · refine foldl_stock (fun m l hl => by rw [hl.alignment]) (fun m => ?_) hne h _
    split_ifs <;> rfl

/-! The nodes in between. -/

theorem poolNodes_true (nodes : List MemoryDomain) : poolNodes nodes true = nodes.count .hostPinned := by
  rw [poolNodes, List.count]
  exact List.countP_congr fun d _ => by simp

theorem poolNodes_add (nodes : List MemoryDomain) :
    poolNodes nodes false + poolNodes nodes true = nodes.length := by
  rw [poolNodes, poolNodes, Nat.add_comm, List.length_eq_countP_add_countP fun d =>
    decide (d = MemoryDomain.hostPinned) == true]
  exact congrArg _ (List.countP_congr fun d _ => by simp)

/-- How often a course passes a hub in between. -/
def Course.passes (s t : MemoryDomain) (c : Course) (hub : MemoryDomain) : Nat :=
  if hub ∈ c.stations ∧ hub ∉ [s, t] then 1 else 0

theorem Course.Follows.poolNodes {s t : MemoryDomain} {c : Course} {p : List MemoryDomain}
    (h : c.Follows s t p) (hne : s ≠ t) (hs : p.head? = some s) (ht : p.getLast? = some t)
    (hnd : p.Nodup) :
    poolNodes (intermediate p) true = c.passes s t .hostPinned ∧
      poolNodes (intermediate p) false = c.legs s t - 1 - c.passes s t .hostPinned := by
  have htrue : TransferFabric.poolNodes (intermediate p) true = c.passes s t .hostPinned := by
    rw [poolNodes_true, h.count_hub hne hs ht hnd, Course.passes]
  have hlen : (intermediate p).length = c.legs s t - 1 := by
    rw [← h.legs, intermediate, List.length_dropLast, List.length_tail]
  have hadd := poolNodes_add (intermediate p)
  exact ⟨htrue, by omega⟩

/-- Besides the hubs there is room for one more domain. -/
theorem legs_le_passes : ∀ s t, s ≠ t → ∀ c ∈ courses, c.Suits s t →
    c.legs s t - 1 - c.passes s t .hostPinned ≤ 1 + c.passes s t .hostPageable := by
  decide +kernel

/-! The reservation for a planned route. -/

section Inputs

variable {inp : PlannerInput}

/-- Without a search there is one leg. -/
theorem unsearched_single (h : ¬ Searches inp) {r : Route} (hr : r ∈ (plan inp).candidates) :
    ∃ l, r.legs = [l] ∧ StockLeg l := by
  have hadmits := admits_of_candidate hr
  rw [candidates_admits hadmits, plannedRoutes] at hr
  split_ifs at hr with hzero hsame hknown
  · rw [List.mem_singleton.mp hr]
    exact ⟨_, rfl, rfl, rfl, rfl⟩
  · rw [List.mem_singleton.mp hr]
    exact ⟨_, rfl, rfl, rfl, rfl⟩
  · cases hr
  · exact absurd ⟨hadmits, hzero, hsame⟩ h

theorem best_legs (hfound : (plan inp).found = true) :
    (plan inp).best.legs ≠ [] ∧ ∀ l ∈ (plan inp).best.legs, StockLeg l := by
  have hmem := best_mem_candidates hfound
  by_cases hsearch : Searches inp
  · obtain ⟨p, hp, halong⟩ := candidate_along hsearch hmem
    have htwo := hp.two_le hsearch.apart
    rw [halong.legs, legsAlong]
    refine ⟨?_, fun l hl => ?_⟩
    · intro hnil
      have hlen := length_hops p
      rw [List.map_eq_nil_iff.mp hnil, List.length_nil] at hlen
      omega
    · obtain ⟨ab, -, rfl⟩ := List.mem_map.mp hl
      exact stockLeg_legBetween inp ab
  · obtain ⟨l, hlegs, hstock⟩ := unsearched_single hsearch hmem
    rw [hlegs]
    exact ⟨List.cons_ne_nil _ _, fun l' hl' => List.mem_singleton.mp hl' ▸ hstock⟩

/-- The bytes the reservation asks each pool for. -/
theorem wp_reserve_planned {depth : Nat} {ranges : ResolvedRanges} {p : ChunkPlan} {w : World}
    {r : Ref} {i : Tid} (hfound : (plan inp).found = true)
    (hbuild : ChunkPlan.build (chunkInput inp.policy ranges (plan inp).best.legs) = .ok p)
    (h : Idle inp p w r) :
    wp served (granted i) (reserveStaging depth r)
      (fun e _ => e.ok = true ↔ ∀ b, Holds ((sizing inp).capacity b) p.chunkSize
        (depth * poolNodes (intermediate (plan inp).best.nodes) b)) w := by
  have hdrawn : Drawn (sizing inp).capacity p.chunkSize (fun _ => 0) w := by
    refine ⟨?_, ?_, ?_⟩
    all_goals
      intro b
      cases b <;> simp [stagingKind, World.pool, h.host, h.pinned, Sizing.capacity, sizing]
  have hreserve := wp_reserveStaging depth (i := i) (r := r)
    (by rw [h.route]; exact (best_legs hfound).1)
    (ChunkPlan.build_size_ne_zero hbuild) (by rw [h.chunkPlan]) hdrawn
  rw [h.route] at hreserve
  exact hreserve

/-- The chunk size of a submission that moves something. -/
theorem planned_chunkSize {ranges : ResolvedRanges} {p : ChunkPlan}
    (hfound : (plan inp).found = true) (hranges : ranges.bytes = inp.bytes) (hbytes : inp.bytes ≠ 0)
    (hbuild : ChunkPlan.build (chunkInput inp.policy ranges (plan inp).best.legs) = .ok p) :
    p.chunkSize = (sizing inp).chunk := by
  obtain ⟨hne, hstock⟩ := best_legs hfound
  rw [chunkInput_stock _ _ hne hstock] at hbuild
  obtain ⟨-, -, -, -, -, -, hsize⟩ := ChunkPlan.build_ok_inv hbuild
  have htotal : (chunkInput inp.policy ranges [{}]).total ≠ 0 := fun hzero =>
    hbytes (hranges.symm.trans hzero)
  exact (hsize htotal).1

theorem build_planned_iff (ranges : ResolvedRanges) (hfound : (plan inp).found = true) :
    (∃ p, ChunkPlan.build (chunkInput inp.policy ranges (plan inp).best.legs) = .ok p) ↔
      4096 ≤ inp.policy.maxChunkSize.toNat := by
  obtain ⟨hne, hstock⟩ := best_legs hfound
  rw [chunkInput_stock _ _ hne hstock]
  have hmax : (chunkInput inp.policy ranges [{}]).minChunk ≤
      (chunkInput inp.policy ranges [{}]).maxChunk ↔ 4096 ≤ inp.policy.maxChunkSize.toNat := by
    change (4096 : ByteCount) ≤ (if (256 * 1024 * 1024 : ByteCount) < inp.policy.maxChunkSize
      then 256 * 1024 * 1024 else inp.policy.maxChunkSize) ↔ _
    split_ifs with hlarge
    · have : (256 * 1024 * 1024 : ByteCount).toNat < inp.policy.maxChunkSize.toNat := hlarge
      have hmega : (256 * 1024 * 1024 : ByteCount).toNat = 268435456 := rfl
      exact iff_of_true (by decide) (by omega)
    · exact UInt64.le_iff_toNat_le
  rw [← hmax]
  constructor
  · rintro ⟨p, hp⟩
    exact (ChunkPlan.build_ok_inv hp).2.1
  · intro hle
    have hmin : (4096 : ByteCount) ≠ 0 := by decide
    have halign : (16 : ByteCount) ≠ 0 := by decide
    exact ChunkPlan.build_ok _ hmin hle halign

theorem exists_idle (inp : PlannerInput) {input : ChunkPlanInput} {p : ChunkPlan}
    (h : ChunkPlan.build input = .ok p) : ∃ w, Idle inp p w 0 :=
  ⟨{ scheduler := { maxQueued := 1 }
     hostPool := { capacityBytes := inp.hostStagingCapacity }
     pinnedPool := { capacityBytes := inp.pinnedStagingCapacity }
     heap := fun _ =>
       { body := { route := (plan inp).best, chunkPlan := { plan := p, built := Or.inr ⟨_, h⟩ } } } },
    rfl, rfl, rfl, rfl⟩

/-- What it takes for the reservation of the best route to go through. -/
theorem covered_iff {depth : Nat} (hfound : (plan inp).found = true) (hbytes : inp.bytes ≠ 0)
    (hmax : 4096 ≤ inp.policy.maxChunkSize.toNat) :
    Covered inp depth ↔ ∀ b, Holds ((sizing inp).capacity b) (sizing inp).chunk
      (depth * poolNodes (intermediate (plan inp).best.nodes) b) := by
  constructor
  · intro hcovered
    obtain ⟨p, hbuild⟩ :=
      (build_planned_iff { src := {}, dst := {}, bytes := inp.bytes } hfound).mpr hmax
    obtain ⟨w, hidle⟩ := exists_idle inp hbuild
    rw [← planned_chunkSize hfound rfl hbytes hbuild]
    obtain ⟨e, w', hok, hiff⟩ := wp_served (wp_and _
      (hcovered _ p hfound rfl hbuild w 0 0 hidle) (wp_reserve_planned hfound hbuild hidle))
    exact hiff.mp hok
  · intro hholds ranges p _ hranges hbuild w r i hidle
    rw [← planned_chunkSize hfound hranges hbytes hbuild] at hholds
    exact wp_mono _ (wp_reserve_planned hfound hbuild hidle) fun e w' hiff => hiff.mpr hholds

/-- A single leg needs no staging. -/
theorem covered_unsearched {depth : Nat} (h : ¬ Searches inp) : Covered inp depth := by
  intro ranges p hfound _ hbuild w r i hidle
  obtain ⟨l, hlegs, -⟩ := unsearched_single h (best_mem_candidates hfound)
  refine wp_mono _ (wp_reserve_planned hfound hbuild hidle) fun e w' hiff => hiff.mpr ?_
  have hinner : intermediate (plan inp).best.nodes = [] := by
    rw [Route.nodes, hlegs]
    rfl
  intro b k hk
  rw [hinner] at hk
  simp only [poolNodes, List.countP_nil, Nat.mul_zero, Nat.le_zero] at hk
  simp [hk]

theorem Open.estimate {c : Course} (h : Open inp c) {hub : MemoryDomain}
    (hhub : isStagingDomain hub = true)
    (hpass : c.passes inp.src.memoryDomain inp.dst.memoryDomain hub ≠ 0) :
    (sizing inp).Estimate (hub = .hostPinned) := by
  unfold Course.passes at hpass
  split_ifs at hpass with hif
  · have hfits := h.fits hub hif.1 hhub hif.2
    rw [hubCapacity] at hfits
    rw [Sizing.Estimate, Sizing.capacity]
    simp only [decide_eq_true_eq]
    exact hfits
  · exact absurd rfl hpass

theorem Course.passes_le (s t : MemoryDomain) (c : Course) (hub : MemoryDomain) :
    c.passes s t hub ≤ 1 := by
  unfold Course.passes
  split_ifs <;> omega

/-- The sizes cover every course the input leaves open. -/
theorem Open.covered {c : Course} (h : Open inp c) {depth : Nat}
    (hcovers : (sizing inp).Covers depth) :
    Holds ((sizing inp).capacity true) (sizing inp).chunk
        (depth * c.passes inp.src.memoryDomain inp.dst.memoryDomain .hostPinned) ∧
      Holds ((sizing inp).capacity false) (sizing inp).chunk
        (depth * (1 + c.passes inp.src.memoryDomain inp.dst.memoryDomain .hostPageable)) := by
  constructor
  · by_cases hpass : c.passes inp.src.memoryDomain inp.dst.memoryDomain .hostPinned = 0
    · rw [hpass]
      intro k hk
      simp [Nat.le_zero.mp hk]
    · refine (hcovers.pinned (h.estimate rfl hpass)).mono ?_
      exact (Nat.mul_le_mul_left _ (c.passes_le _ _ _)).trans_eq (Nat.mul_one _)
  · by_cases hpass : c.passes inp.src.memoryDomain inp.dst.memoryDomain .hostPageable = 0
    · rw [hpass, Nat.add_zero, Nat.mul_one]
      exact hcovers.detour
    · refine (hcovers.host (h.estimate rfl hpass)).mono ?_
      rw [Nat.mul_comm 2]
      have hle := c.passes_le inp.src.memoryDomain inp.dst.memoryDomain .hostPageable
      exact Nat.mul_le_mul_left _ (by omega)

/-- Sizes that satisfy the condition cover every input. -/
theorem covered_of_covers {depth : Nat} (hmax : 4096 ≤ inp.policy.maxChunkSize.toNat)
    (hcovers : (sizing inp).Covers depth) : Covered inp depth := by
  by_cases hsearch : Searches inp
  · by_cases hfound : (plan inp).found = true
    · rw [covered_iff hfound hsearch.bytes hmax]
      obtain ⟨p, hp, halong⟩ := candidate_along hsearch (best_mem_candidates hfound)
      obtain ⟨c, hopen, hfollows⟩ := hp.course hsearch.apart
      obtain ⟨htrue, hfalse⟩ := hfollows.poolNodes hsearch.apart hp.starts hp.ends hp.simple
      obtain ⟨hpinned, hhost⟩ := hopen.covered hcovers
      have hlegs := legs_le_passes _ _ hsearch.apart c hopen.mem_courses hopen.suits
      intro b
      rw [halong.nodes]
      cases b with
      | true =>
          rw [htrue]
          exact hpinned
      | false =>
          rw [hfalse]
          exact hhost.mono (Nat.mul_le_mul_left _ hlegs)
    · exact fun _ _ hplan => absurd hplan hfound
  · exact covered_unsearched hsearch

end Inputs

/-! Inputs that leave one course open. -/

/-- A transfer that has to go through `x`. -/
structure Detour where
  source : MemoryDomain
  target : MemoryDomain
  x : MemoryDomain
  backends : List String
  maxHops : ByteCount

namespace Detour

variable (d : Detour) (z : Sizing)

def input : PlannerInput :=
  { src := { memoryDomain := d.source, capabilities := .ofList [.readable] }
    dst := { memoryDomain := d.target, capabilities := .ofList [.writable] }
    bytes := 1
    policy := { z.policy with requireStaging := true, maxHops := d.maxHops }
    hostStagingCapacity := z.host
    pinnedStagingCapacity := z.pinned
    availableBackends := d.backends }

/-- Read off the graph: the detour is possible, and nothing else is. -/
structure Forced : Prop where
  apart : d.source ≠ d.target
  suits : Course.Suits d.source d.target (.through d.x)
  short : Course.legs d.source d.target (.through d.x) ≤ d.maxHops.toNat
  linked : ∀ e ∈ Course.reaches d.source d.target (.through d.x),
    Linked { availableBackends := d.backends } .hostPageable e
  only : ∀ c ∈ courses, c.Suits d.source d.target → c.legs d.source d.target ≤ d.maxHops.toNat →
    c.legs d.source d.target ≠ 1 →
    (∀ e ∈ c.reaches d.source d.target,
      Linked { availableBackends := d.backends } .hostPageable e) → c = .through d.x

instance : Decidable d.Forced :=
  decidable_of_iff (_ ∧ _ ∧ _ ∧ _ ∧ _)
    ⟨fun ⟨h₁, h₂, h₃, h₄, h₅⟩ => ⟨h₁, h₂, h₃, h₄, h₅⟩,
      fun h => ⟨h.apart, h.suits, h.short, h.linked, h.only⟩⟩

variable {d z}

theorem Forced.searches (h : d.Forced) : Searches (d.input z) := by
  refine ⟨⟨⟨?_, ?_⟩, rfl, rfl⟩, by simp [input], h.apart⟩
  · change (CapabilitySet.ofList [.readable]).has .readable = true
    decide
  · change (CapabilitySet.ofList [.writable]).has .writable = true
    decide

/-- The planner's checks for the hubs the detour passes. -/
def Checked (d : Detour) (z : Sizing) : Prop :=
  ∀ hub, isStagingDomain hub = true → hub ∉ [d.source, d.target] → z.Estimate (hub = .hostPinned)

theorem Forced.open (h : d.Forced) (hchecked : d.Checked z) : Open (d.input z) (.through d.x) := by
  refine ⟨h.suits, h.short, ⟨fun _ => ?_, fun hallow => by cases hallow⟩, ?_, h.linked⟩
  · have hlegs : Course.legs d.source d.target (.through d.x) =
        Course.outerEnds d.source d.target + 2 := rfl
    change Course.legs d.source d.target (.through d.x) ≠ 1
    omega
  · intro hub _ hhub hout
    have hestimate := hchecked hub hhub hout
    rw [Sizing.Estimate, Sizing.capacity] at hestimate
    simp only [decide_eq_true_eq] at hestimate
    exact hestimate

theorem Forced.course (h : d.Forced) {c : Course} (hopen : Open (d.input z) c) :
    c = .through d.x :=
  h.only c hopen.mem_courses hopen.suits hopen.short (hopen.permitted.1 rfl) hopen.linked

/-- What the reservation for the detour takes from the pools. -/
theorem Forced.demand {depth : Nat} (h : d.Forced) (hchecked : d.Checked z)
    (hmax : 4096 ≤ z.maximum.toNat) (hcovered : Covered (d.input z) depth) :
    Holds (z.capacity true) z.chunk
        (depth * Course.passes d.source d.target (.through d.x) .hostPinned) ∧
      Holds (z.capacity false) z.chunk
        (depth * (Course.legs d.source d.target (.through d.x) - 1 -
          Course.passes d.source d.target (.through d.x) .hostPinned)) := by
  have hsearch : Searches (d.input z) := h.searches
  obtain ⟨p, hp, -⟩ := (h.open hchecked).feasible hsearch.apart
  obtain ⟨r, hr, -⟩ := along_candidate hsearch hp
  have hfound : (plan (d.input z)).found = true := (found_iff _).mpr (List.ne_nil_of_mem hr)
  obtain ⟨q, hq, halong⟩ := candidate_along hsearch (best_mem_candidates hfound)
  obtain ⟨c, hopen, hfollows⟩ := hq.course hsearch.apart
  obtain rfl := h.course hopen
  obtain ⟨htrue, hfalse⟩ := hfollows.poolNodes hsearch.apart hq.starts hq.ends hq.simple
  have hholds := (covered_iff hfound hsearch.bytes hmax).mp hcovered
  rw [halong.nodes] at hholds
  have hpinned := hholds true
  have hhost := hholds false
  rw [htrue] at hpinned
  rw [hfalse] at hhost
  exact ⟨hpinned, hhost⟩

/-- From pinned to pageable memory by way of a device. -/
def unpin : Detour := ⟨.hostPinned, .hostPageable, .device, [BackendName.cuda], 2⟩

/-- From a hub to a device by way of a file and the other hub. -/
def spill (hub : MemoryDomain) : Detour :=
  ⟨hub, .device, .storage, [BackendName.cuda, BackendName.file], 3⟩

theorem unpin_forced : unpin.Forced := by decide +kernel

theorem spill_forced : ∀ hub, isStagingDomain hub = true → (spill hub).Forced := by decide +kernel

theorem unpin_checked : unpin.Checked z := by
  intro hub hhub hout
  have hnone : ∀ hub, isStagingDomain hub = true → hub ∈ [unpin.source, unpin.target] := by decide
  exact absurd (hnone hub hhub) hout

theorem spill_pageable_checked (h : z.Estimate true) : (spill .hostPageable).Checked z := by
  intro hub hhub hout
  have honly : ∀ hub, isStagingDomain hub = true →
      hub ∉ [(spill .hostPageable).source, (spill .hostPageable).target] → hub = .hostPinned := by
    decide
  rw [honly hub hhub hout]
  exact h

theorem spill_pinned_checked (h : z.Estimate false) : (spill .hostPinned).Checked z := by
  intro hub hhub hout
  have honly : ∀ hub, isStagingDomain hub = true →
      hub ∉ [(spill .hostPinned).source, (spill .hostPinned).target] → hub = .hostPageable := by
    decide
  rw [honly hub hhub hout]
  exact h

end Detour

theorem covers_of_covered {z : Sizing} {depth : Nat} (hmax : 4096 ≤ z.maximum.toNat)
    (h : ∀ inp, sizing inp = z → Covered inp depth) : z.Covers depth where
  detour := by
    have hdemand := (Detour.unpin_forced.demand Detour.unpin_checked hmax (h _ rfl)).2
    exact hdemand.mono (Nat.mul_one depth).ge
  host hestimate := by
    have hdemand := ((Detour.spill_forced .hostPinned rfl).demand
      (Detour.spill_pinned_checked hestimate) hmax (h _ rfl)).2
    exact hdemand.mono (Nat.mul_comm 2 depth).le
  pinned hestimate := by
    have hdemand := ((Detour.spill_forced .hostPageable rfl).demand
      (Detour.spill_pageable_checked hestimate) hmax (h _ rfl)).1
    exact hdemand.mono (Nat.mul_one depth).ge

/-- The planner's estimate covers the reservation, for all inputs of the sizes and whatever
the pipeline depth, exactly for these sizes. -/
theorem staging_estimate_covers_iff (rt : Runtime) (z : Sizing) :
    (∀ inp, sizing inp = z → Covered inp rt.depth) ↔
      (4096 ≤ z.maximum → z.Covers rt.depth) := by
  rw [UInt64.le_iff_toNat_le]
  constructor
  · intro h hmax
    exact covers_of_covered hmax h
  · rintro h inp rfl
    by_cases hmax : 4096 ≤ inp.policy.maxChunkSize.toNat
    · exact covered_of_covers hmax (h hmax)
    · intro ranges p hfound _ hbuild
      exact absurd ((build_planned_iff ranges hfound).mp ⟨p, hbuild⟩) hmax

/-- A file read to a device, in chunks of one page at least, with room for one page. -/
def smallChunks : PlannerInput :=
  { src := capsForKind (.fileRegion "in" 0 65536)
    dst := { memoryDomain := .device, capabilities := .ofList [.writable] }
    bytes := 65536
    policy := { preferredChunkSize := 1024 }
    hostStagingCapacity := 4096 }

/-- The estimate for chunks of 1 KiB fits into 4 KiB. Two chunks of 4 KiB do not. -/
theorem smallChunks_not_covered : (plan smallChunks).found = true ∧ ¬ Covered smallChunks 2 := by
  have hfound : (plan smallChunks).found = true := by decide +kernel
  refine ⟨hfound, fun hcovered => ?_⟩
  have hholds := (covered_iff hfound (by decide) (by decide)).mp hcovered false 2
    (by decide +kernel)
  exact absurd hholds (by decide +kernel)

end DefaultRoutePlanner

end TransferFabric
