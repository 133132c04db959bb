import Mathlib.Algebra.Order.BigOperators.Group.List
import Mathlib.Algebra.Order.Field.Rat
import Mathlib.Tactic.Linarith
import Mathlib.Tactic.Positivity
import TransferFabric.Planner.Courses

/-!
The candidates as the planner returns them: in the order of their costs, with
the surcharge that routes other than the direct one get where the policy prefers
it. Costs are compared as exact numbers, so nothing is claimed about two routes
whose costs the source's doubles cannot tell apart.
-/

namespace TransferFabric

open Paths

namespace CostModel

/-- The time a byte takes on a leg, as the cost model sees it. -/
def timePerByte (l : Leg) : Rat :=
  1 / if l.estimatedBandwidth > 0 then l.estimatedBandwidth else 1

def legRetry (l : Leg) : Rat := if l.caps.has .stagedCopy then 0.05 else 0

theorem foldl_addLeg (n : Nat) (bytes : ByteCount) (legs : List Leg) (i : Nat) (s : Sums) :
    let out := (legs.zipIdx i).foldl (addLeg n bytes) s
    out.setup = s.setup + (legs.map Leg.fixedSetup).sum ∧
      out.bwTime = s.bwTime + bytes.toNat * (legs.map timePerByte).sum ∧
      out.hop = s.hop + legs.length ∧
      out.retry = s.retry + (legs.map legRetry).sum := by
  induction legs generalizing i s with
  | nil => simp
  | cons l legs ih =>
      obtain ⟨hsetup, htime, hhop, hretry⟩ := ih (i + 1) (addLeg n bytes s (l, i))
      simp only [List.zipIdx_cons, List.foldl_cons, List.map_cons, List.sum_cons,
        List.length_cons, hsetup, htime, hhop, hretry]
      simp only [addLeg, timePerByte, legRetry, Nat.cast_add, Nat.cast_one]
      refine ⟨?_, ?_, ?_, ?_⟩ <;> ring

/-- A route costs at least what its legs cost without the staging penalty. -/
theorem evaluate_total_ge {legs : List Leg} (bytes : ByteCount) {w : RouteWeights}
    (hne : legs ≠ []) (hw : 0 ≤ w.staging) :
    (legs.map Leg.fixedSetup).sum * w.fixedSetup +
          bytes.toNat * (legs.map timePerByte).sum * w.bandwidth + legs.length * w.hop +
        (legs.map legRetry).sum * w.retryRisk ≤ (evaluate legs bytes w).total := by
  obtain ⟨hsetup, htime, hhop, hretry⟩ := foldl_addLeg legs.length bytes legs 0 {}
  simp only [zero_add] at hsetup htime hhop hretry
  simp only [evaluate, if_neg hne, hsetup, htime, hhop, hretry]
  have hstaging : (0 : Rat) ≤ ((legs.zipIdx.foldl (addLeg legs.length bytes) {}).stagedBytes.toNat : Rat) /
      (1e9 + bytes.toNat) * w.staging := by positivity
  linarith

/-- A single leg that is not staged has no staging penalty. -/
theorem evaluate_single {l : Leg} (bytes : ByteCount) (w : RouteWeights) (h : l.staged = false) :
    (evaluate [l] bytes w).total =
      l.fixedSetup * w.fixedSetup + bytes.toNat * timePerByte l * w.bandwidth + w.hop +
        legRetry l * w.retryRisk := by
  obtain ⟨hsetup, htime, hhop, hretry⟩ := foldl_addLeg 1 bytes [l] 0 {}
  have hstaged : (([l].zipIdx).foldl (addLeg 1 bytes) {}).stagedBytes = 0 := by
    simp [addLeg, h]
  simp only [zero_add, List.map_cons, List.map_nil, List.sum_singleton, List.length_singleton,
    Nat.cast_one] at hsetup htime hhop hretry
  simp only [evaluate, List.cons_ne_nil, if_false, List.length_singleton, hsetup, htime, hhop,
    hretry, hstaged]
  simp
end CostModel

namespace DefaultRoutePlanner

section Order

theorem byCost_sorted (rs : List Route) :
    (byCost rs).Pairwise fun a b => a.cost.total ≤ b.cost.total := by
  have htotal : Std.Total fun a b : Route => a.cost.total ≤ b.cost.total :=
    ⟨fun a b => le_total a.cost.total b.cost.total⟩
  have htrans : IsTrans Route fun a b => a.cost.total ≤ b.cost.total :=
    ⟨fun _ _ _ hab hbc => hab.trans hbc⟩
  exact List.pairwise_insertionSort _ rs

theorem rank_sorted (preferDirect : Bool) (rs : List Route) :
    (rank preferDirect rs).Pairwise fun a b => a.cost.total ≤ b.cost.total := by
  unfold rank
  dsimp only
  split_ifs
  · exact byCost_sorted _
  · exact byCost_sorted rs

end Order

/-! What a candidate is. -/

/-- A path of one leg that does not go over the network. -/
def directPath (p : List MemoryDomain) : Bool := p.length = 2 ∧ remoteAlong p = false

instance (inp : PlannerInput) (p : List MemoryDomain) : Decidable (FeasiblePath inp p) :=
  decidable_of_iff (_ ∧ _ ∧ _ ∧ _ ∧ _ ∧ _ ∧ _ ∧ _)
    ⟨fun ⟨h₁, h₂, h₃, h₄, h₅, h₆, h₇, h₈⟩ => ⟨h₁, h₂, h₃, h₄, h₅, h₆, h₇, h₈⟩,
      fun h => ⟨h.starts, h.ends, h.simple, h.linked, h.short, h.pageable, h.pinned, h.permitted⟩⟩

/-- The direct path between the endpoint domains is feasible. -/
def hasDirect (inp : PlannerInput) : Bool :=
  let p := [inp.src.memoryDomain, inp.dst.memoryDomain]
  FeasiblePath inp p ∧ directPath p

/-- What the route along a path costs, with the surcharge for not being direct. -/
def adjustedCost (inp : PlannerInput) (p : List MemoryDomain) : Rat :=
  (CostModel.evaluate (legsAlong inp p) inp.bytes inp.policy.weights).total +
    if inp.policy.preferDirect ∧ hasDirect inp ∧ ¬ directPath p then 0.5 else 0

/-- The candidate along a path. -/
structure CandidateAlong (inp : PlannerInput) (p : List MemoryDomain) (r : Route) : Prop where
  legs : r.legs = legsAlong inp p
  nodes : r.nodes = p
  direct : r.isDirect = directPath p
  remote : r.routeClass = .remote ↔ remoteAlong p = true
  cost : r.cost.total = adjustedCost inp p

section Candidates

variable {inp : PlannerInput}

theorem RouteAlong.isDirect {p : List MemoryDomain} {r : Route} (h : RouteAlong inp p r) :
    r.isDirect = directPath p := by
  rw [Route.isDirect, h.routeClass, directPath]
  cases remoteAlong p <;> by_cases htwo : p.length = 2 <;> simp [htwo]

theorem RouteAlong.remote {p : List MemoryDomain} {r : Route} (h : RouteAlong inp p r) :
    r.routeClass = .remote ↔ remoteAlong p = true := by
  rw [h.routeClass]
  cases remoteAlong p <;> by_cases htwo : p.length = 2 <;> simp [htwo]

theorem FeasiblePath.two_le (hne : inp.src.memoryDomain ≠ inp.dst.memoryDomain)
    {p : List MemoryDomain} (h : FeasiblePath inp p) : 2 ≤ p.length := by
  rw [split_ends hne h.starts h.ends]
  simp

/-- A path of two domains has the endpoint domains at its ends. -/
theorem FeasiblePath.eq_pair (hne : inp.src.memoryDomain ≠ inp.dst.memoryDomain)
    {p : List MemoryDomain} (h : FeasiblePath inp p) (htwo : p.length = 2) :
    p = [inp.src.memoryDomain, inp.dst.memoryDomain] := by
  have hp := split_ends hne h.starts h.ends
  have hinner : intermediate p = [] := by
    rw [hp] at htwo
    simpa using htwo
  rw [hp, hinner]
  rfl

theorem any_direct_iff (h : Searches inp) :
    (searchRoutes inp).any Route.isDirect = hasDirect inp := by
  rw [Bool.eq_iff_iff, List.any_eq_true]
  simp only [mem_searchRoutes h, hasDirect, decide_eq_true_eq]
  constructor
  · rintro ⟨r, ⟨p, hp, hr⟩, hdirect⟩
    rw [(hp.routeAlong h hr).isDirect] at hdirect
    have htwo : p.length = 2 := (of_decide_eq_true hdirect).1
    rw [← hp.eq_pair h.apart htwo]
    exact ⟨hp, hdirect⟩
  · rintro ⟨hp, hdirect⟩
    obtain ⟨-, r, hr⟩ := (feasiblePath_iff h _).mp hp
    exact ⟨r, ⟨_, hp, hr⟩, (hp.routeAlong h hr).isDirect.trans hdirect⟩

/-- What the ranking makes of a route. -/
def surcharged (inp : PlannerInput) (r : Route) : Route :=
  if inp.policy.preferDirect = true ∧ hasDirect inp = true then penalise r else r

theorem candidates_perm (h : Searches inp) :
    (plan inp).candidates.Perm ((searchRoutes inp).map (surcharged inp)) := by
  have hrank := rank_perm inp.policy.preferDirect (searchRoutes inp)
  rw [any_direct_iff h] at hrank
  rw [candidates_admits h.admits, plannedRoutes, if_neg h.bytes, if_neg h.apart]
  refine hrank.trans (List.Perm.of_eq ?_)
  unfold surcharged
  split_ifs
  · rfl
  · exact (List.map_id' _).symm

theorem RouteAlong.candidate {p : List MemoryDomain} {r : Route} (h : RouteAlong inp p r)
    (hp : FeasiblePath inp p) (hne : inp.src.memoryDomain ≠ inp.dst.memoryDomain) :
    CandidateAlong inp p (surcharged inp r) := by
  have hnodes := nodes_legsAlong h.legs hp.linked (hp.two_le hne)
  have hdirect := h.isDirect
  have hcost : (surcharged inp r).cost.total = adjustedCost inp p := by
    unfold surcharged adjustedCost penalise
    rw [← h.cost, hdirect]
    by_cases hpd : inp.policy.preferDirect = true ∧ hasDirect inp = true
    · cases directPath p <;> simp [hpd]
    · rw [if_neg hpd, if_neg (fun hall => hpd ⟨hall.1, hall.2.1⟩), add_zero]
  have hrest : (surcharged inp r).legs = r.legs ∧ (surcharged inp r).routeClass = r.routeClass := by
    unfold surcharged penalise
    split_ifs <;> exact ⟨rfl, rfl⟩
  refine ⟨hrest.1.trans h.legs, ?_, ?_, ?_, hcost⟩
  · rw [← hnodes, Route.nodes, Route.nodes, hrest.1]
  · rw [← hdirect, Route.isDirect, Route.isDirect, hrest.2]
  · rw [hrest.2]
    exact h.remote

/-- Every candidate goes along a feasible path. -/
theorem candidate_along (h : Searches inp) {r : Route} (hr : r ∈ (plan inp).candidates) :
    ∃ p, FeasiblePath inp p ∧ CandidateAlong inp p r := by
  obtain ⟨r, hmem, rfl⟩ := List.mem_map.mp ((candidates_perm h).mem_iff.mp hr)
  obtain ⟨p, hp, hbuilt⟩ := (mem_searchRoutes h r).mp hmem
  exact ⟨p, hp, (hp.routeAlong h hbuilt).candidate hp h.apart⟩

/-- Every feasible path has its candidate. -/
theorem along_candidate (h : Searches inp) {p : List MemoryDomain} (hp : FeasiblePath inp p) :
    ∃ r ∈ (plan inp).candidates, CandidateAlong inp p r := by
  obtain ⟨-, r, hbuilt⟩ := (feasiblePath_iff h p).mp hp
  refine ⟨surcharged inp r, (candidates_perm h).mem_iff.mpr (List.mem_map_of_mem ?_),
    (hp.routeAlong h hbuilt).candidate hp h.apart⟩
  exact (mem_searchRoutes h r).mpr ⟨p, hp, hbuilt⟩

/-- What is read back from the results of a partial map is a part of the list. -/
theorem filterMap_map_sublist {α β : Type*} {f : α → Option β} {g : β → α} {l : List α}
    (h : ∀ a ∈ l, ∀ b, f a = some b → g b = a) : ((l.filterMap f).map g).Sublist l := by
  induction l with
  | nil => exact List.Sublist.slnil
  | cons a l ih =>
      have hrest := ih fun a ha => h a (List.mem_cons_of_mem _ ha)
      cases hf : f a with
      | none =>
          rw [List.filterMap_cons_none hf]
          exact hrest.cons a
      | some b =>
          rw [List.filterMap_cons_some hf, List.map_cons, h a List.mem_cons_self b hf]
          exact hrest.cons_cons a

/-- No path is listed twice. -/
theorem candidates_nodup (h : Searches inp) : ((plan inp).candidates.map Route.nodes).Nodup := by
  refine ((candidates_perm h).map Route.nodes).nodup_iff.mpr ?_
  rw [List.map_map, searchRoutes, dfs_eq]
  refine (search_nodup (openNeighbours_nodup inp) _ _ _).sublist (filterMap_map_sublist ?_)
  intro p hp r hr
  have hfeasible : FeasiblePath inp p := (feasiblePath_iff h p).mpr ⟨hp, r, hr⟩
  exact ((hfeasible.routeAlong h hr).candidate hfeasible h.apart).nodes

theorem best_cheapest (h : Searches inp) (hfound : (plan inp).found = true) {r : Route}
    (hr : r ∈ (plan inp).candidates) : (plan inp).best.cost.total ≤ r.cost.total := by
  obtain ⟨rest, hbest⟩ := best_eq_head hfound
  have hsorted : (plan inp).candidates.Pairwise fun a b => a.cost.total ≤ b.cost.total := by
    rw [candidates_admits h.admits, plannedRoutes, if_neg h.bytes, if_neg h.apart]
    exact rank_sorted _ _
  rw [hbest] at hsorted hr
  rcases List.mem_cons.mp hr with rfl | hr
  · exact le_refl _
  · exact (List.pairwise_cons.mp hsorted).1 r hr

/-- Between different domains the candidates are exactly the feasible paths, each
once; a route is found if there is one, and the best route is a cheapest one. -/
theorem route_search_exact (h : Searches inp) :
    ((plan inp).candidates.map Route.nodes).Nodup ∧
      (∀ p, p ∈ (plan inp).candidates.map Route.nodes ↔ FeasiblePath inp p) ∧
      ((plan inp).found = true ↔ ∃ p, FeasiblePath inp p) ∧
      (∀ r ∈ (plan inp).candidates, r.cost.total = adjustedCost inp r.nodes) ∧
      ((plan inp).found = true → FeasiblePath inp (plan inp).best.nodes ∧
        ∀ p, FeasiblePath inp p →
          adjustedCost inp (plan inp).best.nodes ≤ adjustedCost inp p) := by
  have hmem : ∀ p, p ∈ (plan inp).candidates.map Route.nodes ↔ FeasiblePath inp p := by
    intro p
    constructor
    · intro hp
      obtain ⟨r, hr, rfl⟩ := List.mem_map.mp hp
      obtain ⟨q, hq, halong⟩ := candidate_along h hr
      exact halong.nodes ▸ hq
    · intro hp
      obtain ⟨r, hr, halong⟩ := along_candidate h hp
      exact List.mem_map.mpr ⟨r, hr, halong.nodes⟩
  have hcost : ∀ r ∈ (plan inp).candidates, r.cost.total = adjustedCost inp r.nodes := by
    intro r hr
    obtain ⟨p, -, halong⟩ := candidate_along h hr
    rw [halong.cost, halong.nodes]
  refine ⟨candidates_nodup h, hmem, ?_, hcost, ?_⟩
  · rw [found_iff]
    constructor
    · intro hne
      obtain ⟨r, hr⟩ := List.exists_mem_of_ne_nil _ hne
      exact ⟨r.nodes, (hmem _).mp (List.mem_map_of_mem hr)⟩
    · rintro ⟨p, hp⟩
      obtain ⟨r, hr, -⟩ := along_candidate h hp
      exact List.ne_nil_of_mem hr
  · intro hfound
    have hbest := best_mem_candidates hfound
    refine ⟨(hmem _).mp (List.mem_map_of_mem hbest), ?_⟩
    intro p hp
    obtain ⟨r, hr, halong⟩ := along_candidate h hp
    rw [← hcost _ hbest, ← halong.cost]
    exact best_cheapest h hfound hr

end Candidates

/-- A pageable host buffer written to a file, with the default policy. -/
def hostToFile : PlannerInput :=
  { src := capsForKind (.hostMemory 4096 65536), dst := capsForKind (.fileRegion "out" 0 65536)
    bytes := 65536, hostStagingCapacity := 0x10000000, pinnedStagingCapacity := 0x10000000
    availableBackends := [BackendName.host, BackendName.file] }

theorem hostToFile_searched : Searches hostToFile ∧
    ((plan hostToFile).found = true ↔ ∃ p, FeasiblePath hostToFile p) := by
  have h : Searches hostToFile := ⟨⟨⟨by decide, by decide⟩, by decide, by decide⟩, by decide, by decide⟩
  exact ⟨h, (route_search_exact h).2.2.1⟩

/-! Direct routes. -/

/-- What a hop adds to the setup time. -/
def hopSetup (ab : MemoryDomain × MemoryDomain) : Rat :=
  ((edgeBetween ab.1 ab.2).map EdgeDef.setup).getD 0

/-- What a hop adds to the time a byte takes. -/
def hopTime (ab : MemoryDomain × MemoryDomain) : Rat :=
  ((edgeBetween ab.1 ab.2).map fun e => 1 / e.bw).getD 0

/-- No detour through the table is faster than the edge between its ends, in setup or per byte. -/
theorem simplePaths_slower : ∀ s t, s ≠ t → ∀ p ∈ simplePaths s t,
    hopSetup (s, t) ≤ ((hops p).map hopSetup).sum ∧
      hopTime (s, t) ≤ ((hops p).map hopTime).sum := by
  decide +kernel

theorem edges_bandwidth : ∀ e ∈ edges, 0 < e.bw := by
  decide +kernel

structure NonNegWeights (w : RouteWeights) : Prop where
  fixedSetup : 0 ≤ w.fixedSetup
  bandwidth : 0 ≤ w.bandwidth
  staging : 0 ≤ w.staging
  hop : 0 ≤ w.hop
  queue : 0 ≤ w.queue
  verification : 0 ≤ w.verification
  retryRisk : 0 ≤ w.retryRisk
  concurrency : 0 ≤ w.concurrency

section Direct

variable {inp : PlannerInput}

theorem legBetween_setup (ab : MemoryDomain × MemoryDomain) :
    (legBetween inp ab).fixedSetup = hopSetup ab := by
  cases h : edgeBetween ab.1 ab.2 <;> simp [legBetween, hopSetup, plannedLeg, h]

theorem legBetween_time {ab : MemoryDomain × MemoryDomain} (h : Linked inp ab.1 ab.2) :
    CostModel.timePerByte (legBetween inp ab) = hopTime ab := by
  obtain ⟨e, he, hjoins, -⟩ := h
  have hpos : e.bw > 0 := edges_bandwidth e he
  simp [legBetween, hopTime, plannedLeg, CostModel.timePerByte,
    edgeBetween_of_joins ab.1 ab.2 e he hjoins, hpos]

theorem legBetween_retry {a : MemoryDomain} (h : Linked inp a inp.dst.memoryDomain) :
    CostModel.legRetry (legBetween inp (a, inp.dst.memoryDomain)) =
      if inp.dst.capabilities.has .stagedCopy then 0.05 else 0 := by
  obtain ⟨e, he, hjoins, -⟩ := h
  simp [legBetween, plannedLeg, CostModel.legRetry, edgeBetween_of_joins _ _ e he hjoins]

/-- The leg into the destination domain alone is as risky as the direct one. -/
theorem retry_le_sum {p : List MemoryDomain} (hne : inp.src.memoryDomain ≠ inp.dst.memoryDomain)
    (hp : FeasiblePath inp p) :
    (if inp.dst.capabilities.has .stagedCopy then 0.05 else 0 : Rat) ≤
      ((legsAlong inp p).map CostModel.legRetry).sum := by
  have hlast : inp.dst.memoryDomain ∈ (hops p).map Prod.snd := by
    rw [hops_snd, split_ends hne hp.starts hp.ends]
    simp
  obtain ⟨⟨a, b⟩, hab, hb⟩ := List.mem_map.mp hlast
  change b = inp.dst.memoryDomain at hb
  subst hb
  have hlinked := (isChain_iff_hops p).mp hp.linked _ hab
  rw [← legBetween_retry hlinked]
  refine List.single_le_sum ?_ _ (List.mem_map_of_mem (List.mem_map_of_mem hab))
  intro x hx
  obtain ⟨l, -, rfl⟩ := List.mem_map.mp hx
  unfold CostModel.legRetry
  split_ifs <;> norm_num

/-- The direct route costs no more than any other one. -/
theorem direct_cheapest (hne : inp.src.memoryDomain ≠ inp.dst.memoryDomain)
    (hw : NonNegWeights inp.policy.weights)
    (hd : FeasiblePath inp [inp.src.memoryDomain, inp.dst.memoryDomain])
    {p : List MemoryDomain} (hp : FeasiblePath inp p) :
    (CostModel.evaluate (legsAlong inp [inp.src.memoryDomain, inp.dst.memoryDomain]) inp.bytes
        inp.policy.weights).total ≤
      (CostModel.evaluate (legsAlong inp p) inp.bytes inp.policy.weights).total := by
  have hlinked : Linked inp inp.src.memoryDomain inp.dst.memoryDomain :=
    (List.isChain_cons_cons.mp hd.linked).1
  have hchain : p.IsChain fun a b => b ∈ neighbours a :=
    hp.linked.imp fun _ _ hlinked => hlinked.neighbours
  obtain ⟨hsetup, htime⟩ := simplePaths_slower _ _ hne p
    ((mem_simplePaths hne p).mpr ⟨hp.starts, hp.ends, hp.simple, hchain⟩)
  have hstaged : (legBetween inp (inp.src.memoryDomain, inp.dst.memoryDomain)).staged = false := by
    obtain ⟨e, he, hjoins, -⟩ := hlinked
    simp [legBetween, plannedLeg, edgeBetween_of_joins _ _ e he hjoins]
  have hlen : (legsAlong inp p).length = p.length - 1 := by
    rw [legsAlong, List.length_map, length_hops]
  have hone : 1 ≤ (legsAlong inp p).length := by
    have := hp.two_le hne
    omega
  have hsetups : (legsAlong inp p).map Leg.fixedSetup = (hops p).map hopSetup := by
    rw [legsAlong, List.map_map]
    exact List.map_congr_left fun ab _ => legBetween_setup ab
  have htimes : (legsAlong inp p).map CostModel.timePerByte = (hops p).map hopTime := by
    rw [legsAlong, List.map_map]
    exact List.map_congr_left fun ab hab =>
      legBetween_time ((isChain_iff_hops p).mp hp.linked ab hab)
  have hge := CostModel.evaluate_total_ge inp.bytes
    (List.ne_nil_of_length_pos hone) hw.staging
  refine le_trans ?_ hge
  change (CostModel.evaluate [legBetween inp (inp.src.memoryDomain, inp.dst.memoryDomain)] inp.bytes
    inp.policy.weights).total ≤ _
  rw [CostModel.evaluate_single _ _ hstaged, legBetween_setup, legBetween_time hlinked,
    legBetween_retry hlinked, hsetups, htimes]
  have hone' : (1 : Rat) ≤ (legsAlong inp p).length := by exact_mod_cast hone
  have hbytes : (0 : Rat) ≤ inp.bytes.toNat := Nat.cast_nonneg _
  gcongr
  · exact hw.fixedSetup
  · exact hw.bandwidth
  · exact le_mul_of_one_le_left hw.hop hone'
  · exact hw.retryRisk
  · exact retry_le_sum hne hp

/-- Of the two routes that are built without a search there is no other candidate. -/
theorem candidates_single (h : Admits inp)
    (hno : inp.bytes = 0 ∨ inp.src.memoryDomain = inp.dst.memoryDomain) :
    (plan inp).candidates = [] ∨ ∃ r, (plan inp).candidates = [r] ∧ r.legs.length = 1 ∧
      r.isDirect = true := by
  rw [candidates_admits h, plannedRoutes]
  split_ifs with hbytes hsame hknown
  · exact Or.inr ⟨_, rfl, rfl, rfl⟩
  · exact Or.inr ⟨_, rfl, rfl, rfl⟩
  · exact Or.inl rfl
  · exact absurd hno (not_or.mpr ⟨hbytes, hsame⟩)

/-- Where the policy prefers direct routes and a candidate is one, the best route is one. -/
theorem prefer_direct_wins (hprefer : inp.policy.preferDirect = true)
    (hw : NonNegWeights inp.policy.weights)
    (hdirect : ∃ r ∈ (plan inp).candidates, r.legs.length = 1 ∧ r.routeClass ≠ .remote) :
    (plan inp).best.legs.length = 1 ∧ (plan inp).best.isDirect = true := by
  obtain ⟨r, hr, hlegs, hremote⟩ := hdirect
  have hadmits := admits_of_candidate hr
  have hfound : (plan inp).found = true := (found_iff inp).mpr (List.ne_nil_of_mem hr)
  by_cases hno : inp.bytes = 0 ∨ inp.src.memoryDomain = inp.dst.memoryDomain
  · have hbest := best_mem_candidates hfound
    rcases candidates_single hadmits hno with hnil | ⟨only, hone, hlen, hisDirect⟩
    · rw [hnil] at hr
      cases hr
    · rw [hone, List.mem_singleton] at hbest
      rw [hbest]
      exact ⟨hlen, hisDirect⟩
  · rw [not_or] at hno
    have h : Searches inp := ⟨hadmits, hno.1, hno.2⟩
    obtain ⟨p, hp, halong⟩ := candidate_along h hr
    obtain ⟨q, hq, hbest⟩ := candidate_along h (best_mem_candidates hfound)
    have hpair : p.length = 2 := by
      have hlen := congrArg List.length halong.legs
      rw [hlegs, legsAlong, List.length_map, length_hops] at hlen
      have := hp.two_le h.apart
      omega
    have hp' := hp.eq_pair h.apart hpair
    have hlocal : directPath p = true := by
      have : remoteAlong p = false := by
        rw [← Bool.not_eq_true, ← halong.remote]
        exact hremote
      simp [directPath, hpair, this]
    have hhas : hasDirect inp = true := by
      simp only [hasDirect, decide_eq_true_eq]
      exact ⟨hp' ▸ hp, hp' ▸ hlocal⟩
    have hqdirect : directPath q = true := by
      by_contra hnot
      have hle := best_cheapest h hfound hr
      rw [hbest.cost, halong.cost, adjustedCost, adjustedCost, if_pos ⟨hprefer, hhas, hnot⟩,
        if_neg (fun hall => hall.2.2 hlocal), hp'] at hle
      have hcheap := direct_cheapest h.apart hw (hp' ▸ hp) hq
      norm_num at hle
      linarith
    refine ⟨?_, hbest.direct.trans hqdirect⟩
    rw [hbest.legs, legsAlong, List.length_map, length_hops, (of_decide_eq_true hqdirect).1]

end Direct

theorem hostToFile_direct : (plan hostToFile).best.legs.length = 1 ∧
    (plan hostToFile).best.isDirect = true := by
  refine prefer_direct_wins rfl ?_ ?_
  · exact ⟨by decide, by decide, by decide, by decide, by decide, by decide +kernel, by decide,
      by decide +kernel⟩
  · decide +kernel

/-! The structural limits of the policy. -/

/-- A route keeps to the hop limit and to the staging switches. -/
structure KeepsStructure (policy : TransferPolicy) (r : Route) : Prop where
  hops : r.legs.length ≤ policy.maxHops.toNat
  required : policy.requireStaging = true → 2 ≤ r.legs.length
  allowed : policy.allowStaging = false → r.legs.length = 1

/-- The routes the search finds keep to the structural limits. The route within one
domain is built without looking at them: it does so only if one leg is within the
hop limit and staging is not required. -/
theorem structural_policy_iff (inp : PlannerInput) (hbytes : inp.bytes ≠ 0) :
    (∀ r ∈ (plan inp).candidates, KeepsStructure inp.policy r) ↔
      (Admits inp → inp.src.memoryDomain = inp.dst.memoryDomain →
        backendKnown (sameDomainBackend inp.src.memoryDomain) inp.availableBackends = true →
          0 < inp.policy.maxHops.toNat ∧ inp.policy.requireStaging = false) := by
  constructor
  · intro hkeeps hadmits hsame hknown
    have hmem : sameDomainRoute inp ∈ (plan inp).candidates := by
      rw [candidates_admits hadmits, plannedRoutes, if_neg hbytes, if_pos hsame, if_pos hknown]
      exact List.mem_cons_self
    obtain ⟨hhops, hrequired, -⟩ := hkeeps _ hmem
    refine ⟨hhops, ?_⟩
    rw [← Bool.not_eq_true]
    intro hreq
    have : 2 ≤ 1 := hrequired hreq
    omega
  · intro hcond r hr
    have hadmits := admits_of_candidate hr
    by_cases hsame : inp.src.memoryDomain = inp.dst.memoryDomain
    · rw [candidates_admits hadmits, plannedRoutes, if_neg hbytes, if_pos hsame] at hr
      by_cases hknown :
          backendKnown (sameDomainBackend inp.src.memoryDomain) inp.availableBackends = true
      · rw [if_pos hknown, List.mem_singleton] at hr
        obtain ⟨hhops, hrequired⟩ := hcond hadmits hsame hknown
        subst hr
        refine ⟨hhops, ?_, fun _ => rfl⟩
        rw [hrequired]
        intro hfalse
        cases hfalse
      · rw [if_neg hknown] at hr
        cases hr
    · have h : Searches inp := ⟨hadmits, hbytes, hsame⟩
      obtain ⟨p, hp, halong⟩ := candidate_along h hr
      have hlen : r.legs.length = p.length - 1 := by
        rw [halong.legs, legsAlong, List.length_map, length_hops]
      have htwo := hp.two_le hsame
      refine ⟨hlen ▸ hp.short, ?_, ?_⟩
      · intro hreq
        have := hp.permitted.1 hreq
        omega
      · intro hallow
        rw [hlen]
        exact hp.permitted.2 hallow

theorem hostToFile_structure : hostToFile.bytes ≠ 0 ∧
    ∀ r ∈ (plan hostToFile).candidates, KeepsStructure hostToFile.policy r :=
  ⟨by decide, (structural_policy_iff hostToFile (by decide)).mpr fun _ hsame =>
    absurd hsame (by decide)⟩

/-- A copy within host memory under a policy that requires staging. -/
def withinHost : PlannerInput :=
  { src := capsForKind (.hostMemory 4096 64), dst := capsForKind (.hostMemory 8192 64)
    bytes := 64, policy := { requireStaging := true } }

theorem withinHost_unstaged : withinHost.bytes ≠ 0 ∧ (plan withinHost).found = true ∧
    ¬ ∀ r ∈ (plan withinHost).candidates, KeepsStructure withinHost.policy r := by
  refine ⟨by decide, by decide +kernel, ?_⟩
  intro h
  have hmem := h _ (best_mem_candidates (by decide +kernel))
  exact absurd (hmem.required rfl) (by decide +kernel)

end DefaultRoutePlanner

end TransferFabric
