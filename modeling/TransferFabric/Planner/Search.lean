import Mathlib.Data.Fintype.Basic
import Mathlib.Tactic.Ring
import TransferFabric.Foundation.Paths
import TransferFabric.Planner.DefaultRoutePlanner

/-!
What the planner's search finds, in terms of the domain graph. Between two
different domains it has one route along every simple path of the graph that the
hop limit, the available backends, the pool capacities and the two staging
switches of the policy leave open, and no other. The ranking permutes these
routes and may add a surcharge to a cost; nothing else of a route depends on it.
-/

namespace TransferFabric

open Paths

instance : Fintype MemoryDomain where
  elems := {.unknown, .hostPageable, .hostPinned, .device, .shared, .storage, .remote, .mmap}
  complete := by intro d; cases d <;> decide

namespace DefaultRoutePlanner

/-! The graph. -/

/-- The domains next to a domain, in the order of the edge table. -/
def neighbours (cur : MemoryDomain) : List MemoryDomain := edges.filterMap (EdgeDef.next · cur)

/-- The neighbours the search goes on to. -/
def openNeighbours (inp : PlannerInput) (cur : MemoryDomain) : List MemoryDomain :=
  (edges.filter fun e => feasibleEdge e inp).filterMap (EdgeDef.next · cur)

/-- An edge joins two domains in either direction. -/
def EdgeDef.Joins (e : EdgeDef) (a b : MemoryDomain) : Prop :=
  (e.a = a ∧ e.b = b) ∨ (e.a = b ∧ e.b = a)

instance (e : EdgeDef) (a b : MemoryDomain) : Decidable (e.Joins a b) :=
  inferInstanceAs (Decidable (_ ∨ _))

/-- The planner may go from one domain to the other. -/
def Linked (inp : PlannerInput) (a b : MemoryDomain) : Prop :=
  ∃ e ∈ edges, e.Joins a b ∧ feasibleEdge e inp = true

instance (inp : PlannerInput) (a b : MemoryDomain) : Decidable (Linked inp a b) :=
  inferInstanceAs (Decidable (∃ e ∈ edges, _))

theorem EdgeDef.next_eq_some {e : EdgeDef} {a b : MemoryDomain} :
    e.next a = some b ↔ e.Joins a b := by
  unfold EdgeDef.next EdgeDef.Joins
  by_cases ha : e.a = a
  · simp only [ha, if_true, Option.some.injEq, true_and]
    grind
  · by_cases hb : e.b = a <;> simp [ha, hb]

/-- No two domains are joined by two edges. -/
theorem edgeBetween_of_joins : ∀ a b, ∀ e ∈ edges, e.Joins a b → edgeBetween a b = some e := by
  decide +kernel

theorem edgeBetween_eq_some {a b : MemoryDomain} {e : EdgeDef} :
    edgeBetween a b = some e ↔ e ∈ edges ∧ e.Joins a b := by
  constructor
  · intro h
    exact ⟨List.mem_of_find?_eq_some h, by simpa [EdgeDef.Joins] using List.find?_some h⟩
  · rintro ⟨he, hjoins⟩
    exact edgeBetween_of_joins a b e he hjoins

theorem neighbours_nodup : ∀ a, (neighbours a).Nodup := by
  decide +kernel

theorem openNeighbours_nodup (inp : PlannerInput) (a : MemoryDomain) :
    (openNeighbours inp a).Nodup :=
  (neighbours_nodup a).sublist (List.filter_sublist.filterMap _)

theorem mem_neighbours {a b : MemoryDomain} : b ∈ neighbours a ↔ ∃ e ∈ edges, e.Joins a b := by
  simp only [neighbours, List.mem_filterMap, EdgeDef.next_eq_some]

theorem mem_openNeighbours {inp : PlannerInput} {a b : MemoryDomain} :
    b ∈ openNeighbours inp a ↔ Linked inp a b := by
  simp only [openNeighbours, List.mem_filterMap, List.mem_filter, EdgeDef.next_eq_some, Linked]
  constructor
  · rintro ⟨e, ⟨he, hfeasible⟩, hjoins⟩
    exact ⟨e, he, hjoins, hfeasible⟩
  · rintro ⟨e, he, hjoins, hfeasible⟩
    exact ⟨e, ⟨he, hfeasible⟩, hjoins⟩

/-- The remote edges are those of the network backend. -/
theorem tcp_iff_remote : ∀ e ∈ edges, e.backend = BackendName.tcp ↔ e.remote = true := by
  decide +kernel

theorem feasibleEdge_iff {e : EdgeDef} {inp : PlannerInput} :
    feasibleEdge e inp = true ↔
      backendKnown e.backend inp.availableBackends = true ∧
        (e.remote = true → inp.remoteAvailable = true) := by
  unfold feasibleEdge
  cases e.remote <;> cases inp.remoteAvailable <;> simp

/-! The search as an enumeration of paths. -/

theorem dfs_eq (inp : PlannerInput) (fuel : Nat) (cur : MemoryDomain) (path : List MemoryDomain) :
    dfs inp fuel cur path =
      (search (openNeighbours inp) inp.dst.memoryDomain inp.policy.maxHops.toNat fuel cur
        path).filterMap (buildRoute inp) := by
  rw [List.filterMap_eq_flatMap_toList]
  induction fuel generalizing cur path with
  | zero => rfl
  | succ fuel ih =>
      unfold dfs search
      split_ifs with hbound hgoal
      · rfl
      · rw [List.flatMap_singleton]
      · rw [openNeighbours, List.filterMap_filter, List.filterMap_eq_flatMap_toList,
          List.flatMap_assoc, List.flatMap_assoc]
        refine List.flatMap_congr fun e _ => ?_
        by_cases hfeasible : feasibleEdge e inp = true
        · cases hnext : e.next cur with
          | none => simp [hfeasible]
          | some nxt =>
              by_cases hmem : nxt ∈ path <;> simp [hfeasible, hmem, ih]
        · cases hnext : e.next cur <;> simp [hfeasible]

/-! The route along a path. -/

/-- The leg between two neighbours. -/
def legBetween (inp : PlannerInput) (ab : MemoryDomain × MemoryDomain) : Leg :=
  ((edgeBetween ab.1 ab.2).map fun e => plannedLeg inp e ab.1 ab.2).getD {}

def legsAlong (inp : PlannerInput) (path : List MemoryDomain) : List Leg :=
  (hops path).map (legBetween inp)

/-- Some leg of the path goes over the network. -/
def remoteAlong (path : List MemoryDomain) : Bool :=
  (hops path).any fun ab => (edgeBetween ab.1 ab.2).any EdgeDef.remote

/-- The two capability checks `plan` starts with. -/
def Usable (inp : PlannerInput) : Prop :=
  inp.src.capabilities.has .readable = true ∧ inp.dst.capabilities.has .writable = true

/-- What is known of the route along a path before it is ranked. -/
structure RouteAlong (inp : PlannerInput) (path : List MemoryDomain) (r : Route) : Prop where
  legs : r.legs = legsAlong inp path
  cost : r.cost = CostModel.evaluate (legsAlong inp path) inp.bytes inp.policy.weights
  routeClass : r.routeClass =
    if remoteAlong path then .remote else if path.length = 2 then .direct else .staged

section Routes

variable {inp : PlannerInput}

theorem addLeg_linked (hcaps : Usable inp) (st : Build) {a b : MemoryDomain}
    (h : Linked inp a b) :
    ∃ st', addLeg inp st a b = some st' ∧ st'.legs = st.legs ++ [legBetween inp (a, b)] ∧
      st'.remote = (st.remote || (edgeBetween a b).any EdgeDef.remote) := by
  obtain ⟨e, hmem, hjoins, hfeasible⟩ := h
  have he := edgeBetween_of_joins a b e hmem hjoins
  obtain ⟨hknown, hremote⟩ := feasibleEdge_iff.mp hfeasible
  have htcp : ¬ (e.backend = BackendName.tcp ∧ ¬ inp.remoteAvailable = true) := fun hnot =>
    hnot.2 (hremote ((tcp_iff_remote e hmem).mp hnot.1))
  have hread : ¬ (a = inp.src.memoryDomain ∧ ¬ inp.src.capabilities.has .readable = true) :=
    fun hnot => hnot.2 hcaps.1
  have hwrite : ¬ (b = inp.dst.memoryDomain ∧ ¬ inp.dst.capabilities.has .writable = true) :=
    fun hnot => hnot.2 hcaps.2
  simp only [addLeg, he, if_neg (not_not.mpr hknown), if_neg htcp, if_neg hread, if_neg hwrite]
  exact ⟨_, rfl, by simp [legBetween, he], rfl⟩

/-- Along a path the search found, no leg is refused. -/
theorem buildLegs_linked (hcaps : Usable inp) (st : Build) (path : List MemoryDomain)
    (h : path.IsChain (Linked inp)) :
    ∃ st', buildLegs inp st path = some st' ∧ st'.legs = st.legs ++ legsAlong inp path ∧
      st'.remote = (st.remote || remoteAlong path) := by
  induction path generalizing st with
  | nil => exact ⟨st, rfl, by simp [legsAlong, hops], by simp [remoteAlong, hops]⟩
  | cons a path ih =>
      cases path with
      | nil => exact ⟨st, rfl, by simp [legsAlong], by simp [remoteAlong]⟩
      | cons b rest =>
          obtain ⟨hab, hrest⟩ := List.isChain_cons_cons.mp h
          obtain ⟨st₁, hadd, hlegs₁, hremote₁⟩ := addLeg_linked hcaps st hab
          obtain ⟨st₂, hbuild, hlegs₂, hremote₂⟩ := ih st₁ hrest
          refine ⟨st₂, by simp only [buildLegs, hadd, hbuild], ?_, ?_⟩
          · rw [hlegs₂, hlegs₁]
            simp [legsAlong]
          · rw [hremote₂, hremote₁, Bool.or_assoc]
            rfl

/-- The pools can hold what the planner estimates for the path. -/
def NeedFits (inp : PlannerInput) (path : List MemoryDomain) : Prop :=
  (stagingNeed inp {} path).pinned * 2 ≤ inp.pinnedStagingCapacity ∧
    (stagingNeed inp {} path).pageable * 2 ≤ inp.hostStagingCapacity

/-- The staging switches of the policy leave room for a route of that many legs. -/
def StagingPermits (policy : TransferPolicy) (legs : Nat) : Prop :=
  (policy.requireStaging = true → legs ≠ 1) ∧ (policy.allowStaging = false → legs = 1)

instance (policy : TransferPolicy) (legs : Nat) : Decidable (StagingPermits policy legs) :=
  inferInstanceAs (Decidable (_ ∧ _))

theorem buildRoute_isSome (hcaps : Usable inp) {path : List MemoryDomain}
    (h : path.IsChain (Linked inp)) (hlen : 2 ≤ path.length) :
    (∃ r, buildRoute inp path = some r) ↔
      NeedFits inp path ∧ StagingPermits inp.policy (path.length - 1) := by
  obtain ⟨st, hbuild, -⟩ := buildLegs_linked hcaps {} path h
  simp only [buildRoute, hbuild, NeedFits, StagingPermits]
  have hone : path.length - 1 = 1 ↔ path.length = 2 := by omega
  simp only [ne_eq, hone, ← UInt64.not_lt, ← not_or]
  by_cases hneed : (stagingNeed inp {} path).pinned * 2 > inp.pinnedStagingCapacity ∨
      (stagingNeed inp {} path).pageable * 2 > inp.hostStagingCapacity
  · simp [hneed]
  · rw [if_neg hneed]
    by_cases htwo : path.length = 2 <;> cases inp.policy.requireStaging <;>
      cases inp.policy.allowStaging <;> simp [htwo, hneed]

theorem buildRoute_along (hcaps : Usable inp) {path : List MemoryDomain} {r : Route}
    (h : path.IsChain (Linked inp)) (hr : buildRoute inp path = some r) :
    RouteAlong inp path r := by
  obtain ⟨st, hbuild, hlegs, hremote⟩ := buildLegs_linked hcaps {} path h
  rw [List.nil_append] at hlegs
  rw [Bool.false_or] at hremote
  simp only [buildRoute, hbuild, hlegs, hremote] at hr
  split_ifs at hr
  all_goals
    cases hr
    exact ⟨rfl, rfl, by simp_all⟩

/-! The staging estimate of a path. -/

/-- How often the planner adds its estimate for a hub along a path. -/
def needCount (s t hub : MemoryDomain) (p : List MemoryDomain) : Nat :=
  (hops p).countP (fun ab => ab.2 ≠ t ∧ ab.2 = hub) + (hops p).countP fun ab => ab.1 ≠ s ∧ ab.1 = hub

theorem needCount_cons (s t hub a b : MemoryDomain) (rest : List MemoryDomain) :
    needCount s t hub (a :: b :: rest) =
      ((if b ≠ t ∧ b = hub then 1 else 0) + if a ≠ s ∧ a = hub then 1 else 0) +
        needCount s t hub (b :: rest) := by
  simp only [needCount, hops_cons_cons, List.countP_cons, decide_eq_true_eq]
  omega

/-- One hop adds the estimate for the hubs it begins and ends at. -/
theorem addNeed_eq (inp : PlannerInput) (n : StagingNeed) (a b : MemoryDomain) :
    (addNeed inp n a b).pageable = n.pageable + inp.policy.preferredChunkSize *
        UInt64.ofNat ((if b ≠ inp.dst.memoryDomain ∧ b = .hostPageable then 1 else 0) +
          if a ≠ inp.src.memoryDomain ∧ a = .hostPageable then 1 else 0) ∧
      (addNeed inp n a b).pinned = n.pinned + inp.policy.preferredChunkSize *
        UInt64.ofNat ((if b ≠ inp.dst.memoryDomain ∧ b = .hostPinned then 1 else 0) +
          if a ≠ inp.src.memoryDomain ∧ a = .hostPinned then 1 else 0) := by
  simp only [UInt64.ofNat_add, UInt64.mul_add, addNeed]
  constructor
  · split_ifs <;> simp [UInt64.add_assoc]
  · split_ifs <;> simp [UInt64.add_assoc]

theorem stagingNeed_eq (inp : PlannerInput) (n : StagingNeed) (p : List MemoryDomain) :
    (stagingNeed inp n p).pageable = n.pageable + inp.policy.preferredChunkSize *
        UInt64.ofNat (needCount inp.src.memoryDomain inp.dst.memoryDomain .hostPageable p) ∧
      (stagingNeed inp n p).pinned = n.pinned + inp.policy.preferredChunkSize *
        UInt64.ofNat (needCount inp.src.memoryDomain inp.dst.memoryDomain .hostPinned p) := by
  induction p generalizing n with
  | nil => simp [stagingNeed, needCount, hops]
  | cons a p ih =>
      cases p with
      | nil => simp [stagingNeed, needCount]
      | cons b rest =>
          obtain ⟨hpageable, hpinned⟩ := ih (addNeed inp n a b)
          obtain ⟨hadd, hadd'⟩ := addNeed_eq inp n a b
          rw [stagingNeed, hpageable, hpinned, hadd, hadd', needCount_cons, needCount_cons,
            UInt64.ofNat_add _ (needCount ..), UInt64.ofNat_add _ (needCount ..), UInt64.mul_add,
            UInt64.mul_add, UInt64.add_assoc, UInt64.add_assoc]
          exact ⟨rfl, rfl⟩

/-- The domains between the ends of a path. -/
def intermediate (p : List MemoryDomain) : List MemoryDomain := p.tail.dropLast

/-- Each domain in between is counted twice, by the hop to it and by the hop from it. -/
theorem needCount_eq {s t hub : MemoryDomain} {inner : List MemoryDomain}
    (h : (s :: (inner ++ [t])).Nodup) :
    needCount s t hub (s :: (inner ++ [t])) = 2 * inner.count hub := by
  obtain ⟨hs, hrest⟩ := List.nodup_cons.mp h
  have ht : t ∉ inner := fun hmem =>
    List.disjoint_of_nodup_append hrest hmem List.mem_cons_self
  have hs' : s ∉ inner := fun hmem => hs (List.mem_append_left _ hmem)
  have hsnd : (hops (s :: (inner ++ [t]))).countP (fun ab => ab.2 ≠ t ∧ ab.2 = hub) =
      (inner ++ [t]).countP fun d => d ≠ t ∧ d = hub := by
    have htail : (hops (s :: (inner ++ [t]))).map Prod.snd = inner ++ [t] := hops_snd _
    conv_rhs => rw [← htail, List.countP_map]
    rfl
  have hfst : (hops (s :: (inner ++ [t]))).countP (fun ab => ab.1 ≠ s ∧ ab.1 = hub) =
      (s :: inner).countP fun d => d ≠ s ∧ d = hub := by
    have hdrop : (hops (s :: (inner ++ [t]))).map Prod.fst = s :: inner := by
      rw [hops_fst, ← List.cons_append, List.dropLast_concat]
    conv_rhs => rw [← hdrop, List.countP_map]
    rfl
  have hcount : ∀ e, e ∉ inner →
      inner.countP (fun d => d ≠ e ∧ d = hub) = inner.count hub := by
    intro e he
    refine List.countP_congr fun d hd => ?_
    have hne : d ≠ e := fun hde => he (hde ▸ hd)
    simp [hne]
  rw [needCount, hsnd, hfst, List.countP_append, List.countP_singleton, List.countP_cons,
    hcount t ht, hcount s hs']
  simp
  omega

end Routes

/-! The ranking. -/

theorem byCost_perm (rs : List Route) : (byCost rs).Perm rs := List.perm_insertionSort _ rs

/-- The routes of the source list, each with the surcharge the ranking gives it. -/
theorem rank_perm (preferDirect : Bool) (rs : List Route) :
    (rank preferDirect rs).Perm
      (if preferDirect = true ∧ rs.any Route.isDirect = true then rs.map penalise else rs) := by
  have hany : (byCost rs).any Route.isDirect = rs.any Route.isDirect :=
    (byCost_perm rs).any_eq
  unfold rank
  dsimp only
  rw [hany]
  split_ifs
  · exact (byCost_perm _).trans ((byCost_perm rs).map _)
  · exact byCost_perm rs

/-! The results of `plan`. -/

/-- The checks before the search: capabilities and the two endpoint domains. -/
def Admits (inp : PlannerInput) : Prop :=
  Usable inp ∧ inp.policy.domainAllowed inp.src.memoryDomain = true ∧
    inp.policy.domainAllowed inp.dst.memoryDomain = true

theorem candidates_resultOf (rs : List Route) (reason : String) :
    (resultOf rs reason).candidates = rs := by
  cases rs <;> rfl

theorem found_resultOf (rs : List Route) (reason : String) :
    (resultOf rs reason).found = true ↔ rs ≠ [] := by
  cases rs <;> simp [resultOf]

theorem plan_not_admits {inp : PlannerInput} (h : ¬ Admits inp) :
    (plan inp).candidates = [] ∧ (plan inp).found = false := by
  unfold plan
  by_cases hread : inp.src.capabilities.has .readable = true
  · rw [if_neg (not_not.mpr hread)]
    by_cases hwrite : inp.dst.capabilities.has .writable = true
    · rw [if_neg (not_not.mpr hwrite), if_pos]
      · exact ⟨rfl, rfl⟩
      · rw [← not_and_or]
        exact fun hallowed => h ⟨⟨hread, hwrite⟩, hallowed⟩
    · rw [if_pos hwrite]
      exact ⟨rfl, rfl⟩
  · rw [if_pos hread]
    exact ⟨rfl, rfl⟩

/-- The routes behind a result, and why there are none. -/
def plannedRoutes (inp : PlannerInput) : List Route × String :=
  if inp.bytes = 0 then ([zeroByteRoute inp], "")
  else if inp.src.memoryDomain = inp.dst.memoryDomain then
    (if backendKnown (sameDomainBackend inp.src.memoryDomain) inp.availableBackends
      then [sameDomainRoute inp] else [], "no direct same-domain route")
  else (rank inp.policy.preferDirect (searchRoutes inp), "no feasible route")

theorem plan_admits {inp : PlannerInput} (h : Admits inp) :
    plan inp = resultOf (plannedRoutes inp).1 (plannedRoutes inp).2 := by
  obtain ⟨⟨hread, hwrite⟩, hsrc, hdst⟩ := h
  unfold plan plannedRoutes
  simp only [hread, hwrite, hsrc, hdst, not_true_eq_false, or_self, if_false]
  split_ifs <;> rfl

theorem candidates_admits {inp : PlannerInput} (h : Admits inp) :
    (plan inp).candidates = (plannedRoutes inp).1 := by
  rw [plan_admits h, candidates_resultOf]

theorem admits_of_candidate {inp : PlannerInput} {r : Route} (h : r ∈ (plan inp).candidates) :
    Admits inp := by
  by_contra hnot
  rw [(plan_not_admits hnot).1] at h
  cases h

theorem found_iff (inp : PlannerInput) :
    (plan inp).found = true ↔ (plan inp).candidates ≠ [] := by
  by_cases h : Admits inp
  · rw [candidates_admits h, plan_admits h, found_resultOf]
  · obtain ⟨hcandidates, hfound⟩ := plan_not_admits h
    simp [hcandidates, hfound]

/-- The best route is the first candidate. -/
theorem best_eq_head {inp : PlannerInput} (h : (plan inp).found = true) :
    ∃ rest, (plan inp).candidates = (plan inp).best :: rest := by
  by_cases hadmits : Admits inp
  · rw [plan_admits hadmits] at h ⊢
    cases hrs : (plannedRoutes inp).1 with
    | nil =>
        rw [hrs] at h
        cases h
    | cons best rest => exact ⟨rest, rfl⟩
  · rw [(plan_not_admits hadmits).2] at h
    cases h

theorem best_mem_candidates {inp : PlannerInput} (h : (plan inp).found = true) :
    (plan inp).best ∈ (plan inp).candidates := by
  obtain ⟨rest, hrest⟩ := best_eq_head h
  rw [hrest]
  exact List.mem_cons_self

/-- The search runs: there is something to move, between different domains. -/
structure Searches (inp : PlannerInput) : Prop where
  admits : Admits inp
  bytes : inp.bytes ≠ 0
  apart : inp.src.memoryDomain ≠ inp.dst.memoryDomain

/-- A simple path through the domain graph that the input leaves open. -/
structure FeasiblePath (inp : PlannerInput) (p : List MemoryDomain) : Prop where
  starts : p.head? = some inp.src.memoryDomain
  ends : p.getLast? = some inp.dst.memoryDomain
  simple : p.Nodup
  linked : p.IsChain (Linked inp)
  short : p.length - 1 ≤ inp.policy.maxHops.toNat
  pageable : 4 * inp.policy.preferredChunkSize.toNat * (intermediate p).count .hostPageable % 2 ^ 64
    ≤ inp.hostStagingCapacity.toNat
  pinned : 4 * inp.policy.preferredChunkSize.toNat * (intermediate p).count .hostPinned % 2 ^ 64
    ≤ inp.pinnedStagingCapacity.toNat
  permitted : StagingPermits inp.policy (p.length - 1)

theorem needFits_iff {inp : PlannerInput} {inner : List MemoryDomain}
    (h : (inp.src.memoryDomain :: (inner ++ [inp.dst.memoryDomain])).Nodup) :
    NeedFits inp (inp.src.memoryDomain :: (inner ++ [inp.dst.memoryDomain])) ↔
      4 * inp.policy.preferredChunkSize.toNat * inner.count .hostPinned % 2 ^ 64
          ≤ inp.pinnedStagingCapacity.toNat ∧
        4 * inp.policy.preferredChunkSize.toNat * inner.count .hostPageable % 2 ^ 64
          ≤ inp.hostStagingCapacity.toNat := by
  have harith : ∀ (c : ByteCount) (n : Nat),
      ((0 + c * UInt64.ofNat (2 * n)) * 2).toNat = 4 * c.toNat * n % 2 ^ 64 := by
    intro c n
    simp only [UInt64.zero_add, UInt64.toNat_mul, UInt64.toNat_ofNat', UInt64.reduceToNat,
      Nat.mul_mod_mod, Nat.mod_mul_mod]
    congr 1
    ring
  obtain ⟨hpageable, hpinned⟩ :=
    stagingNeed_eq inp {} (inp.src.memoryDomain :: (inner ++ [inp.dst.memoryDomain]))
  rw [NeedFits, hpageable, hpinned, needCount_eq h, needCount_eq h, UInt64.le_iff_toNat_le,
    UInt64.le_iff_toNat_le, harith, harith]

/-- A path between different domains is its two ends with a list between them. -/
theorem split_ends {s t : MemoryDomain} {p : List MemoryDomain} (hne : s ≠ t)
    (hs : p.head? = some s) (ht : p.getLast? = some t) : p = s :: (intermediate p ++ [t]) := by
  obtain ⟨rest, rfl⟩ := List.head?_eq_some_iff.mp hs
  rcases List.eq_nil_or_concat rest with rfl | ⟨inner, last, rfl⟩
  · exact absurd (Option.some.inj ht) hne
  · rw [List.concat_eq_append, ← List.cons_append, List.getLast?_concat] at ht
    cases ht
    simp [intermediate]

/-- What the search lists, the feasible paths but for the checks of the single routes. -/
theorem mem_search_open {inp : PlannerInput} (h : inp.src.memoryDomain ≠ inp.dst.memoryDomain)
    (p : List MemoryDomain) :
    p ∈ search (openNeighbours inp) inp.dst.memoryDomain inp.policy.maxHops.toNat 8
        inp.src.memoryDomain [inp.src.memoryDomain] ↔
      p.head? = some inp.src.memoryDomain ∧ p.getLast? = some inp.dst.memoryDomain ∧ p.Nodup ∧
        p.IsChain (Linked inp) ∧ p.length - 1 ≤ inp.policy.maxHops.toNat := by
  have hcard : Fintype.card MemoryDomain = 8 := rfl
  have hlinked : (fun a b => b ∈ openNeighbours inp a) = Linked inp :=
    funext₂ fun a b => propext mem_openNeighbours
  rw [← hcard, mem_search_from h]
  constructor
  · rintro ⟨t, rfl, hway, hnd, hlen⟩
    rw [way_iff hnd, hlinked] at hway
    exact ⟨rfl, hway.2, hnd, hway.1, by simpa using hlen⟩
  · rintro ⟨hs, ht, hnd, hchain, hlen⟩
    obtain ⟨t, rfl⟩ := List.head?_eq_some_iff.mp hs
    refine ⟨t, rfl, ?_, hnd, by simpa using hlen⟩
    rw [way_iff hnd, hlinked]
    exact ⟨hchain, ht⟩

theorem feasiblePath_iff {inp : PlannerInput} (h : Searches inp) (p : List MemoryDomain) :
    FeasiblePath inp p ↔
      p ∈ search (openNeighbours inp) inp.dst.memoryDomain inp.policy.maxHops.toNat 8
          inp.src.memoryDomain [inp.src.memoryDomain] ∧ ∃ r, buildRoute inp p = some r := by
  rw [mem_search_open h.apart]
  constructor
  · rintro ⟨hs, ht, hnd, hchain, hlen, hpageable, hpinned, hpermitted⟩
    have hp := split_ends h.apart hs ht
    refine ⟨⟨hs, ht, hnd, hchain, hlen⟩, (buildRoute_isSome h.admits.1 hchain ?_).mpr
      ⟨?_, hpermitted⟩⟩
    · rw [hp]
      simp
    · rw [hp, needFits_iff (hp ▸ hnd)]
      exact ⟨hpinned, hpageable⟩
  · rintro ⟨⟨hs, ht, hnd, hchain, hlen⟩, hbuilt⟩
    have hp := split_ends h.apart hs ht
    have htwo : 2 ≤ p.length := by
      rw [hp]
      simp
    obtain ⟨hfits, hpermitted⟩ := (buildRoute_isSome h.admits.1 hchain htwo).mp hbuilt
    rw [hp, needFits_iff (hp ▸ hnd)] at hfits
    exact ⟨hs, ht, hnd, hchain, hlen, hfits.2, hfits.1, hpermitted⟩

theorem mem_searchRoutes {inp : PlannerInput} (h : Searches inp) (r : Route) :
    r ∈ searchRoutes inp ↔ ∃ p, FeasiblePath inp p ∧ buildRoute inp p = some r := by
  simp only [searchRoutes, dfs_eq, List.mem_filterMap, feasiblePath_iff h]
  constructor
  · rintro ⟨p, hp, hr⟩
    exact ⟨p, ⟨hp, r, hr⟩, hr⟩
  · rintro ⟨p, ⟨hp, -⟩, hr⟩
    exact ⟨p, hp, hr⟩

theorem FeasiblePath.routeAlong {inp : PlannerInput} (h : Searches inp) {p : List MemoryDomain}
    (hp : FeasiblePath inp p) {r : Route} (hr : buildRoute inp p = some r) : RouteAlong inp p r :=
  buildRoute_along h.admits.1 hp.linked hr

/-! The nodes of a route are the path it was built from. -/

theorem legBetween_domains (inp : PlannerInput) {a b : MemoryDomain} (h : Linked inp a b) :
    (legBetween inp (a, b)).sourceDomain = a ∧ (legBetween inp (a, b)).destDomain = b := by
  obtain ⟨e, he, hjoins, -⟩ := h
  simp [legBetween, edgeBetween_of_joins a b e he hjoins, plannedLeg]

theorem nodes_legsAlong {inp : PlannerInput} {p : List MemoryDomain} {r : Route}
    (hlegs : r.legs = legsAlong inp p) (hlinked : p.IsChain (Linked inp)) (hlen : 2 ≤ p.length) :
    r.nodes = p := by
  obtain ⟨a, b, rest, rfl⟩ : ∃ a b rest, p = a :: b :: rest := by
    rcases p with _ | ⟨a, _ | ⟨b, rest⟩⟩
    · cases hlen
    · exact absurd hlen (by simp)
    · exact ⟨a, b, rest, rfl⟩
  have hdest : (legsAlong inp (a :: b :: rest)).map Leg.destDomain = b :: rest := by
    have htail : (hops (a :: b :: rest)).map Prod.snd = b :: rest := hops_snd _
    conv_rhs => rw [← htail]
    rw [legsAlong, List.map_map]
    refine List.map_congr_left fun ab hab => ?_
    exact (legBetween_domains inp ((isChain_iff_hops _).mp hlinked ab hab)).2
  have hfirst := (legBetween_domains inp (List.isChain_cons_cons.mp hlinked).1).1
  unfold Route.nodes
  rw [hlegs, hdest]
  simp only [legsAlong, hops_cons_cons, List.map_cons, hfirst]

end DefaultRoutePlanner

end TransferFabric
