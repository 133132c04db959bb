import TransferFabric.Planner.Ranking

/-!
What a policy's allowlists and its remote permission say about the routes of a
plan. The planner looks at the two endpoint domains only. Everything else a
route uses, the domains in between, the backends of its legs and the network,
is taken without asking the policy, so the policy is honoured exactly if it
happens to allow whatever the open courses use.
-/

namespace TransferFabric

open Paths

namespace DefaultRoutePlanner

/-- A leg that starts or ends on another machine. -/
def remoteLeg (l : Leg) : Bool := l.sourceDomain = .remote ∨ l.destDomain = .remote

/-- The policy allows everything a route uses. -/
structure Honours (policy : TransferPolicy) (r : Route) : Prop where
  domains : ∀ d ∈ r.nodes, policy.domainAllowed d = true
  backends : ∀ l ∈ r.legs, policy.backendAllowed l.backend = true
  remote : (∃ l ∈ r.legs, remoteLeg l = true) → policy.remoteTransferPermission = true

/-- The backend between a hub and a domain. -/
def hubBackend (d : MemoryDomain) : String :=
  ((edgeBetween .hostPageable d).map EdgeDef.backend).getD ""

/-- The policy allows the domains, the backends and the network a course needs. -/
structure Allows (inp : PlannerInput) (c : Course) : Prop where
  stations : ∀ d ∈ c.stations, inp.policy.domainAllowed d = true
  backends : ∀ e ∈ c.reaches inp.src.memoryDomain inp.dst.memoryDomain,
    inp.policy.backendAllowed (hubBackend e) = true
  remote : .remote ∈ c.reaches inp.src.memoryDomain inp.dst.memoryDomain →
    inp.policy.remoteTransferPermission = true

/-- The policy allows the one leg of a route that is built without a search. -/
def AllowsLeg (inp : PlannerInput) (backend : String) : Prop :=
  inp.policy.backendAllowed backend = true ∧
    (.remote ∈ [inp.src.memoryDomain, inp.dst.memoryDomain] →
      inp.policy.remoteTransferPermission = true)

/-- The policy allows what the planner may use for the input. -/
def PolicyCovers (inp : PlannerInput) : Prop :=
  if inp.bytes = 0 then AllowsLeg inp BackendName.host
  else if inp.src.memoryDomain = inp.dst.memoryDomain then
    backendKnown (sameDomainBackend inp.src.memoryDomain) inp.availableBackends = true →
      AllowsLeg inp (sameDomainBackend inp.src.memoryDomain)
  else ∀ c, Open inp c → Allows inp c

theorem outer_remote : ∀ a b, a ≠ b → b ∈ neighbours a →
    (outer (a, b) = .remote ↔ a = .remote ∨ b = .remote) := by
  decide +kernel

section Honoured

variable {inp : PlannerInput}

theorem legBetween_backend {ab : MemoryDomain × MemoryDomain} (hne : ab.1 ≠ ab.2)
    (h : Linked inp ab.1 ab.2) : (legBetween inp ab).backend = hubBackend (outer ab) := by
  have houter := edgeBetween_outer ab.1 ab.2 hne h.neighbours
  obtain ⟨e, he, hjoins, -⟩ := h
  rw [edgeBetween_of_joins _ _ e he hjoins] at houter
  obtain ⟨e', he', hkind⟩ := Option.map_eq_some_iff.mp houter.symm
  rw [Prod.mk.injEq] at hkind
  simp [legBetween, hubBackend, plannedLeg, edgeBetween_of_joins _ _ e he hjoins, he', hkind.1]

theorem legBetween_remote {ab : MemoryDomain × MemoryDomain} (hne : ab.1 ≠ ab.2)
    (h : Linked inp ab.1 ab.2) :
    remoteLeg (legBetween inp ab) = true ↔ outer ab = .remote := by
  obtain ⟨hsrc, hdst⟩ := legBetween_domains inp h
  rw [outer_remote ab.1 ab.2 hne h.neighbours, remoteLeg, decide_eq_true_eq]
  rw [hsrc, hdst]

/-- A route along a course is honoured if the course is allowed. -/
theorem honours_iff_allows {c : Course} {p : List MemoryDomain} {r : Route}
    (hadmits : Admits inp) (hp : FeasiblePath inp p) (halong : CandidateAlong inp p r)
    (hfollows : c.Follows inp.src.memoryDomain inp.dst.memoryDomain p) :
    Honours inp.policy r ↔ Allows inp c := by
  have hlinked : ∀ ab ∈ hops p, Linked inp ab.1 ab.2 := (isChain_iff_hops p).mp hp.linked
  have hne : ∀ ab ∈ hops p, ab.1 ≠ ab.2 := hops_ne hp.simple
  have hlegs : r.legs = (hops p).map (legBetween inp) := halong.legs
  constructor
  · rintro ⟨hdomains, hbackends, hremote⟩
    rw [halong.nodes] at hdomains
    rw [hlegs] at hbackends hremote
    refine ⟨?_, ?_, ?_⟩
    · intro d hd
      exact hdomains d (hfollows.visits (by simp [hd]))
    · intro e he
      obtain ⟨ab, hab, rfl⟩ := List.mem_map.mp (hfollows.takes he)
      rw [← legBetween_backend (hne ab hab) (hlinked ab hab)]
      exact hbackends _ (List.mem_map_of_mem hab)
    · intro he
      obtain ⟨ab, hab, houter⟩ := List.mem_map.mp (hfollows.takes he)
      exact hremote ⟨_, List.mem_map_of_mem hab,
        (legBetween_remote (hne ab hab) (hlinked ab hab)).mpr houter⟩
  · rintro ⟨hstations, hbackends, hremote⟩
    refine ⟨?_, ?_, ?_⟩
    · intro d hd
      rw [halong.nodes] at hd
      rcases List.mem_cons.mp (hfollows.visited hd) with rfl | hd
      · exact hadmits.2.1
      rcases List.mem_cons.mp hd with rfl | hd
      · exact hadmits.2.2
      · exact hstations d hd
    · intro l hl
      rw [hlegs] at hl
      obtain ⟨ab, hab, rfl⟩ := List.mem_map.mp hl
      rw [legBetween_backend (hne ab hab) (hlinked ab hab)]
      exact hbackends _ (hfollows.taken (List.mem_map_of_mem hab))
    · rintro ⟨l, hl, hrem⟩
      rw [hlegs] at hl
      obtain ⟨ab, hab, rfl⟩ := List.mem_map.mp hl
      have houter := (legBetween_remote (hne ab hab) (hlinked ab hab)).mp hrem
      exact hremote (houter ▸ hfollows.taken (List.mem_map_of_mem hab))

/-- A route of one leg between the endpoint domains. -/
theorem honours_single {l : Leg} {r : Route} (hadmits : Admits inp) (hlegs : r.legs = [l])
    (hsrc : l.sourceDomain = inp.src.memoryDomain) (hdst : l.destDomain = inp.dst.memoryDomain) :
    Honours inp.policy r ↔ AllowsLeg inp l.backend := by
  have hnodes : r.nodes = [inp.src.memoryDomain, inp.dst.memoryDomain] := by
    rw [Route.nodes, hlegs]
    simp [hsrc, hdst]
  have hremote : (∃ l ∈ r.legs, remoteLeg l = true) ↔
      .remote ∈ [inp.src.memoryDomain, inp.dst.memoryDomain] := by
    rw [hlegs]
    simp only [exists_eq_left, remoteLeg, hsrc, hdst, decide_eq_true_eq, List.mem_cons,
      List.not_mem_nil, or_false]
    exact or_congr eq_comm eq_comm
  have hallowed : ∀ d ∈ r.nodes, inp.policy.domainAllowed d = true := by
    rw [hnodes]
    simpa using hadmits.2
  constructor
  · rintro ⟨-, hbackends, hperm⟩
    exact ⟨hbackends l (by simp [hlegs]), fun hmem => hperm (hremote.mpr hmem)⟩
  · rintro ⟨hbackend, hperm⟩
    refine ⟨hallowed, ?_, fun hex => hperm (hremote.mp hex)⟩
    rw [hlegs]
    simpa using hbackend

end Honoured

/-- The policy is honoured on every candidate exactly if the input is refused before
planning or the policy allows what the planner may use. -/
theorem authority_honoured_iff (inp : PlannerInput) :
    (∀ r ∈ (plan inp).candidates, Honours inp.policy r) ↔ (Admits inp → PolicyCovers inp) := by
  by_cases hadmits : Admits inp
  · rw [imp_iff_right hadmits]
    unfold PolicyCovers
    split_ifs with hbytes hsame
    · rw [candidates_admits hadmits, plannedRoutes, if_pos hbytes]
      simpa using honours_single (r := zeroByteRoute inp) hadmits rfl rfl rfl
    · rw [candidates_admits hadmits, plannedRoutes, if_neg hbytes, if_pos hsame]
      split_ifs with hknown
      · simpa [hknown] using honours_single (r := sameDomainRoute inp) hadmits rfl rfl rfl
      · simp [hknown]
    · have h : Searches inp := ⟨hadmits, hbytes, hsame⟩
      constructor
      · intro hhonours c hopen
        obtain ⟨p, hp, hfollows⟩ := hopen.feasible hsame
        obtain ⟨r, hr, halong⟩ := along_candidate h hp
        exact (honours_iff_allows hadmits hp halong hfollows).mp (hhonours r hr)
      · intro hallows r hr
        obtain ⟨p, hp, halong⟩ := candidate_along h hr
        obtain ⟨c, hopen, hfollows⟩ := hp.course hsame
        exact (honours_iff_allows hadmits hp halong hfollows).mpr (hallows c hopen)
  · simp [hadmits, (plan_not_admits hadmits).1]

/-- A file read into device memory under a policy that allows just these two domains
and one backend that such a route cannot do with. -/
def fileToDevice : PlannerInput :=
  { src := capsForKind (.fileRegion "in" 0 65536), dst := capsForKind (.deviceMemory 0 4096 65536)
    bytes := 65536, hostStagingCapacity := 0x10000000, pinnedStagingCapacity := 0x10000000
    policy := { domainAllowlist := [.storage, .device], backendAllowlist := [BackendName.host] } }

theorem fileToDevice_not_honoured :
    (plan fileToDevice).found = true ∧
      ¬ ∀ r ∈ (plan fileToDevice).candidates, Honours fileToDevice.policy r := by
  refine ⟨by decide +kernel, ?_⟩
  intro h
  have hbest := h _ (best_mem_candidates (by decide +kernel))
  exact absurd (hbest.domains _ (List.getElem_mem (n := 1) (by decide +kernel))) (by decide +kernel)

end DefaultRoutePlanner

end TransferFabric
