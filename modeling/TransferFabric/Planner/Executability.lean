import TransferFabric.Planner.Authority
import TransferFabric.Runtime.Executor

/-!
Whether the executor can carry out what the planner plans. The edge table, the
eligibility rules of the backends and the executor's view of a staging buffer
are three separate encodings of the same rules. They disagree in two places: a
route may pass through a domain in which no buffer can be reserved, and the
remote edges name a backend that does not exist.
-/

namespace TransferFabric

open Paths

/-- The eligibility rule of the backend of that name. No other backends ship. -/
def backendCanCopy (name : String) (spec : CopySpec) : Bool :=
  if name = BackendName.host then HostBackend.canCopy spec
  else if name = BackendName.file then FileBackend.canCopy spec
  else if name = BackendName.shm then SharedMemoryBackend.canCopy spec
  else if name = BackendName.cuda then CudaBackend.canCopy spec
  else false

/-- The rules look at domains and kinds only. -/
theorem backendCanCopy_eq (name : String) (spec : CopySpec) :
    backendCanCopy name spec =
      backendCanCopy name
        { srcDomain := spec.srcDomain, dstDomain := spec.dstDomain
          srcKind := spec.srcKind, dstKind := spec.dstKind } :=
  rfl

namespace DefaultRoutePlanner

/-- An endpoint whose kind is that of its domain, as the descriptor factories make them. -/
structure AgreedEndpoint where
  record : EndpointRecord
  kind : record.desc.kind = kindOfDomain record.caps.memoryDomain
  known : record.caps.memoryDomain ≠ .unknown

def AgreedEndpoint.domain (ep : AgreedEndpoint) : MemoryDomain := ep.record.caps.memoryDomain

/-- The executor runs `r` for a transfer between the two endpoints. -/
structure Executes (src dst : AgreedEndpoint) (r : Route) (ctx : RunContext) : Prop where
  route : ctx.record.route = r
  src : ctx.record.srcEp = src.record
  dst : ctx.record.dstEp = dst.record

/-- A route the executor can carry out. -/
structure Executable (src dst : AgreedEndpoint) (r : Route) : Prop where
  staged : ∀ d ∈ intermediate r.nodes, isStagingDomain d = true
  joined : r.legs.IsChain fun a b => a.destDomain = b.sourceDomain
  starts : r.nodes.head? = some src.domain
  ends : r.nodes.getLast? = some dst.domain
  copies : ∀ ctx, Executes src dst r ctx → ∀ li < r.legs.length, ∀ c,
    backendCanCopy (ctx.leg li).backend (ctx.legSpec li c) = true

/-! What the executor makes of a route's nodes. -/

section Locations

variable {src dst : AgreedEndpoint} {r : Route} {ctx : RunContext}

theorem exists_executes (src dst : AgreedEndpoint) (r : Route) : ∃ ctx, Executes src dst r ctx :=
  ⟨{ record := { route := r, chunkPlan := { plan := {}, built := Or.inl rfl }
                 srcEp := src.record, dstEp := dst.record }
     backends := fun _ => none }, rfl, rfl, rfl⟩

theorem Executes.leg (h : Executes src dst r ctx) {li : Nat} (hli : li < r.legs.length) :
    ctx.leg li = r.legs[li] := by
  rw [RunContext.leg, RunContext.legs, h.route, List.getD_eq_getElem?_getD,
    List.getElem?_eq_getElem hli, Option.getD_some]

theorem endpointLoc_domain (ep : EndpointRecord) (off : ByteOffset) :
    (endpointLoc ep off).domain = ep.caps.memoryDomain ∧ (endpointLoc ep off).kind = ep.desc.kind := by
  unfold endpointLoc
  dsimp only
  split_ifs <;> exact ⟨rfl, rfl⟩

/-- Node `j` is addressed in its own domain, as host memory if it lies in between. -/
theorem locAt_node (h : Executes src dst r ctx) (hs : r.nodes.head? = some src.domain)
    (ht : r.nodes.getLast? = some dst.domain) {j : Nat} (hj : j < r.nodes.length) (c : Chunk) :
    (ctx.locAt j c).domain = r.nodes[j] ∧
      (ctx.locAt j c).kind =
        if j = 0 ∨ j + 1 = r.nodes.length then kindOfDomain r.nodes[j] else .host := by
  have hnodes : ctx.nodes = r.nodes := by rw [RunContext.nodes, h.route]
  have hnn : ctx.nnodes = r.nodes.length := by rw [RunContext.nnodes, hnodes]
  unfold RunContext.locAt
  by_cases hzero : j = 0
  · subst hzero
    have hfirst : r.nodes[0] = src.domain := by
      rw [List.head?_eq_getElem?, List.getElem?_eq_getElem hj] at hs
      exact Option.some.inj hs
    obtain ⟨hdomain, hkind⟩ := endpointLoc_domain src.record c.sourceOffset
    rw [if_pos rfl, if_pos (Or.inl rfl), h.src, hdomain, hkind, hfirst]
    exact ⟨rfl, src.kind⟩
  · rw [if_neg hzero, hnn]
    by_cases hlast : j + 1 = r.nodes.length
    · have hend : r.nodes[j] = dst.domain := by
        rw [List.getLast?_eq_getElem?, ← hlast, Nat.add_sub_cancel,
          List.getElem?_eq_getElem hj] at ht
        exact Option.some.inj ht
      obtain ⟨hdomain, hkind⟩ := endpointLoc_domain dst.record c.destOffset
      rw [if_pos hlast, if_pos (Or.inr hlast), h.dst, hdomain, hkind, hend]
      exact ⟨rfl, dst.kind⟩
    · rw [if_neg hlast, if_neg (not_or.mpr ⟨hzero, hlast⟩)]
      have hstaged : ctx.Staged j := ⟨Nat.one_le_iff_ne_zero.mpr hzero, by omega⟩
      simp [RunContext.ring, hstaged, hnodes, hj]

end Locations

/-! The edge table against the eligibility rules. -/

/-- The copy along an edge, between endpoints or staging buffers of the two domains. -/
def edgeSpec (a b : MemoryDomain) : CopySpec :=
  { srcDomain := a, dstDomain := b, srcKind := kindOfDomain a, dstKind := kindOfDomain b }

theorem edges_eligible : ∀ a b, a ≠ b → b ∈ neighbours a →
    (backendCanCopy (hubBackend (outer (a, b))) (edgeSpec a b) = true ↔
      outer (a, b) ≠ .remote) := by
  decide +kernel

theorem tcp_eligible : ∀ spec, backendCanCopy (hubBackend .remote) spec = false := by
  intro spec
  rfl

theorem sameDomain_eligible : ∀ d, d ≠ .unknown →
    (backendCanCopy (sameDomainBackend d) (edgeSpec d d) = true ↔ d ≠ .remote) := by
  decide +kernel

theorem kindOfDomain_staging : ∀ d, isStagingDomain d = true → kindOfDomain d = .host := by
  decide

/-- A course visits only hubs in between unless it goes through another domain. -/
theorem Course.stations_staging {s t : MemoryDomain} {c : Course} (hsuits : c.Suits s t)
    (h : ∀ x, c ≠ .through x) {d : MemoryDomain} (hd : d ∈ c.stations) :
    isStagingDomain d = true := by
  cases c with
  | turn hub =>
      rw [Course.stations, List.mem_singleton] at hd
      exact hd ▸ hsuits.1
  | link =>
      simp only [Course.stations, List.mem_cons, List.not_mem_nil, or_false] at hd
      rcases hd with rfl | rfl <;> rfl
  | through x => exact absurd rfl (h x)

theorem Course.remote_reached {s t : MemoryDomain} {c : Course} (hsuits : c.Suits s t)
    (h : ∀ x, c ≠ .through x) : .remote ∈ c.reaches s t ↔ .remote ∈ [s, t] := by
  have hstations : .remote ∉ c.stations := fun hmem => by
    have := c.stations_staging hsuits h hmem
    cases this
  cases c with
  | turn hub =>
      simp only [Course.stations, List.mem_singleton] at hstations
      simp [Course.reaches, Course.stations, isStagingDomain, hstations]
  | link => simp [Course.reaches, Course.stations, isStagingDomain]
  | through x => exact absurd rfl (h x)

theorem mem_intermediate {p : List MemoryDomain} {j : Nat} (hj : 0 < j) (hlast : j + 1 < p.length) :
    p[j] ∈ intermediate p := by
  obtain ⟨i, rfl⟩ : ∃ i, j = i + 1 := ⟨j - 1, by omega⟩
  have hi : i < p.tail.dropLast.length := by simp; omega
  have hget : p.tail.dropLast[i] = p[i + 1] := by simp
  exact hget ▸ List.getElem_mem hi

section Routes

variable {inp : PlannerInput} {src dst : AgreedEndpoint}

/-- The route along a course can be carried out if the course stays in the hubs and
no endpoint is remote. -/
theorem executable_iff {c : Course} {p : List MemoryDomain} {r : Route}
    (hsrc : inp.src = src.record.caps) (hdst : inp.dst = dst.record.caps)
    (hne : inp.src.memoryDomain ≠ inp.dst.memoryDomain) (hp : FeasiblePath inp p)
    (halong : CandidateAlong inp p r)
    (hsuits : c.Suits inp.src.memoryDomain inp.dst.memoryDomain)
    (hfollows : c.Follows inp.src.memoryDomain inp.dst.memoryDomain p) :
    Executable src dst r ↔
      (∀ x, c ≠ .through x) ∧ .remote ∉ [inp.src.memoryDomain, inp.dst.memoryDomain] := by
  obtain rfl : r.nodes = p := halong.nodes
  have hlinked : ∀ ab ∈ hops r.nodes, Linked inp ab.1 ab.2 := (isChain_iff_hops _).mp hp.linked
  have hhop : ∀ ab ∈ hops r.nodes, ab.1 ≠ ab.2 := hops_ne hp.simple
  have hlegs : r.legs = (hops r.nodes).map (legBetween inp) := halong.legs
  have hs : r.nodes.head? = some src.domain := by
    rw [hp.starts, hsrc]
    rfl
  have ht : r.nodes.getLast? = some dst.domain := by
    rw [hp.ends, hdst]
    rfl
  constructor
  · intro hexec
    have hnot : ∀ x, c ≠ .through x := by
      rintro x rfl
      have hx : x ∈ intermediate r.nodes := by
        rw [← List.one_le_count_iff, hfollows.count_hub hne hp.starts hp.ends
          hp.simple, if_pos ⟨by simp [Course.stations], hsuits.2⟩]
      have hstaging := hexec.staged x hx
      rw [hsuits.1] at hstaging
      cases hstaging
    refine ⟨hnot, ?_⟩
    intro hremote
    obtain ⟨ab, hab, houter⟩ := List.mem_map.mp
      (hfollows.takes ((c.remote_reached hsuits hnot).mpr hremote))
    obtain ⟨ctx, hctx⟩ := exists_executes src dst r
    obtain ⟨li, hli, hget⟩ := List.getElem_of_mem (List.mem_map_of_mem (f := legBetween inp) hab)
    have hlen : li < r.legs.length := hlegs ▸ hli
    have hleg : ctx.leg li = legBetween inp ab := by
      rw [hctx.leg hlen, ← hget]
      simp only [hlegs]
    have hcan := hexec.copies ctx hctx li hlen {}
    rw [hleg, legBetween_backend (hhop ab hab) (hlinked ab hab), houter, tcp_eligible] at hcan
    cases hcan
  · rintro ⟨hnot, hremote⟩
    have hstaged : ∀ d ∈ intermediate r.nodes, isStagingDomain d = true := by
      intro d hd
      have hcount := hfollows.count_hub hne hp.starts hp.ends hp.simple d
      split_ifs at hcount with hmem
      · exact c.stations_staging hsuits hnot hmem.1
      · exact absurd hd (List.count_eq_zero.mp hcount)
    refine ⟨hstaged, ?_, hs, ht, ?_⟩
    · rw [hlegs, List.isChain_map]
      refine List.IsChain.imp_of_mem_imp ?_ (hops_isChain r.nodes)
      intro x y hx hy hxy
      rw [(legBetween_domains inp (hlinked x hx)).2, (legBetween_domains inp (hlinked y hy)).1, hxy]
    · intro ctx hctx li hli chunk
      have hlen : r.legs.length = r.nodes.length - 1 := by
        rw [hlegs, List.length_map, length_hops]
      have hnext : li + 1 < r.nodes.length := by omega
      have hkind : ∀ j (hj : j < r.nodes.length), (ctx.locAt j chunk).domain = r.nodes[j] ∧
          (ctx.locAt j chunk).kind = kindOfDomain r.nodes[j] := by
        intro j hj
        obtain ⟨hdomain, hkind⟩ := locAt_node hctx hs ht hj chunk
        refine ⟨hdomain, ?_⟩
        rw [hkind]
        split_ifs with hend
        · rfl
        · rw [not_or] at hend
          refine (kindOfDomain_staging _ (hstaged _ ?_)).symm
          exact mem_intermediate (by omega) (by omega)
      have hab : (r.nodes[li], r.nodes[li + 1]) ∈ hops r.nodes :=
        List.mem_of_getElem? (hops_getElem hnext)
      have hleg : ctx.leg li = legBetween inp (r.nodes[li], r.nodes[li + 1]) := by
        have hget : r.legs[li]? = some (legBetween inp (r.nodes[li], r.nodes[li + 1])) := by
          rw [hlegs, List.getElem?_map, hops_getElem hnext]
          rfl
        rw [hctx.leg hli]
        rw [List.getElem?_eq_getElem hli] at hget
        exact Option.some.inj hget
      have houter : outer (r.nodes[li], r.nodes[li + 1]) ≠ .remote := fun he =>
        hremote ((c.remote_reached hsuits hnot).mp
          (he ▸ hfollows.taken (List.mem_map_of_mem hab)))
      have hspec : backendCanCopy (ctx.leg li).backend (ctx.legSpec li chunk) =
          backendCanCopy (hubBackend (outer (r.nodes[li], r.nodes[li + 1])))
            (edgeSpec r.nodes[li] r.nodes[li + 1]) := by
        obtain ⟨hdomain, hkind₁⟩ := hkind li (by omega)
        obtain ⟨hdomain', hkind'⟩ := hkind (li + 1) hnext
        rw [hleg, legBetween_backend (hhop _ hab) (hlinked _ hab), backendCanCopy_eq]
        simp only [RunContext.legSpec, buildSpec, hdomain, hdomain', hkind₁, hkind', edgeSpec]
      rw [hspec]
      exact (edges_eligible _ _ (hhop _ hab) (hlinked _ hab).neighbours).mpr houter

end Routes

theorem executable_single {l : Leg} {r : Route} {src dst : AgreedEndpoint}
    (hsame : src.domain = dst.domain) (hlegs : r.legs = [l]) (hsrc : l.sourceDomain = src.domain)
    (hdst : l.destDomain = dst.domain) (hbackend : l.backend = sameDomainBackend src.domain) :
    Executable src dst r ↔ src.domain ≠ .remote := by
  have hnodes : r.nodes = [src.domain, dst.domain] := by
    rw [Route.nodes, hlegs]
    simp [hsrc, hdst]
  have hcan : ∀ ctx, Executes src dst r ctx → ∀ chunk,
      backendCanCopy (ctx.leg 0).backend (ctx.legSpec 0 chunk) =
        backendCanCopy (sameDomainBackend src.domain) (edgeSpec src.domain src.domain) := by
    intro ctx hctx chunk
    have hs : r.nodes.head? = some src.domain := by rw [hnodes]; rfl
    have ht : r.nodes.getLast? = some dst.domain := by rw [hnodes]; rfl
    obtain ⟨hdomain, hkind⟩ := locAt_node hctx hs ht (j := 0) (by simp [hnodes]) chunk
    obtain ⟨hdomain', hkind'⟩ := locAt_node hctx hs ht (j := 1) (by simp [hnodes]) chunk
    simp only [hnodes, List.getElem_cons_zero, List.getElem_cons_succ, List.length_cons,
      List.length_nil] at hdomain hkind hdomain' hkind'
    rw [hctx.leg (by simp [hlegs] : 0 < r.legs.length), backendCanCopy_eq]
    simp only [hlegs, List.getElem_cons_zero, hbackend, RunContext.legSpec, buildSpec, hdomain,
      hdomain', hkind, hkind', edgeSpec, ← hsame]
    simp
  rw [← sameDomain_eligible src.domain src.known]
  constructor
  · intro h
    obtain ⟨ctx, hctx⟩ := exists_executes src dst r
    rw [← hcan ctx hctx {}]
    exact h.copies ctx hctx 0 (by simp [hlegs]) {}
  · intro h
    refine ⟨?_, ?_, ?_, ?_, ?_⟩
    · simp [hnodes, intermediate]
    · rw [hlegs]
      exact List.IsChain.singleton _
    · rw [hnodes]
      rfl
    · rw [hnodes]
      rfl
    · intro ctx hctx li hli chunk
      obtain rfl : li = 0 := by
        rw [hlegs, List.length_singleton] at hli
        omega
      rw [hcan ctx hctx chunk]
      exact h

/-- The planner's input for a transfer between two endpoints. -/
def between (inp : PlannerInput) (src dst : AgreedEndpoint) : PlannerInput :=
  { inp with src := src.record.caps, dst := dst.record.caps }

/-- Nothing the input leaves open leads through a domain without staging buffers or to
a remote endpoint. -/
def StaysLocal (inp : PlannerInput) : Prop :=
  if inp.src.memoryDomain = inp.dst.memoryDomain then
    backendKnown (sameDomainBackend inp.src.memoryDomain) inp.availableBackends = true →
      inp.src.memoryDomain ≠ .remote
  else ∀ c, Open inp c →
    (∀ x, c ≠ .through x) ∧ .remote ∉ [inp.src.memoryDomain, inp.dst.memoryDomain]

/-- Every candidate can be carried out exactly if the input is refused before planning
or stays local. -/
theorem routes_executable_iff (inp : PlannerInput) (src dst : AgreedEndpoint)
    (hbytes : inp.bytes ≠ 0) :
    (∀ r ∈ (plan (between inp src dst)).candidates, Executable src dst r) ↔
      (Admits (between inp src dst) → StaysLocal (between inp src dst)) := by
  have hbytes' : (between inp src dst).bytes ≠ 0 := hbytes
  generalize hinp : between inp src dst = inp' at *
  have hsrc : inp'.src = src.record.caps := by rw [← hinp]; rfl
  have hdst : inp'.dst = dst.record.caps := by rw [← hinp]; rfl
  have hsrc' : src.domain = inp'.src.memoryDomain := by rw [hsrc]; rfl
  have hdst' : dst.domain = inp'.dst.memoryDomain := by rw [hdst]; rfl
  by_cases hadmits : Admits inp'
  · rw [imp_iff_right hadmits]
    unfold StaysLocal
    split_ifs with hsame
    · rw [candidates_admits hadmits, plannedRoutes, if_neg hbytes', if_pos hsame]
      split_ifs with hknown
      · have hsingle := executable_single (r := sameDomainRoute inp')
          (hsrc'.trans (hsame.trans hdst'.symm)) rfl
          hsrc'.symm hdst'.symm (by rw [hsrc'])
        rw [hsrc'] at hsingle
        simpa [hknown] using hsingle
      · simp [hknown]
    · have h : Searches inp' := ⟨hadmits, hbytes', hsame⟩
      constructor
      · intro hexec c hopen
        obtain ⟨p, hp, hfollows⟩ := hopen.feasible hsame
        obtain ⟨r, hr, halong⟩ := along_candidate h hp
        exact (executable_iff hsrc hdst hsame hp halong hopen.suits hfollows).mp (hexec r hr)
      · intro hlocal r hr
        obtain ⟨p, hp, halong⟩ := candidate_along h hr
        obtain ⟨c, hopen, hfollows⟩ := hp.course hsame
        exact (executable_iff hsrc hdst hsame hp halong hopen.suits hfollows).mpr (hlocal c hopen)
  · simp [hadmits, (plan_not_admits hadmits).1]

def hostEndpoint (pinned : Bool) : AgreedEndpoint :=
  { record := { desc := .hostMemory 4096 65536 pinned
                caps := capsForKind (.hostMemory 4096 65536 pinned) }
    kind := by cases pinned <;> rfl
    known := by cases pinned <;> decide }

def fileEndpoint : AgreedEndpoint :=
  { record := { desc := .fileRegion "out" 0 65536, caps := capsForKind (.fileRegion "out" 0 65536) }
    kind := rfl
    known := by decide }

/-- At most two legs leave no room for a detour through a third domain. -/
theorem twoLegs_executable : (65536 : ByteCount) ≠ 0 ∧
    ∀ r ∈ (plan (between { bytes := 65536, policy := { maxHops := 2 } } (hostEndpoint false)
      fileEndpoint)).candidates, Executable (hostEndpoint false) fileEndpoint r := by
  refine ⟨by decide, (routes_executable_iff _ _ _ (by decide)).mpr fun _ => ?_⟩
  intro c hopen
  refine ⟨?_, by decide⟩
  rintro x rfl
  have hshort : 3 ≤ 2 := hopen.short
  omega

/-- From pageable to pinned host memory, with staging required. -/
def rePinned : PlannerInput :=
  between { bytes := 65536, policy := { requireStaging := true }
            availableBackends := [BackendName.host, BackendName.file, BackendName.shm] }
    (hostEndpoint false) (hostEndpoint true)

theorem rePinned_not_executable : rePinned.bytes ≠ 0 ∧ (plan rePinned).found = true ∧
    ¬ ∀ r ∈ (plan rePinned).candidates, Executable (hostEndpoint false) (hostEndpoint true) r := by
  refine ⟨by decide, by decide +kernel, ?_⟩
  intro h
  have hbest := h _ (best_mem_candidates (by decide +kernel))
  exact absurd (hbest.staged _ (List.getElem_mem (n := 0) (by decide +kernel))) (by decide +kernel)

end DefaultRoutePlanner

end TransferFabric
