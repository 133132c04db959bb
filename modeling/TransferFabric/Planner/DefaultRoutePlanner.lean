import Mathlib.Data.List.Sort
import TransferFabric.Core.Planner

/-!
The planner the runtime ships with: a search over a small graph of memory
domains, a cost for every route found, and a ranking by cost.

The sort is a stable one where the source leaves ties open, and costs are exact
where the source computes with doubles.
-/

namespace TransferFabric

def MemoryDomain.toString : MemoryDomain → String
  | .hostPageable => "host_pageable"
  | .hostPinned => "host_pinned"
  | .device => "device"
  | .shared => "shared"
  | .storage => "storage"
  | .remote => "remote"
  | .mmap => "mmap"
  | .unknown => "unknown"

namespace CostModel

/-- The sums the evaluation loop keeps. -/
structure Sums where
  setup : Rat := 0
  bwTime : Rat := 0
  hop : Rat := 0
  retry : Rat := 0
  stagedBytes : ByteCount := 0

/-- Leg `i` of `n`. -/
def addLeg (n : Nat) (bytes : ByteCount) (s : Sums) (l : Leg × Nat) : Sums :=
  let (leg, i) := l
  let bw := if leg.estimatedBandwidth > 0 then leg.estimatedBandwidth else 1
  { setup := s.setup + leg.fixedSetup
    bwTime := s.bwTime + bytes.toNat / bw
    hop := s.hop + 1
    stagedBytes := if leg.staged ∨ (i > 0 ∧ i + 1 < n) then s.stagedBytes + bytes
      else s.stagedBytes
    -- risk from taking a bandwidth-limited hop
    retry := s.retry + if leg.caps.has .stagedCopy then 0.05 else 0 }

def evaluate (legs : List Leg) (bytes : ByteCount) (w : RouteWeights) : CostEstimate :=
  if legs = [] then {}
  else
    let s := legs.zipIdx.foldl (addLeg legs.length bytes) {}
    let c : CostEstimate :=
      { fixedSetup := s.setup * w.fixedSetup
        bandwidthTime := s.bwTime * w.bandwidth
        stagingPenalty := s.stagedBytes.toNat / (1e9 + bytes.toNat) * w.staging
        hopPenalty := s.hop * w.hop
        retryRisk := s.retry * w.retryRisk }
    { c with
      total := c.fixedSetup + c.bandwidthTime + c.stagingPenalty + c.hopPenalty + c.retryRisk }

end CostModel

namespace DefaultRoutePlanner

structure EdgeDef where
  a : MemoryDomain
  b : MemoryDomain
  backend : String
  bw : Rat
  setup : Rat
  remote : Bool
  deriving DecidableEq

def kindOfDomain : MemoryDomain → EndpointKind
  | .hostPageable => .host
  | .hostPinned => .host
  | .device => .device
  | .shared => .shared
  | .storage => .file
  | .mmap => .mmap
  | .remote => .remote
  | .unknown => .unknown

/-- The domain graph. Every edge can be taken in both directions. -/
def edges : List EdgeDef :=
  [⟨.hostPageable, .hostPageable, BackendName.host, 9.0e9, 0.00002, false⟩,
    ⟨.hostPageable, .hostPinned, BackendName.host, 8.0e9, 0.00002, false⟩,
    ⟨.hostPinned, .hostPinned, BackendName.host, 9.0e9, 0.00002, false⟩,
    ⟨.hostPageable, .device, BackendName.cuda, 6.0e9, 0.00005, false⟩,
    ⟨.hostPinned, .device, BackendName.cuda, 2.2e10, 0.00003, false⟩,
    ⟨.device, .device, BackendName.cuda, 3.0e10, 0.00002, false⟩,
    ⟨.hostPageable, .storage, BackendName.file, 2.0e9, 0.00005, false⟩,
    ⟨.hostPinned, .storage, BackendName.file, 2.0e9, 0.00005, false⟩,
    ⟨.storage, .storage, BackendName.file, 2.0e9, 0.00003, false⟩,
    ⟨.hostPageable, .shared, BackendName.shm, 1.0e10, 0.00003, false⟩,
    ⟨.hostPinned, .shared, BackendName.shm, 1.0e10, 0.00003, false⟩,
    ⟨.shared, .shared, BackendName.shm, 1.0e10, 0.00003, false⟩,
    ⟨.hostPageable, .mmap, BackendName.host, 8.0e9, 0.00003, false⟩,
    ⟨.hostPinned, .mmap, BackendName.host, 8.0e9, 0.00003, false⟩,
    ⟨.hostPageable, .remote, BackendName.tcp, 1.0e9, 0.00015, true⟩,
    ⟨.hostPinned, .remote, BackendName.tcp, 1.0e9, 0.00015, true⟩]

/-- No list of available backends means all of them. -/
def backendKnown (b : String) (avail : List String) : Bool := avail.isEmpty || avail.contains b

def isStagingDomain (d : MemoryDomain) : Bool := d = .hostPageable ∨ d = .hostPinned

def feasibleEdge (ed : EdgeDef) (inp : PlannerInput) : Bool :=
  if ed.remote ∧ ¬ inp.remoteAvailable then false
  else if ¬ backendKnown ed.backend inp.availableBackends then false
  else true

def describe (legs : List Leg) : String :=
  legs.foldl (fun out l =>
    (if out ≠ "" then out ++ " -> " else out) ++
      l.sourceDomain.toString ++ ">" ++ l.destDomain.toString) ""

def routeId (legs : List Leg) : String :=
  legs.foldl (fun out l =>
    (if out ≠ "" then out ++ "|" else out) ++
      l.sourceDomain.toString ++ "-" ++ l.destDomain.toString ++ ":" ++ l.backend) ""

section Build

variable (inp : PlannerInput)

/-- Zero-byte transfer: a valid single direct leg with no work. -/
def zeroByteRoute : Route :=
  let z : Leg :=
    { sourceKind := kindOfDomain inp.src.memoryDomain
      destKind := kindOfDomain inp.dst.memoryDomain
      sourceDomain := inp.src.memoryDomain
      destDomain := inp.dst.memoryDomain
      backend := BackendName.host
      caps := inp.src.capabilities
      direct := true }
  { legs := [z], routeClass := .direct, hopCount := 1
    routeId := routeId [z], description := describe [z] }

def sameDomainBackend : MemoryDomain → String
  | .device => BackendName.cuda
  | .storage => BackendName.file
  | .shared => BackendName.shm
  | .mmap => BackendName.host
  | _ => BackendName.host

def sameDomainBandwidth (backend : String) : Rat :=
  if backend = BackendName.cuda then 3.0e10
  else if backend = BackendName.file then 2.0e9
  else if backend = BackendName.shm then 1.0e10
  else 9.0e9

def sameDomainRoute : Route :=
  let start := inp.src.memoryDomain
  let backend := sameDomainBackend start
  let l : Leg :=
    { sourceKind := kindOfDomain start
      destKind := kindOfDomain inp.dst.memoryDomain
      sourceDomain := start
      destDomain := inp.dst.memoryDomain
      backend := backend
      caps := inp.src.capabilities
      direct := true
      estimatedBandwidth := sameDomainBandwidth backend
      fixedSetup := 0.00002 }
  { legs := [l], routeClass := .direct, hopCount := 1
    routeId := routeId [l], description := describe [l]
    cost := CostModel.evaluate [l] inp.bytes inp.policy.weights }

def edgeBetween (a b : MemoryDomain) : Option EdgeDef :=
  edges.find? fun e => (e.a = a ∧ e.b = b) ∨ (e.a = b ∧ e.b = a)

/-- What the leg loop of a route keeps. -/
structure Build where
  legs : List Leg := []
  remote : Bool := false
  stagingReq : ByteCount := 0

/-- The leg along an edge of the graph. -/
def plannedLeg (ed : EdgeDef) (a b : MemoryDomain) : Leg :=
  let srcStaging := isStagingDomain a ∧ a ≠ inp.src.memoryDomain
  let dstStaging := isStagingDomain b ∧ b ≠ inp.dst.memoryDomain
  let staged : Bool := srcStaging ∨ dstStaging
  { sourceKind := kindOfDomain a
    destKind := kindOfDomain b
    sourceDomain := a
    destDomain := b
    backend := ed.backend
    estimatedBandwidth := ed.bw
    fixedSetup := ed.setup
    caps := if b = inp.dst.memoryDomain then inp.dst.capabilities
      else if a = inp.src.memoryDomain then inp.src.capabilities
      else {}
    staged := staged
    direct := !staged }

def addLeg (st : Build) (a b : MemoryDomain) : Option Build :=
  match edgeBetween a b with
  | none => none
  | some ed =>
      if ¬ backendKnown ed.backend inp.availableBackends then none
      else if ed.backend = BackendName.tcp ∧ ¬ inp.remoteAvailable then none
      else if a = inp.src.memoryDomain ∧ ¬ inp.src.capabilities.has .readable then none
      else if b = inp.dst.memoryDomain ∧ ¬ inp.dst.capabilities.has .writable then none
      else
        let estChunk := inp.policy.preferredChunkSize
        some
          { legs := st.legs ++ [plannedLeg inp ed a b]
            remote := st.remote || ed.remote
            stagingReq :=
              if isStagingDomain b ∧ b ≠ inp.dst.memoryDomain then
                st.stagingReq + if estChunk > 0 then estChunk else 4096
              else st.stagingReq }

def buildLegs : Build → List MemoryDomain → Option Build
  | st, a :: b :: rest =>
      match addLeg inp st a b with
      | none => none
      | some st => buildLegs st (b :: rest)
  | st, _ => some st

/-- `host_pageable` staging requires the pageable pool, `host_pinned` the pinned one. -/
structure StagingNeed where
  pageable : ByteCount := 0
  pinned : ByteCount := 0

def addNeed (n : StagingNeed) (a b : MemoryDomain) : StagingNeed :=
  let start := inp.src.memoryDomain
  let goal := inp.dst.memoryDomain
  let estChunk := inp.policy.preferredChunkSize
  let n := if b ≠ goal ∧ b = .hostPinned then { n with pinned := n.pinned + estChunk } else n
  let n := if b ≠ goal ∧ b = .hostPageable then { n with pageable := n.pageable + estChunk } else n
  let n := if a ≠ start ∧ a = .hostPinned then { n with pinned := n.pinned + estChunk } else n
  if a ≠ start ∧ a = .hostPageable then { n with pageable := n.pageable + estChunk } else n

def stagingNeed : StagingNeed → List MemoryDomain → StagingNeed
  | n, a :: b :: rest => stagingNeed (addNeed inp n a b) (b :: rest)
  | n, _ => n

/-- The route along a path of the graph, if nothing speaks against it. -/
def buildRoute (path : List MemoryDomain) : Option Route :=
  let routeClass : RouteClass := if path.length = 2 then .direct else .staged
  match buildLegs inp {} path with
  | none => none
  | some st =>
      let need := stagingNeed inp {} path
      -- x2 double-buffer
      if need.pinned * 2 > inp.pinnedStagingCapacity ∨
          need.pageable * 2 > inp.hostStagingCapacity then none
      else if inp.policy.requireStaging ∧ routeClass ≠ .staged then none
      else if ¬ inp.policy.allowStaging ∧ routeClass = .staged then none
      else
        some
          { legs := st.legs
            routeClass := if st.remote then .remote else routeClass
            hopCount := UInt64.ofNat st.legs.length
            stagingBytes := st.stagingReq
            routeId := routeId st.legs
            description := describe st.legs
            cost := CostModel.evaluate st.legs inp.bytes inp.policy.weights }

/-- The other end of an edge. -/
def EdgeDef.next (e : EdgeDef) (cur : MemoryDomain) : Option MemoryDomain :=
  if e.a = cur then some e.b else if e.b = cur then some e.a else none

/-- The visited set of the source holds the domains of the path, no others. The
first argument bounds the depth of the recursion. -/
def dfs : Nat → MemoryDomain → List MemoryDomain → List Route
  | 0, _, _ => []
  | fuel + 1, cur, path =>
      if path.length - 1 > inp.policy.maxHops.toNat then []
      else if cur = inp.dst.memoryDomain ∧ path.length > 1 then (buildRoute inp path).toList
      else edges.flatMap fun e =>
        match e.next cur with
        | none => []
        | some nxt =>
            if nxt ∈ path then []
            else if ¬ feasibleEdge e inp then []
            else dfs fuel nxt (path ++ [nxt])

end Build

def byCost (rs : List Route) : List Route :=
  rs.insertionSort fun a b => a.cost.total ≤ b.cost.total

/-- A route that is not direct, ranked behind the direct ones. -/
def penalise (r : Route) : Route :=
  if r.isDirect then r else { r with cost := { r.cost with total := r.cost.total + 0.5 } }

def rank (preferDirect : Bool) (rs : List Route) : List Route :=
  let rs := byCost rs
  if preferDirect ∧ rs.any Route.isDirect then byCost (rs.map penalise) else rs

/-- There are eight domains, so no simple path is longer. -/
def searchRoutes (inp : PlannerInput) : List Route :=
  dfs inp 8 inp.src.memoryDomain [inp.src.memoryDomain]

/-- The result for the routes found, the first of which is the best. -/
def resultOf (rs : List Route) (reason : String) : PlanResult :=
  match rs with
  | [] => { reason }
  | best :: _ => { found := true, best, candidates := rs }

def plan : RoutePlanner := fun inp =>
  if ¬ inp.src.capabilities.has .readable then { reason := "source is not readable" }
  else if ¬ inp.dst.capabilities.has .writable then { reason := "destination is not writable" }
  else if ¬ inp.policy.domainAllowed inp.src.memoryDomain ∨
      ¬ inp.policy.domainAllowed inp.dst.memoryDomain then
    { reason := "domain not permitted by policy" }
  else if inp.bytes = 0 then resultOf [zeroByteRoute inp] ""
  else if inp.src.memoryDomain = inp.dst.memoryDomain then
    resultOf
      (if backendKnown (sameDomainBackend inp.src.memoryDomain) inp.availableBackends
        then [sameDomainRoute inp] else [])
      "no direct same-domain route"
  else resultOf (rank inp.policy.preferDirect (searchRoutes inp)) "no feasible route"

end DefaultRoutePlanner

end TransferFabric
