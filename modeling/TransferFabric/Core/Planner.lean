import Mathlib.Data.Rat.Defs
import TransferFabric.Core.Backend
import TransferFabric.Core.Endpoint
import TransferFabric.Core.Integrity

/-!
What a submission tells the planner and what it gets back. The planner is an
interface of the source and stays one here: the runtime is modelled for any
function from its input to its result.
-/

namespace TransferFabric

structure RouteWeights where
  fixedSetup : Rat := 1
  bandwidth : Rat := 1
  staging : Rat := 1
  hop : Rat := 1
  queue : Rat := 1
  verification : Rat := 1 / 2
  retryRisk : Rat := 1
  concurrency : Rat := 1 / 5
  deriving DecidableEq

/-- The fields of a policy that the planner, the submission or the executor reads. -/
structure TransferPolicy where
  preferDirect : Bool := true
  allowStaging : Bool := true
  requireStaging : Bool := false
  maxHops : ByteCount := 8
  preferredChunkSize : ByteCount := 64 * 1024
  maxChunkSize : ByteCount := 256 * 1024 * 1024
  integrityMode : VerificationMode := .none
  /-- Empty allows every backend. -/
  backendAllowlist : List String := []
  /-- Empty allows every domain. -/
  domainAllowlist : List MemoryDomain := []
  remoteTransferPermission : Bool := false
  weights : RouteWeights := {}
  deriving DecidableEq

def TransferPolicy.domainAllowed (p : TransferPolicy) (d : MemoryDomain) : Bool :=
  p.domainAllowlist.isEmpty || p.domainAllowlist.contains d

def TransferPolicy.backendAllowed (p : TransferPolicy) (name : String) : Bool :=
  p.backendAllowlist.isEmpty || p.backendAllowlist.contains name

structure PlannerInput where
  src : EndpointCapabilities := {}
  dst : EndpointCapabilities := {}
  bytes : ByteCount := 0
  policy : TransferPolicy := {}
  hostStagingCapacity : ByteCount := 0
  pinnedStagingCapacity : ByteCount := 0
  remoteAvailable : Bool := false
  availableBackends : List String := []

structure PlanResult where
  found : Bool := false
  best : Route := {}
  candidates : List Route := []
  reason : String := ""
  deriving DecidableEq, Repr

/-- `RoutePlanner::plan`. -/
abbrev RoutePlanner := PlannerInput → PlanResult

end TransferFabric
