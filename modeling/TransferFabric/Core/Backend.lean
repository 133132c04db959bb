import Mathlib.Data.Rat.Defs
import TransferFabric.Core.Endpoint
import TransferFabric.Foundation.Interaction

/-!
What a backend is asked to do: one copy, described by addresses or by object
handles. Backends are known to the runtime by name, and only some of them
implement the stream interface. The eligibility rules of the four shipped
backends are here; the effect of a copy is left to the environment, except for
the file backend, whose calls to the operating system are modelled on their own.
-/

namespace TransferFabric

open Interaction

structure CopySpec where
  srcPtr : Address := 0
  dstPtr : Address := 0
  bytes : ByteCount := 0
  alignment : ByteCount := 16
  srcDomain : MemoryDomain := .unknown
  dstDomain : MemoryDomain := .unknown
  srcDevice : DeviceId := 0
  dstDevice : DeviceId := 0
  srcKind : EndpointKind := .unknown
  dstKind : EndpointKind := .unknown
  srcObject : Handle := 0
  dstObject : Handle := 0
  srcObjOffset : ByteOffset := 0
  dstObjOffset : ByteOffset := 0
  deriving DecidableEq, Repr

namespace BackendName

def host : String := "host"
def cuda : String := "cuda"
def file : String := "file"
def shm : String := "shared_memory"
def tcp : String := "tcp"

end BackendName

/-- Whether a backend can be cast to the stream interface. -/
structure Backend where
  isStream : Bool := false
  deriving DecidableEq, Repr

/-- `ctx.backends`: the registered backends by name. -/
abbrev Backends := String → Option Backend

namespace HostBackend

def cpu (d : MemoryDomain) : Bool := d = .hostPageable ∨ d = .hostPinned ∨ d = .mmap

def canCopy (spec : CopySpec) : Bool := cpu spec.srcDomain && cpu spec.dstDomain

end HostBackend

namespace SharedMemoryBackend

def cpu (d : MemoryDomain) : Bool :=
  d = .hostPageable ∨ d = .hostPinned ∨ d = .shared ∨ d = .mmap

def canCopy (spec : CopySpec) : Bool :=
  (spec.srcDomain = .shared ∨ spec.dstDomain = .shared) && cpu spec.srcDomain && cpu spec.dstDomain

end SharedMemoryBackend

namespace CudaBackend

def isHost (d : MemoryDomain) : Bool := d = .hostPageable ∨ d = .hostPinned

def canCopy (spec : CopySpec) : Bool :=
  (isHost spec.srcDomain ∧ spec.dstDomain = .device) ∨
    (spec.srcDomain = .device ∧ isHost spec.dstDomain) ∨
    (spec.srcDomain = .device ∧ spec.dstDomain = .device)

end CudaBackend

namespace FileBackend

def isStorage (k : EndpointKind) : Bool := k = .file ∨ k = .mmap

def canCopy (spec : CopySpec) : Bool :=
  if ¬ isStorage spec.srcKind ∧ ¬ isStorage spec.dstKind then false
  else if spec.srcKind = .device ∨ spec.dstKind = .device then false
  else true

end FileBackend

/-- Bandwidths, setup times and costs are rational numbers; the source computes
them in doubles. -/
structure Leg where
  sourceKind : EndpointKind := .unknown
  destKind : EndpointKind := .unknown
  sourceDomain : MemoryDomain := .unknown
  destDomain : MemoryDomain := .unknown
  backend : String := ""
  preferredChunk : ByteCount := 64 * 1024
  maxChunk : ByteCount := 256 * 1024 * 1024
  alignment : ByteCount := 16
  estimatedBandwidth : Rat := 1
  fixedSetup : Rat := 0
  caps : CapabilitySet := {}
  direct : Bool := false
  staged : Bool := false
  deriving DecidableEq, Repr

structure CostEstimate where
  total : Rat := 0
  fixedSetup : Rat := 0
  bandwidthTime : Rat := 0
  stagingPenalty : Rat := 0
  hopPenalty : Rat := 0
  queuePenalty : Rat := 0
  verificationPenalty : Rat := 0
  retryRisk : Rat := 0
  deriving DecidableEq, Repr

inductive RouteClass where
  | unknown | direct | staged | remote
  deriving DecidableEq, Repr

structure Route where
  legs : List Leg := []
  cost : CostEstimate := {}
  routeClass : RouteClass := .unknown
  hopCount : UInt64 := 0
  stagingBytes : ByteCount := 0
  routeId : String := ""
  description : String := ""
  deriving DecidableEq, Repr

def Route.isDirect (r : Route) : Bool := r.routeClass = .direct

def Route.empty (r : Route) : Bool := r.legs.isEmpty

/-- The node chain of a route: the first leg's source, then every leg's destination. -/
def Route.nodes (r : Route) : List MemoryDomain :=
  match r.legs with
  | [] => []
  | first :: _ => first.sourceDomain :: r.legs.map Leg.destDomain

theorem Route.length_nodes (r : Route) (h : r.legs ≠ []) :
    r.nodes.length = r.legs.length + 1 := by
  unfold Route.nodes
  cases hl : r.legs with
  | nil => exact absurd hl h
  | cons first rest => simp

/-- What a device read-back left in the caller's buffer. A failed call may have
written any part of it, or none. -/
structure DeviceRead where
  ok : Bool
  written : List Byte
  deriving DecidableEq, Repr

/-- The operating-system and memory calls behind file copies and hashing. The
`asked` offset of a file call is not passed to the system: it records which
file position the caller means the call to act on. -/
inductive IoCall where
  | seek (h : Handle) (off : ByteOffset)
  | readFile (h : Handle) (n : ByteCount) (asked : ByteOffset)
  | writeFile (h : Handle) (data : List Byte) (asked : ByteOffset)
  | flushFileBuffers (h : Handle)
  | load (p : Address) (n : ByteCount)
  | store (p : Address) (data : List Byte)
  | deviceToHost (p : Address) (n : ByteCount)
  deriving DecidableEq, Repr

/-- A failed `ReadFile` or `WriteFile` is `none`; a successful one gives the
bytes it read or the number it wrote. -/
def IoAnswer : IoCall → Type
  | .seek .. | .flushFileBuffers _ | .store .. => Unit
  | .readFile .. => Option (List Byte)
  | .writeFile .. => Option ByteCount
  | .load .. => List Byte
  | .deviceToHost .. => DeviceRead

def IoSig : Signature := { Call := IoCall, Answer := IoAnswer }

end TransferFabric
