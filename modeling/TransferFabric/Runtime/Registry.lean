import TransferFabric.Core.Endpoint

/-!
The endpoint registry: slots with generations. A handle names a slot, counted
from one, and the generation the slot had when it was handed out. Each operation
is one critical section.
-/

namespace TransferFabric

structure EndpointHandle where
  slot : UInt64 := 0
  generation : UInt64 := 0
  deriving DecidableEq, Repr

def EndpointHandle.valid (h : EndpointHandle) : Bool := h.slot ≠ 0

structure Slot where
  ep : Option EndpointRecord := none
  gen : UInt64 := 0
  used : Bool := false
  deriving DecidableEq, Repr

structure EndpointRegistry where
  slots : List Slot := []
  free : List Nat := []
  deriving DecidableEq, Repr

namespace EndpointRegistry

/-- Generation zero is skipped. -/
def nextGen (gen : UInt64) : UInt64 := if gen + 1 = 0 then gen + 1 + 1 else gen + 1

/-- The freed index last, or a new slot at the end. -/
def takeIndex (g : EndpointRegistry) : Nat × EndpointRegistry :=
  match g.free.getLast? with
  | some index => (index, { g with free := g.free.dropLast })
  | none => (g.slots.length, { g with slots := g.slots ++ [{}] })

def allocate (g : EndpointRegistry) (ep : EndpointRecord) : EndpointHandle × EndpointRegistry :=
  let (index, g) := g.takeIndex
  let gen := nextGen (g.slots.getD index {}).gen
  ({ slot := UInt64.ofNat (index + 1), generation := gen },
    { g with slots := g.slots.set index { ep := some ep, gen, used := true } })

def get (g : EndpointRegistry) (h : EndpointHandle) : Option EndpointRecord :=
  if h.slot = 0 ∨ h.slot.toNat > g.slots.length then none
  else
    let s := g.slots.getD (h.slot.toNat - 1) {}
    if ¬ s.used ∨ s.gen ≠ h.generation then none else s.ep

def remove (g : EndpointRegistry) (h : EndpointHandle) : Error × EndpointRegistry :=
  if h.slot = 0 ∨ h.slot.toNat > g.slots.length then
    ({ category := .invalidRequest, message := "bad slot" }, g)
  else
    let index := h.slot.toNat - 1
    let s := g.slots.getD index {}
    if ¬ s.used ∨ s.gen ≠ h.generation then
      ({ category := .staleGeneration, message := "stale endpoint handle" }, g)
    else
      ({}, { g with
        slots := g.slots.set index { ep := none, gen := nextGen s.gen, used := false }
        free := g.free ++ [index] })

def clear (_ : EndpointRegistry) : EndpointRegistry := {}

end EndpointRegistry

end TransferFabric
