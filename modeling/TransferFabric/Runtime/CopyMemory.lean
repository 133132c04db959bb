import TransferFabric.Runtime.HashReads
import TransferFabric.Runtime.Layout

/-!
The memory that the executor's copies act on. A successful copy moves its bytes
at once. An asynchronous copy that was accepted lands at a moment of its own,
reading its source then, and a successful synchronisation returns only when
nothing of its stream is left to land. Failed calls may do anything.

The memory never stands in the way: however the calls of a trace are answered,
the eager memory, in which every accepted copy lands before the next call, goes
along with them.
-/

namespace TransferFabric

open Interaction Memory

/-- The memory, and the accepted copies that have not landed, each with its stream. -/
structure CopyWorld where
  store : Store Cell Byte
  pending : List (Nat × CopySpec) := []

def lands (fileOf : Handle → Nat) (q : Nat × CopySpec) (st st' : Store Cell Byte) : Prop :=
  Moves (q.2.source fileOf) (q.2.target fileOf) q.2.bytes.toNat st st'

def CopyWorld.Settles (fileOf : Handle → Nat) (w w' : CopyWorld) : Prop :=
  Memory.Settles (lands fileOf) w.store w.pending w'.store w'.pending

/-- What an answered call does by itself. Before a stream is destroyed it is waited for. -/
def copyStep (fileOf : Handle → Nat) : Effect ExecSig CopyWorld := fun w c x w' =>
  match c, x with
  | .copy _ spec, e => Error.ok e = true →
      Moves (spec.source fileOf) (spec.target fileOf) spec.bytes.toNat w.store w'.store ∧
        w'.pending = w.pending
  | .asyncCopy _ spec k, e => Error.ok e = true →
      w' = { w with pending := w.pending ++ [(k, spec)] }
  | .sync _ k, e => Error.ok e = true → w' = w ∧ ∀ q ∈ w.pending, q.1 ≠ k
  | .destroyStream k, _ => w' = w ∧ ∀ q ∈ w.pending, q.1 ≠ k
  | .io _ (.writeFile ..), _ | .io _ (.store ..), _ => True
  | _, _ => w' = w

/-- Accepted copies may land before any call takes effect. -/
def copyEffect (fileOf : Handle → Nat) : Effect ExecSig CopyWorld := fun w c x w' =>
  ∃ m, w.Settles fileOf m ∧ copyStep fileOf m c x w'

namespace ExecEvent

/-- A call that leaves the memory alone. -/
def isStill : ExecEvent → Bool
  | ⟨.copy .., _⟩ | ⟨.asyncCopy .., _⟩ | ⟨.sync .., _⟩ => false
  | ⟨.io _ c, x⟩ => IoEvent.isRead ⟨c, x⟩
  | _ => true

/-- A stream synchronisation that reported an error. -/
def syncFailed : ExecEvent → Bool
  | ⟨.sync .., e⟩ => !Error.ok e
  | _ => false

end ExecEvent

theorem settles_of_still {fileOf : Handle → Nat} {c : ExecCall} {x : ExecAnswer c}
    {w w' : CopyWorld} (hstill : ExecEvent.isStill ⟨c, x⟩ = true)
    (h : copyEffect fileOf w c x w') : w.Settles fileOf w' := by
  obtain ⟨m, hm, hstep⟩ := h
  have heq : w' = m := by
    cases c with
    | copy _ _ | asyncCopy _ _ _ | sync _ _ => cases hstill
    | io site c =>
        cases c with
        | writeFile _ _ _ | store _ _ => cases hstill
        | _ => exact hstep
    | destroyStream k => exact hstep.1
    | _ => exact hstep
  rw [heq]
  exact hm

/-- With nothing left to land, calls that leave the memory alone leave the world alone. -/
theorem still_path {fileOf : Handle → Nat} {t : ExecTrace} {w w' : CopyWorld}
    (ht : t.Only ExecEvent.isStill) (hw : w.pending = [])
    (hpath : Path (copyEffect fileOf) w t w') : w'.store = w.store ∧ w'.pending = [] := by
  induction t generalizing w with
  | nil =>
      obtain rfl := hpath
      exact ⟨rfl, hw⟩
  | cons ev t ih =>
      obtain ⟨c, x⟩ := ev
      obtain ⟨hev, hrest⟩ := Trace.only_cons.mp ht
      obtain ⟨m, heff, hpath⟩ := hpath
      obtain ⟨hstore, hnil⟩ := (settles_of_still hev heff).of_nil hw
      obtain ⟨hstore', hnil'⟩ := ih hrest hnil hpath
      exact ⟨hstore'.trans hstore, hnil'⟩

/-! The eager memory. -/

/-- Copy the first `n` bytes of a region, as a function. -/
def moveBytes (src dst : Nat → Cell) (n : Nat) (st : Store Cell Byte) : Store Cell Byte := fun cell =>
  match (List.range n).find? fun k => dst k = cell with
  | some k => st (src k)
  | none => st cell

theorem moves_moveBytes {src dst : Nat → Cell} {n : Nat} (st : Store Cell Byte)
    (hinj : ∀ k < n, ∀ l < n, dst k = dst l → k = l) : Moves src dst n st (moveBytes src dst n st) where
  moved := by
    intro k hk
    unfold moveBytes
    cases hfind : (List.range n).find? fun l => dst l = dst k with
    | none =>
        have := List.find?_eq_none.mp hfind k (List.mem_range.mpr hk)
        simp at this
    | some l =>
        have hl := List.mem_range.mp (List.mem_of_find?_eq_some hfind)
        have heq : dst l = dst k := by simpa using List.find?_some hfind
        rw [hinj l hl k hk heq]
  frame := by
    intro cell hout
    unfold moveBytes
    cases hfind : (List.range n).find? fun l => dst l = cell with
    | none => rfl
    | some l =>
        have hl := List.mem_range.mp (List.mem_of_find?_eq_some hfind)
        have heq : dst l = cell := by simpa using List.find?_some hfind
        exact absurd heq.symm (hout l hl)

theorem CopySpec.target_inj (fileOf : Handle → Nat) (spec : CopySpec) {k l : Nat}
    (hk : k < spec.bytes.toNat) (hl : l < spec.bytes.toNat)
    (h : spec.target fileOf k = spec.target fileOf l) : k = l := by
  have := spec.bytes.toNat_lt
  unfold CopySpec.target at h
  split at h
  · exact fileBytes_inj (by omega) (by omega) h
  · exact memRegion_inj (by omega) (by omega) h

def CopySpec.perform (fileOf : Handle → Nat) (spec : CopySpec) (st : Store Cell Byte) :
    Store Cell Byte :=
  moveBytes (spec.source fileOf) (spec.target fileOf) spec.bytes.toNat st

theorem CopySpec.moves_perform (fileOf : Handle → Nat) (spec : CopySpec) (st : Store Cell Byte) :
    Moves (spec.source fileOf) (spec.target fileOf) spec.bytes.toNat st (spec.perform fileOf st) :=
  moves_moveBytes st fun _ hk _ hl => spec.target_inj fileOf hk hl

namespace CopyWorld

/-- Every accepted copy lands, oldest first. -/
def settleAll (fileOf : Handle → Nat) (w : CopyWorld) : CopyWorld :=
  { store := w.pending.foldl (fun st q => q.2.perform fileOf st) w.store }

theorem settles_settleAll (fileOf : Handle → Nat) (w : CopyWorld) :
    w.Settles fileOf (w.settleAll fileOf) := by
  obtain ⟨st, pending⟩ := w
  induction pending generalizing st with
  | nil => exact .refl _ _
  | cons q rest ih =>
      have hland : lands fileOf q st (q.2.perform fileOf st) := q.2.moves_perform fileOf st
      exact Memory.Settles.head hland (ih (q.2.perform fileOf st))

/-- The eager memory after one answered call, when the accepted copies have landed. -/
def act (fileOf : Handle → Nat) (w : CopyWorld) : ExecEvent → CopyWorld
  | ⟨.copy _ spec, _⟩ => { w with store := spec.perform fileOf w.store }
  | ⟨.asyncCopy _ spec k, _⟩ => { w with pending := w.pending ++ [(k, spec)] }
  | _ => w

def advance (fileOf : Handle → Nat) (w : CopyWorld) (ev : ExecEvent) : CopyWorld :=
  (w.settleAll fileOf).act fileOf ev

end CopyWorld

end TransferFabric
