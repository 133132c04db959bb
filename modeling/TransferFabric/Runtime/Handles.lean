import TransferFabric.Foundation.Refinement
import TransferFabric.Runtime.Registry
import Mathlib.Data.List.Nodup
import Mathlib.Logic.Function.Basic

/-!
Endpoint handles are generation-safe. What the registry is for is a directory:
a map from the handles that were issued and not removed to their records, in
which a new entry always gets a handle that was never issued before. The slots
and generations of the registry implement the directory for as long as no
generation can have wrapped.

Clearing the registry, which forgets the generations, is not among the
operations considered here.
-/

namespace TransferFabric

open Refinement

inductive RegistryOp where
  | allocate (ep : EndpointRecord)
  | get (h : EndpointHandle)
  | remove (h : EndpointHandle)

inductive RegistryAnswer where
  | handle (h : EndpointHandle)
  | found (ep : Option EndpointRecord)
  | removed (e : Error)

def EndpointRegistry.step (g : EndpointRegistry) : RegistryOp → RegistryAnswer × EndpointRegistry
  | .allocate ep => (.handle (g.allocate ep).1, (g.allocate ep).2)
  | .get h => (.found (g.get h), g)
  | .remove h => (.removed (g.remove h).1, (g.remove h).2)

/-! The directory. -/

structure Directory where
  live : EndpointHandle → Option EndpointRecord := fun _ => none
  issued : List EndpointHandle := []

namespace Directory

variable (d : Directory)

def enter (h : EndpointHandle) (ep : EndpointRecord) : Directory :=
  { live := Function.update d.live h (some ep), issued := d.issued ++ [h] }

def strike (h : EndpointHandle) : Directory := { d with live := Function.update d.live h none }

theorem enter_live (h h' : EndpointHandle) (ep : EndpointRecord) :
    (d.enter h ep).live h' = if h' = h then some ep else d.live h' :=
  Function.update_apply ..

theorem strike_live (h h' : EndpointHandle) :
    (d.strike h).live h' = if h' = h then none else d.live h' :=
  Function.update_apply ..

inductive Serves : RegistryOp → RegistryAnswer → Directory → Prop
  | allocate (ep : EndpointRecord) {h : EndpointHandle} (fresh : h ∉ d.issued) :
      Serves (.allocate ep) (.handle h) (d.enter h ep)
  | get (h : EndpointHandle) : Serves (.get h) (.found (d.live h)) d
  | remove (h : EndpointHandle) {e : Error} (ok : e.ok = (d.live h).isSome) :
      Serves (.remove h) (.removed e) (d.strike h)

end Directory

/-- A registry operation with its answer. -/
abbrev RegistryEvent := RegistryOp × RegistryAnswer

/-- The event removes the handle. -/
def Removes (h : EndpointHandle) (ev : RegistryEvent) : Prop :=
  ∃ e : Error, e.ok = true ∧ ev = (.remove h, .removed e)

/-- The handle was issued for the record and has not been removed since. -/
def LiveIn (log : List RegistryEvent) (h : EndpointHandle) (ep : EndpointRecord) : Prop :=
  ∃ before since, log = before ++ (.allocate ep, .handle h) :: since ∧ ∀ ev ∈ since, ¬ Removes h ev

/-- The handles issued, in order. -/
def issuedIn (log : List RegistryEvent) : List EndpointHandle :=
  log.filterMap fun
    | (_, .handle h) => some h
    | _ => none

theorem liveIn_concat {log : List RegistryEvent} {h : EndpointHandle} {ep : EndpointRecord}
    (ev : RegistryEvent) :
    LiveIn (log ++ [ev]) h ep ↔
      LiveIn log h ep ∧ ¬ Removes h ev ∨ ev = (.allocate ep, .handle h) := stands_concat ev

theorem mem_issuedIn_of_liveIn {log : List RegistryEvent} {h : EndpointHandle}
    {ep : EndpointRecord} (hlive : LiveIn log h ep) : h ∈ issuedIn log := by
  obtain ⟨before, since, rfl, -⟩ := hlive
  simp [issuedIn]

/-- What a directory says about the log of its answers. -/
structure Directory.Explains (log : List RegistryEvent) (d : Directory) : Prop where
  live : ∀ h ep, d.live h = some ep ↔ LiveIn log h ep
  issued : d.issued = issuedIn log
  distinct : (issuedIn log).Nodup

theorem Directory.Explains.step {log : List RegistryEvent} {d d' : Directory} {op : RegistryOp}
    {answer : RegistryAnswer} (h : d.Explains log) (hs : d.Serves op answer d') :
    d'.Explains (log ++ [(op, answer)]) := by
  cases hs with
  | @allocate ep h₀ fresh =>
      have hissued : issuedIn (log ++ [(.allocate ep, .handle h₀)]) = issuedIn log ++ [h₀] :=
        List.filterMap_append ..
      rw [h.issued] at fresh
      refine ⟨fun h' ep' => ?_, by rw [hissued, ← h.issued]; rfl, ?_⟩
      · rw [liveIn_concat, Directory.enter_live]
        split_ifs with heq
        · subst heq
          have hold : ¬ LiveIn log h' ep' := fun hlive => fresh (mem_issuedIn_of_liveIn hlive)
          simp [hold]
        · have hkept : ¬ Removes h' (.allocate ep, .handle h₀) := by
            rintro ⟨_, _, hev⟩
            cases hev
          have hnew : (RegistryOp.allocate ep, RegistryAnswer.handle h₀) ≠
              (.allocate ep', .handle h') := by
            rintro ⟨⟩
            exact heq rfl
          simp [h.live, hkept, hnew]
      · rw [hissued]
        exact List.nodup_append.mpr ⟨h.distinct, List.nodup_singleton _, by
          rintro a ha b hb rfl
          exact fresh (List.mem_singleton.mp hb ▸ ha)⟩
  | get h₀ =>
      have hissued : issuedIn (log ++ [(.get h₀, .found (d.live h₀))]) = issuedIn log := by
        simp [issuedIn]
      refine ⟨fun h' ep' => ?_, by rw [hissued, h.issued], hissued ▸ h.distinct⟩
      have hkept : ¬ Removes h' (.get h₀, .found (d.live h₀)) := by
        rintro ⟨_, _, hev⟩
        cases hev
      simp [liveIn_concat, h.live, hkept]
  | @remove h₀ e ok =>
      have hissued : issuedIn (log ++ [(.remove h₀, .removed e)]) = issuedIn log := by
        simp [issuedIn]
      refine ⟨fun h' ep' => ?_, by rw [hissued, ← h.issued]; rfl, hissued ▸ h.distinct⟩
      rw [liveIn_concat, Directory.strike_live]
      split_ifs with heq
      · subst heq
        have hgone : ¬ (LiveIn log h' ep' ∧ ¬ Removes h' (.remove h', .removed e)) := by
          rintro ⟨hlive, hkept⟩
          refine hkept ⟨e, ?_, rfl⟩
          rw [ok, (h.live h' ep').mpr hlive]
          rfl
        simp [hgone]
      · have hkept : ¬ Removes h' (.remove h₀, .removed e) := by
          rintro ⟨_, _, ⟨⟩⟩
          exact heq rfl
        simp [h.live, hkept]

/-! The registry implements the directory. -/

namespace EndpointRegistry

variable {g g' : EndpointRegistry} {d : Directory} {k : Nat} {h : EndpointHandle}

/-- `get` over the list of slots. -/
def lookup (slots : List Slot) (h : EndpointHandle) : Option EndpointRecord :=
  if h.slot = 0 then none
  else (slots[h.slot.toNat - 1]?).bind fun s =>
    if s.used = true ∧ s.gen = h.generation then s.ep else none

theorem get_eq_lookup (g : EndpointRegistry) (h : EndpointHandle) :
    g.get h = lookup g.slots h := by
  unfold get lookup
  by_cases hzero : h.slot = 0
  · simp [hzero]
  have hpos : h.slot.toNat ≠ 0 := fun h0 => hzero (UInt64.toNat_inj.mp h0)
  by_cases hlen : h.slot.toNat > g.slots.length
  · rw [if_pos (Or.inr hlen), if_neg hzero, List.getElem?_eq_none (by omega)]
    rfl
  · have hlt : h.slot.toNat - 1 < g.slots.length := by omega
    rw [if_neg (by simp [hzero, hlen]), if_neg hzero, List.getD_eq_getElem?_getD,
      List.getElem?_eq_getElem hlt]
    simp only [Option.getD_some, Option.bind_some]
    by_cases hused : (g.slots[h.slot.toNat - 1]).used = true <;>
      by_cases hgen : (g.slots[h.slot.toNat - 1]).gen = h.generation <;> simp [hused, hgen]

theorem lookup_set {slots : List Slot} {index : Nat} (hindex : index < slots.length) (s : Slot)
    (h : EndpointHandle) :
    lookup (slots.set index s) h =
      if h.slot.toNat = index + 1 then if s.used = true ∧ s.gen = h.generation then s.ep else none
      else lookup slots h := by
  unfold lookup
  by_cases hzero : h.slot = 0
  · simp [hzero]
  have hpos : h.slot.toNat ≠ 0 := fun h0 => hzero (UInt64.toNat_inj.mp h0)
  rw [if_neg hzero, if_neg hzero, List.getElem?_set]
  by_cases hslot : h.slot.toNat = index + 1
  · rw [if_pos hslot, if_pos (by omega), if_pos (by omega)]
    rfl
  · rw [if_neg hslot, if_neg (by omega)]

/-- The registry after `k` operations represents the directory. -/
structure Represents (k : Nat) (g : EndpointRegistry) (d : Directory) : Prop where
  live : ∀ h, lookup g.slots h = d.live h
  used : ∀ s ∈ g.slots, s.used = s.ep.isSome
  free : ∀ i ∈ g.free, ∃ s, g.slots[i]? = some s ∧ s.used = false
  distinct : g.free.Nodup
  size : g.slots.length ≤ k
  gens : ∀ s ∈ g.slots, s.gen.toNat ≤ k
  /-- The generation of a slot is past those of the handles issued for it. -/
  issued : ∀ h ∈ d.issued, ∃ i s, h.slot.toNat = i + 1 ∧ g.slots[i]? = some s ∧
    h.generation.toNat ≤ s.gen.toNat

theorem nextGen_toNat {gen : UInt64} (hgen : gen.toNat < 2 ^ 63) :
    (nextGen gen).toNat = gen.toNat + 1 := by
  have hadd : (gen + 1).toNat = gen.toNat + 1 := by
    rw [UInt64.toNat_add]
    exact Nat.mod_eq_of_lt (by simp; omega)
  unfold nextGen
  rw [if_neg, hadd]
  intro h0
  rw [h0] at hadd
  simp at hadd

namespace Represents

theorem mono (hr : Represents k g d) : Represents (k + 1) g d :=
  { hr with
    size := Nat.le_succ_of_le hr.size
    gens := fun s hs => Nat.le_succ_of_le (hr.gens s hs) }

theorem live_at (hr : Represents k g d) {i : Nat} {s : Slot} (hs : g.slots[i]? = some s)
    (hslot : h.slot.toNat = i + 1) :
    d.live h = if s.used = true ∧ s.gen = h.generation then s.ep else none := by
  have hzero : h.slot ≠ 0 := fun h0 => by simp [h0] at hslot
  rw [← hr.live, lookup, if_neg hzero, hslot, Nat.add_sub_cancel, hs, Option.bind_some]

/-- One slot is rewritten, and its generation does not go back. -/
theorem setSlot (hr : Represents k g d) {i : Nat} {s s' : Slot} {free : List Nat} {d' : Directory}
    (hs : g.slots[i]? = some s) (hused : s'.used = s'.ep.isSome) (hgen : s.gen.toNat ≤ s'.gen.toNat)
    (hk : s'.gen.toNat ≤ k) (hfree : ∀ j ∈ free, j ∈ g.free ∧ j ≠ i ∨ j = i ∧ s'.used = false)
    (hdistinct : free.Nodup)
    (hlive : ∀ h : EndpointHandle, d'.live h = if h.slot.toNat = i + 1 then
      if s'.used = true ∧ s'.gen = h.generation then s'.ep else none else d.live h)
    (hissued : ∀ h ∈ d'.issued, h ∈ d.issued ∨
      h.slot.toNat = i + 1 ∧ h.generation.toNat ≤ s'.gen.toNat) :
    Represents k { slots := g.slots.set i s', free } d' := by
  have hlt := (List.getElem?_eq_some_iff.mp hs).1
  have hself : (g.slots.set i s')[i]? = some s' := List.getElem?_set_self hlt
  refine ⟨fun h => ?_, fun t ht => ?_, fun j hj => ?_, hdistinct, ?_, fun t ht => ?_, fun h hh => ?_⟩
  · rw [lookup_set hlt, hlive, hr.live]
  · rcases List.mem_or_eq_of_mem_set ht with ht | rfl
    · exact hr.used t ht
    · exact hused
  · rcases hfree j hj with ⟨hold, hne⟩ | ⟨rfl, hunused⟩
    · obtain ⟨t, ht, hunused⟩ := hr.free j hold
      exact ⟨t, by rw [List.getElem?_set_ne hne.symm, ht], hunused⟩
    · exact ⟨s', hself, hunused⟩
  · rw [List.length_set]
    exact hr.size
  · rcases List.mem_or_eq_of_mem_set ht with ht | rfl
    · exact hr.gens t ht
    · exact hk
  · rcases hissued h hh with hold | ⟨hslot, hle⟩
    · obtain ⟨j, t, hslot, ht, hle⟩ := hr.issued h hold
      by_cases hij : i = j
      · subst hij
        obtain rfl := Option.some.inj (hs.symm.trans ht)
        exact ⟨i, s', hslot, hself, Nat.le_trans hle hgen⟩
      · exact ⟨j, t, hslot, by rw [List.getElem?_set_ne hij, ht], hle⟩
    · exact ⟨i, s', hslot, hself, hle⟩

/-- The slot that `allocate` takes is unused, and taking it changes no handle. -/
theorem takeIndex {i : Nat} (hr : Represents k g d) (htake : g.takeIndex = (i, g')) :
    Represents (k + 1) g' d ∧ i ∉ g'.free ∧
      ∃ s, g'.slots[i]? = some s ∧ s.used = false ∧ s.gen.toNat ≤ k ∧ i ≤ k := by
  unfold EndpointRegistry.takeIndex at htake
  cases hlast : g.free.getLast? with
  | some index =>
      rw [hlast] at htake
      obtain ⟨rfl, rfl⟩ := Prod.mk.inj htake
      have hfree : g.free = g.free.dropLast ++ [index] :=
        (List.dropLast_append_getLast? index (by simp [hlast])).symm
      have hmem : index ∈ g.free := hfree ▸ List.mem_append_right _ List.mem_cons_self
      have hdistinct := hr.distinct
      rw [hfree] at hdistinct
      obtain ⟨hrest, -, hapart⟩ := List.nodup_append.mp hdistinct
      obtain ⟨s, hs, hunused⟩ := hr.free index hmem
      have hlt := (List.getElem?_eq_some_iff.mp hs).1
      have hsize := hr.size
      exact ⟨{ hr.mono with
          free := fun i hi => hr.free i (List.dropLast_subset _ hi)
          distinct := hrest },
        fun hi => hapart index hi index List.mem_cons_self rfl, s, hs, hunused,
        hr.gens s (List.mem_of_getElem? hs), by omega⟩
  | none =>
      rw [hlast] at htake
      obtain ⟨rfl, rfl⟩ := Prod.mk.inj htake
      have hfree : g.free = [] := List.getLast?_eq_none_iff.mp hlast
      have hmem : ∀ s ∈ g.slots ++ [({} : Slot)], s ∈ g.slots ∨ s = {} := fun s hs =>
        (List.mem_append.mp hs).imp_right List.mem_singleton.mp
      refine ⟨⟨fun h => ?_, fun s hs => ?_, by simp [hfree], by simp [hfree], by simpa using hr.size,
        fun s hs => ?_, fun h hh => ?_⟩, by simp [hfree], {}, by simp, rfl, Nat.zero_le _, hr.size⟩
      · rw [← hr.live h]
        unfold lookup
        by_cases hlt : h.slot.toNat - 1 < g.slots.length
        · rw [List.getElem?_append_left hlt]
        · rw [List.getElem?_append_right (Nat.le_of_not_lt hlt),
            List.getElem?_eq_none (Nat.le_of_not_lt hlt)]
          cases h.slot.toNat - 1 - g.slots.length <;> simp
      · rcases hmem s hs with hs | rfl
        · exact hr.used s hs
        · rfl
      · rcases hmem s hs with hs | rfl
        · exact Nat.le_succ_of_le (hr.gens s hs)
        · exact Nat.zero_le _
      · obtain ⟨i, s, hslot, hs, hgen⟩ := hr.issued h hh
        exact ⟨i, s, hslot, by rw [List.getElem?_append_left (List.getElem?_eq_some_iff.mp hs).1, hs],
          hgen⟩

theorem allocate (hr : Represents k g d) (hk : k < 2 ^ 63) (ep : EndpointRecord) :
    ∃ d', d.Serves (.allocate ep) (.handle (g.allocate ep).1) d' ∧
      Represents (k + 1) (g.allocate ep).2 d' := by
  cases htake : g.takeIndex with
  | mk index g₁ =>
  obtain ⟨hr₁, hnotfree, s, hs, hunused, hgen, hindex⟩ := hr.takeIndex htake
  have hnext : (nextGen s.gen).toNat = s.gen.toNat + 1 := nextGen_toNat (by omega)
  have hslot : (UInt64.ofNat (index + 1)).toNat = index + 1 := by
    rw [UInt64.toNat_ofNat']
    exact Nat.mod_eq_of_lt (by omega)
  let h₀ : EndpointHandle := { slot := UInt64.ofNat (index + 1), generation := nextGen s.gen }
  have halloc : g.allocate ep = (h₀,
      { g₁ with slots := g₁.slots.set index { ep := some ep, gen := nextGen s.gen, used := true } }) := by
    unfold EndpointRegistry.allocate
    rw [htake]
    simp only [List.getD_eq_getElem?_getD, hs, Option.getD_some]
    rfl
  rw [halloc]
  refine ⟨d.enter h₀ ep, .allocate ep fun hmem => ?_,
    hr₁.setSlot hs rfl (by dsimp only; omega) (by dsimp only; omega)
      (fun j hj => Or.inl ⟨hj, fun h => hnotfree (h ▸ hj)⟩) hr₁.distinct (fun h => ?_) fun h hh => ?_⟩
  · -- the handles issued for this slot have older generations
    obtain ⟨i, s', hslot', hs', hle⟩ := hr₁.issued _ hmem
    obtain rfl : index = i := Nat.succ.inj (hslot.symm.trans hslot')
    obtain rfl := Option.some.inj (hs.symm.trans hs')
    have hle : (nextGen s.gen).toNat ≤ s.gen.toNat := hle
    omega
  · rw [Directory.enter_live]
    split_ifs with heq hthis hgen' hthis hgen'
    · rfl
    · exact absurd ⟨rfl, by rw [heq]⟩ hgen'
    · exact absurd (by rw [heq]; exact hslot) hthis
    · -- a handle of this slot with the new generation is the new handle
      refine absurd ?_ heq
      obtain ⟨slot, generation⟩ := h
      obtain rfl : slot = UInt64.ofNat (index + 1) := UInt64.toNat_inj.mp (hthis.trans hslot.symm)
      exact congrArg _ hgen'.2.symm
    · rw [hr₁.live_at hs hthis, hunused]
      simp
    · rfl
  · rcases List.mem_append.mp hh with hold | hnew
    · exact Or.inl hold
    · rw [List.mem_singleton.mp hnew]
      exact Or.inr ⟨hslot, Nat.le_refl _⟩

/-- A handle that is not live is refused, and nothing changes. -/
theorem refuse (hr : Represents k g d) {e : Error} (he : e.ok = false) (hnone : g.get h = none) :
    ∃ d', d.Serves (.remove h) (.removed e) d' ∧ Represents (k + 1) g d' := by
  have hlive : d.live h = none := by rw [← hr.live, ← get_eq_lookup, hnone]
  refine ⟨d.strike h, .remove h (by rw [hlive, he]; rfl), ?_⟩
  have hsame : d.strike h = d := by
    unfold Directory.strike
    rw [Function.update_eq_self_iff.mpr hlive.symm]
  rw [hsame]
  exact hr.mono

theorem remove (hr : Represents k g d) (hk : k < 2 ^ 63) (h : EndpointHandle) :
    ∃ d', d.Serves (.remove h) (.removed (g.remove h).1) d' ∧
      Represents (k + 1) (g.remove h).2 d' := by
  unfold EndpointRegistry.remove
  by_cases hbad : h.slot = 0 ∨ h.slot.toNat > g.slots.length
  · rw [if_pos hbad]
    exact hr.refuse rfl (by rw [get, if_pos hbad])
  rw [if_neg hbad]
  dsimp only
  by_cases hstale : ¬ (g.slots.getD (h.slot.toNat - 1) {}).used = true ∨
      (g.slots.getD (h.slot.toNat - 1) {}).gen ≠ h.generation
  · rw [if_pos hstale]
    exact hr.refuse rfl (by rw [get, if_neg hbad]; exact if_pos hstale)
  rw [if_neg hstale]
  obtain ⟨hzero, hlen⟩ := not_or.mp hbad
  obtain ⟨i, hslot⟩ : ∃ i, h.slot.toNat = i + 1 :=
    Nat.exists_eq_succ_of_ne_zero fun h0 => hzero (UInt64.toNat_inj.mp h0)
  obtain ⟨s, hs⟩ : ∃ s, g.slots[i]? = some s := ⟨_, List.getElem?_eq_getElem (by omega)⟩
  have hget : g.slots.getD (h.slot.toNat - 1) {} = s := by
    rw [hslot, Nat.add_sub_cancel, List.getD_eq_getElem?_getD, hs, Option.getD_some]
  rw [hget] at hstale ⊢
  rw [hslot, Nat.add_sub_cancel]
  obtain ⟨hused, hgen⟩ : s.used = true ∧ s.gen = h.generation := by simpa using hstale
  have hmem := List.mem_of_getElem? hs
  have hk' := hr.gens s hmem
  have hnext : (nextGen s.gen).toNat = s.gen.toNat + 1 := nextGen_toNat (by omega)
  have hnotfree : i ∉ g.free := fun hi => by
    obtain ⟨s', hs', hunused⟩ := hr.free i hi
    obtain rfl := Option.some.inj (hs.symm.trans hs')
    rw [hused] at hunused
    cases hunused
  refine ⟨d.strike h, .remove h ?_,
    hr.mono.setSlot hs rfl (by dsimp only; omega) (by dsimp only; omega) (fun j hj => ?_) ?_
      (fun h' => ?_) fun h' hh => Or.inl hh⟩
  · rw [hr.live_at hs hslot, if_pos ⟨hused, hgen⟩, ← hr.used s hmem, hused]
    rfl
  · rcases List.mem_append.mp hj with hold | hnew
    · exact Or.inl ⟨hold, fun h => hnotfree (h ▸ hold)⟩
    · exact Or.inr ⟨List.mem_singleton.mp hnew, rfl⟩
  · refine List.nodup_append.mpr ⟨hr.distinct, List.nodup_singleton _, ?_⟩
    rintro a ha b hb rfl
    exact hnotfree (List.mem_singleton.mp hb ▸ ha)
  · rw [Directory.strike_live]
    split_ifs with heq hthis hused' hthis hused'
    · cases hused'.1
    · rfl
    · exact absurd (by rw [heq]; exact hslot) hthis
    · cases hused'.1
    · -- another handle of this slot has another generation
      rw [hr.live_at hs hthis, if_neg]
      rintro ⟨-, hgen'⟩
      refine heq ?_
      obtain ⟨slot, generation⟩ := h
      obtain ⟨slot', generation'⟩ := h'
      obtain rfl : slot' = slot := UInt64.toNat_inj.mp (hthis.trans hslot.symm)
      exact congrArg _ (hgen'.symm.trans hgen)
    · rfl

theorem step (hr : Represents k g d) (hk : k < 2 ^ 63) (op : RegistryOp) :
    ∃ d', d.Serves op (g.step op).1 d' ∧ Represents (k + 1) (g.step op).2 d' := by
  cases op with
  | allocate ep => exact hr.allocate hk ep
  | get h =>
      refine ⟨d, ?_, hr.mono⟩
      rw [EndpointRegistry.step, get_eq_lookup, hr.live]
      exact .get h
  | remove h => exact hr.remove hk h

end Represents

/-- After any sequence of fewer than `2 ^ 63` operations, the handles that resolve are those
that were issued and not removed since, each to the record it was issued for; these are the
handles that can be removed, removing one affects no other, and no handle was issued twice. -/
theorem handles_generation_safe (ops : List RegistryOp) (hlen : ops.length < 2 ^ 63) :
    let log := (run step {} ops).1
    let g := (run step {} ops).2
    (∀ h ep, g.get h = some ep ↔ LiveIn log h ep) ∧
      (∀ h, (g.remove h).1.ok = true ↔ ∃ ep, LiveIn log h ep) ∧
      (∀ h h', h' ≠ h → (g.remove h).2.get h' = g.get h') ∧
      (issuedIn log).Nodup := by
  intro log g
  obtain ⟨d, haccepts, hr⟩ := simulates (R := Represents) (n := 2 ^ 63)
    (fun k hk g d op hr => hr.step hk op) ops (k := 0) (s := {}) (t := {}) (by omega)
    ⟨fun h => by simp [lookup], by simp, by simp, List.nodup_nil, Nat.le_refl 0, by simp, by simp⟩
  have hexplains : d.Explains log := haccepts.invariant
    ⟨fun h ep => by simp [LiveIn], rfl, List.nodup_nil⟩ fun _ _ _ _ _ h hs => h.step hs
  have hget : ∀ h, g.get h = d.live h := fun h => (get_eq_lookup g h).trans (hr.live h)
  refine ⟨fun h ep => by rw [hget, hexplains.live], fun h => ?_, fun h h' hne => ?_,
    hexplains.distinct⟩
  · obtain ⟨d', hs, -⟩ := hr.remove (by omega) h
    cases hs with
    | remove _ ok => simp only [show (g.remove h).1.ok = _ from ok, Option.isSome_iff_exists, hexplains.live]
  · obtain ⟨d', hs, hr'⟩ := hr.remove (by omega) h
    cases hs with
    | remove _ ok => rw [get_eq_lookup, hr'.live, Directory.strike_live, if_neg hne, hget]

/-- A slot is recycled: its second handle is new, and the first one stays dead. -/
def recycled : List RegistryOp :=
  [.allocate {}, .remove { slot := 1, generation := 1 }, .allocate {}]

theorem recycled_generation_safe :
    issuedIn (run step {} recycled).1 =
        [{ slot := 1, generation := 1 }, { slot := 1, generation := 3 }] ∧
      (issuedIn (run step {} recycled).1).Nodup ∧
      ∀ h ep, (run step {} recycled).2.get h = some ep ↔ LiveIn (run step {} recycled).1 h ep :=
  ⟨by decide, (handles_generation_safe recycled (by decide)).2.2.2,
    (handles_generation_safe recycled (by decide)).1⟩

end EndpointRegistry

end TransferFabric
