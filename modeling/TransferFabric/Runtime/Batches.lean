import Mathlib.Data.List.Induction
import Mathlib.Data.List.Nodup
import TransferFabric.Core.Types
import TransferFabric.Foundation.Refinement

/-!
Batch handles. A handle is a slot, counted from one, and a generation. The free
list of the table is never filled, so a slot is given out once; its generation is
its own number; and ending a batch looks at the slot alone. The handles given out
are all different, but a forged generation is accepted, and so is a handle that
has been ended before.

The batch counter of the telemetry is left out. A table holds fewer slots than a
64-bit word counts: the results say so where they need it.
-/

namespace TransferFabric

open Refinement

structure BatchHandle where
  slot : UInt64 := 0
  generation : UInt64 := 0
  deriving DecidableEq, Repr

/-- Each slot holds a generation and an active count. -/
structure BatchTable where
  batchSlots : List (UInt64 × UInt64) := []
  batchFree : List Nat := []
  deriving DecidableEq, Repr

inductive BatchOp where
  | beginBatch
  | endBatch (h : BatchHandle)
  deriving DecidableEq, Repr

inductive BatchAnswer where
  | handle (h : BatchHandle)
  | ended (e : Error)
  deriving DecidableEq, Repr

namespace BatchTable

def takeIndex (t : BatchTable) : Nat × BatchTable :=
  match t.batchFree.getLast? with
  | some index => (index, { t with batchFree := t.batchFree.dropLast })
  | none => (t.batchSlots.length, { t with batchSlots := t.batchSlots ++ [(0, 0)] })

/-- `batch_slots[index].second = 0`. -/
def resetCount (t : BatchTable) (index : Nat) : BatchTable :=
  { t with batchSlots := t.batchSlots.modify index fun s => (s.1, 0) }

def beginBatch (t : BatchTable) : BatchHandle × BatchTable :=
  let (index, t) := t.takeIndex
  ({ slot := UInt64.ofNat (index + 1), generation := UInt64.ofNat (index + 1) },
    t.resetCount index)

def endBatch (t : BatchTable) (batch : BatchHandle) : Error × BatchTable :=
  if batch.slot = 0 ∨ batch.slot.toNat > t.batchSlots.length then
    ({ category := .invalidRequest, message := "bad batch" }, t)
  else ({}, t.resetCount (batch.slot.toNat - 1))

def step (t : BatchTable) : BatchOp → BatchAnswer × BatchTable
  | .beginBatch => (.handle t.beginBatch.1, t.beginBatch.2)
  | .endBatch h => (.ended (t.endBatch h).1, (t.endBatch h).2)

end BatchTable

abbrev BatchEvent := BatchOp × BatchAnswer

namespace BatchHandle

/-- The event ends the batch of this handle. -/
def Ends (h : BatchHandle) (ev : BatchEvent) : Prop :=
  ∃ e : Error, e.ok = true ∧ ev = (.endBatch h, .ended e)

/-- The handle was returned by `begin_batch` and has not been ended since. -/
def LiveIn (log : List BatchEvent) (h : BatchHandle) : Prop :=
  Stands (.beginBatch, .handle h) h.Ends log

end BatchHandle

/-- The handles returned, in order. -/
def batchesIn (log : List BatchEvent) : List BatchHandle :=
  log.filterMap fun
    | (_, .handle h) => some h
    | _ => none

/-- How many batches the calls begin. -/
def begun (ops : List BatchOp) : Nat := ops.count .beginBatch

@[simp] theorem begun_concat_begin (ops : List BatchOp) :
    begun (ops ++ [.beginBatch]) = begun ops + 1 := by simp [begun]

@[simp] theorem begun_concat_end (ops : List BatchOp) (h : BatchHandle) :
    begun (ops ++ [.endBatch h]) = begun ops := by simp [begun]

namespace BatchTable

/-- The log of a sequence of calls, and the table it leaves. -/
def after (ops : List BatchOp) : List BatchEvent × BatchTable := run step {} ops

theorem after_concat (ops : List BatchOp) (op : BatchOp) :
    after (ops ++ [op]) = ((after ops).1 ++ [(op, ((after ops).2.step op).1)],
      ((after ops).2.step op).2) := run_concat _ _ _

/-- The table only grows: one slot for each batch begun, none of them free. -/
theorem table_after (ops : List BatchOp) :
    (after ops).2.batchFree = [] ∧ (after ops).2.batchSlots.length = begun ops := by
  induction ops using List.reverseRecOn with
  | nil => exact ⟨rfl, rfl⟩
  | append_singleton ops op ih =>
      obtain ⟨hfree, hlen⟩ := ih
      rw [after_concat]
      cases op with
      | beginBatch => simp [step, beginBatch, takeIndex, resetCount, hfree, hlen]
      | endBatch h =>
          simp only [step, endBatch]
          split_ifs <;> simp [resetCount, hfree, hlen]

theorem beginBatch_after (ops : List BatchOp) :
    (after ops).2.beginBatch.1 =
      ⟨UInt64.ofNat (begun ops + 1), UInt64.ofNat (begun ops + 1)⟩ := by
  obtain ⟨hfree, hlen⟩ := table_after ops
  simp [beginBatch, takeIndex, hfree, hlen]

/-- A batch is ended exactly if its slot has been given out. -/
theorem endBatch_after (ops : List BatchOp) (h : BatchHandle) :
    ((after ops).2.endBatch h).1.ok = true ↔ h.slot ≠ 0 ∧ h.slot.toNat ≤ begun ops := by
  rw [endBatch, (table_after ops).2]
  split_ifs with hbad
  · refine ⟨(fun h => by cases h), fun hgood => ?_⟩
    rcases hbad with hzero | hgt
    · exact absurd hzero hgood.1
    · omega
  · rw [not_or, not_lt] at hbad
    exact ⟨fun _ => hbad, fun _ => rfl⟩

/-- No `end_batch` with the handle since its slot was given out. -/
def NotEnded (ops : List BatchOp) (h : BatchHandle) : Prop :=
  ∀ before after, ops = before ++ .endBatch h :: after → begun before < h.slot.toNat

theorem notEnded_concat (ops : List BatchOp) (op : BatchOp) (h : BatchHandle) :
    NotEnded (ops ++ [op]) h ↔
      NotEnded ops h ∧ (op = .endBatch h → begun ops < h.slot.toNat) :=
  forall_before_concat op

theorem begun_before_le {ops before after : List BatchOp} {op : BatchOp}
    (h : ops = before ++ op :: after) : begun before ≤ begun ops := by
  rw [h, begun, begun, List.count_append]
  exact Nat.le_add_right _ _

/-- The handle that the next `begin_batch` returns is told by its slot. -/
theorem eq_begun_iff {ops : List BatchOp} (hfew : begun ops + 1 < 2 ^ 64) (h : BatchHandle) :
    (⟨UInt64.ofNat (begun ops + 1), UInt64.ofNat (begun ops + 1)⟩ : BatchHandle) = h ↔
      h.slot.toNat = begun ops + 1 ∧ h.generation = h.slot := by
  obtain ⟨slot, generation⟩ := h
  constructor
  · intro heq
    cases heq
    exact ⟨toNat_ofNat_lt _ hfew, rfl⟩
  · rintro ⟨hslot, hgen⟩
    dsimp only at hslot hgen
    rw [hgen, ← hslot, UInt64.ofNat_toNat]

/-- The live handles by the calls alone: the slot has been given out, the generation is the
slot, and the handle has not been ended since. -/
theorem liveIn_after (ops : List BatchOp) (hfew : begun ops < 2 ^ 64) (h : BatchHandle) :
    h.LiveIn (after ops).1 ↔
      (h.slot ≠ 0 ∧ h.slot.toNat ≤ begun ops) ∧ h.generation = h.slot ∧ NotEnded ops h := by
  induction ops using List.reverseRecOn with
  | nil =>
      refine ⟨fun hlive => absurd hlive not_stands_nil, fun hgiven => ?_⟩
      have hzero : h.slot.toNat = 0 := Nat.le_zero.mp hgiven.1.2
      exact absurd hgiven.1.1 (not_not.mpr (UInt64.toNat_inj.mp hzero))
  | append_singleton ops op ih =>
      rw [after_concat, BatchHandle.LiveIn, stands_concat, notEnded_concat]
      change h.LiveIn (after ops).1 ∧ _ ∨ _ ↔ _
      cases op with
      | beginBatch =>
          rw [begun_concat_begin] at hfew
          have hkept : ¬ h.Ends (.beginBatch, ((after ops).2.step .beginBatch).1) := by
            rintro ⟨e, -, heq⟩
            cases heq
          rw [and_iff_left hkept, ih (by omega), begun_concat_begin, step, beginBatch_after,
            Prod.mk.injEq, BatchAnswer.handle.injEq, eq_begun_iff hfew]
          constructor
          · rintro (⟨⟨hne, hle⟩, hgen, hnot⟩ | ⟨-, hslot, hgen⟩)
            · exact ⟨⟨hne, by omega⟩, hgen, hnot, fun heq => by cases heq⟩
            · refine ⟨⟨fun hzero => ?_, by omega⟩, hgen, fun before after heq => ?_,
                fun heq => by cases heq⟩
              · rw [hzero, UInt64.toNat_zero] at hslot
                omega
              · have := begun_before_le heq
                omega
          · rintro ⟨⟨hne, hle⟩, hgen, hnot, -⟩
            by_cases hold : h.slot.toNat ≤ begun ops
            · exact Or.inl ⟨⟨hne, hold⟩, hgen, hnot⟩
            · exact Or.inr ⟨rfl, by omega, hgen⟩
      | endBatch g =>
          rw [begun_concat_end] at hfew ⊢
          have hfresh : ((BatchOp.endBatch g, ((after ops).2.step (.endBatch g)).1) :
              BatchEvent) ≠ (.beginBatch, .handle h) := fun heq => by cases heq
          have hends : h.Ends (.endBatch g, ((after ops).2.step (.endBatch g)).1) ↔
              g = h ∧ h.slot ≠ 0 ∧ h.slot.toNat ≤ begun ops := by
            constructor
            · rintro ⟨e, hok, heq⟩
              cases heq
              exact ⟨rfl, (endBatch_after ops h).mp hok⟩
            · rintro ⟨rfl, hgiven⟩
              exact ⟨_, (endBatch_after ops g).mpr hgiven, rfl⟩
          rw [or_iff_left hfresh, ih hfew, hends]
          constructor
          · rintro ⟨⟨hgiven, hgen, hnot⟩, hkept⟩
            refine ⟨hgiven, hgen, hnot, fun heq => ?_⟩
            exact absurd ⟨BatchOp.endBatch.inj heq, hgiven⟩ hkept
          · rintro ⟨hgiven, hgen, hnot, hlast⟩
            refine ⟨⟨hgiven, hgen, hnot⟩, fun hended => ?_⟩
            have := hlast (congrArg _ hended.1)
            omega

theorem batchesIn_after (ops : List BatchOp) :
    batchesIn (after ops).1 =
      (List.range (begun ops)).map fun k => ⟨UInt64.ofNat (k + 1), UInt64.ofNat (k + 1)⟩ := by
  induction ops using List.reverseRecOn with
  | nil => rfl
  | append_singleton ops op ih =>
      rw [after_concat, batchesIn, List.filterMap_append, ← batchesIn, ih]
      cases op with
      | beginBatch =>
          rw [begun_concat_begin, List.range_succ, List.map_append, step, beginBatch_after]
          rfl
      | endBatch h =>
          rw [begun_concat_end]
          exact List.append_nil _

/-- No handle is returned twice. -/
theorem batches_nodup (ops : List BatchOp) (hfew : begun ops < 2 ^ 64) :
    (batchesIn (after ops).1).Nodup := by
  rw [batchesIn_after]
  refine List.Nodup.map_on (fun j hj k hk heq => ?_) List.nodup_range
  have hslot := congrArg UInt64.toNat (congrArg BatchHandle.slot heq)
  rw [List.mem_range] at hj hk
  rw [toNat_ofNat_lt _ (by omega), toNat_ofNat_lt _ (by omega)] at hslot
  omega

/-- After any sequence of calls the handles returned are pairwise distinct, and ending a handle
succeeds just if it is live exactly when its slot has not been given out, or its generation is
its slot and it has not been ended since. -/
theorem endBatch_safe_iff (ops : List BatchOp) (hfew : begun ops < 2 ^ 64) (h : BatchHandle) :
    (batchesIn (after ops).1).Nodup ∧
      ((((after ops).2.endBatch h).1.ok = true ↔ h.LiveIn (after ops).1) ↔
        (h.slot = 0 ∨ begun ops < h.slot.toNat) ∨ (h.generation = h.slot ∧ NotEnded ops h)) := by
  refine ⟨batches_nodup ops hfew, ?_⟩
  rw [endBatch_after, liveIn_after ops hfew, iff_self_and, imp_iff_not_or, not_and_or, not_not,
    not_le]

/-- A batch that was begun and not ended: its handle is accepted. -/
theorem endBatch_safe_begun :
    (((after [.beginBatch]).2.endBatch ⟨1, 1⟩).1.ok = true ↔
      BatchHandle.LiveIn (after [.beginBatch]).1 ⟨1, 1⟩) := by
  refine (endBatch_safe_iff [.beginBatch] (by decide) ⟨1, 1⟩).2.mpr (Or.inr ⟨rfl, ?_⟩)
  exact (notEnded_concat [] _ _).mpr
    ⟨fun before after heq => absurd heq.symm (by simp), fun heq => by cases heq⟩

/-- A forged generation is accepted, and a batch can be ended twice. -/
theorem endBatch_accepts_dead :
    (((after [.beginBatch]).2.endBatch ⟨1, 7⟩).1.ok = true ∧
      ¬ BatchHandle.LiveIn (after [.beginBatch]).1 ⟨1, 7⟩) ∧
    (((after [.beginBatch, .endBatch ⟨1, 1⟩]).2.endBatch ⟨1, 1⟩).1.ok = true ∧
      ¬ BatchHandle.LiveIn (after [.beginBatch, .endBatch ⟨1, 1⟩]).1 ⟨1, 1⟩) := by
  refine ⟨⟨by decide, fun hlive => ?_⟩, ⟨by decide, fun hlive => ?_⟩⟩
  · have hgen := ((liveIn_after _ (by decide) _).mp hlive).2.1
    exact absurd hgen (by decide)
  · have hnot := ((liveIn_after _ (by decide) _).mp hlive).2.2
    exact absurd (hnot [.beginBatch] [] rfl) (by decide)

end BatchTable

end TransferFabric
