import TransferFabric.Foundation.Spans
import TransferFabric.Runtime.WorldSteps

/-!
Who keeps the staging memory. A block is in custody of the transfer that obtained
it or of the free list of its pool, of exactly one of them and exactly once.
Obtaining a buffer and giving one back that is held keep it so, if the allocator
hands out blocks that no other block overlaps.
-/

namespace TransferFabric

open Interaction Spans

def StagingBuffer.span (b : StagingBuffer) : Span := ⟨b.data.toNat, b.size.toNat⟩

def freeSpan (f : ByteCount × Address) : Span := ⟨f.2.toNat, f.1.toNat⟩

def Hold.span (h : Hold) : Span := h.buf.span

/-- A block of memory: not empty, not at null, and inside the address space. -/
def Real (s : Span) : Prop := s.size ≠ 0 ∧ 1 ≤ s.start ∧ s.start + s.size ≤ 2 ^ 64

theorem Real.live {b : StagingBuffer} (h : Real b.span) : ¬ b.null := by
  obtain ⟨hsize, hstart, -⟩ := h
  rintro (hdata | hzero)
  · rw [StagingBuffer.span, hdata] at hstart
    cases hstart
  · rw [StagingBuffer.span, hzero] at hsize
    exact hsize rfl

/-! One pool. -/

namespace StagingPool

/-- Where an obtained buffer comes from, and what is left of the pool. -/
inductive Obtains (p p' : StagingPool) (bytes : ByteCount) (allocated : Option Address)
    (b : StagingBuffer) : Prop
  | nothing (null : b.null) (same : p' = p)
  | reused (size : b.size = bytes) (free : List.Perm p.freeList ((bytes, b.data) :: p'.freeList))
      (use : p'.inUse = p.inUse + bytes)
  | grown (size : b.size = bytes) (bytes_pos : bytes ≠ 0) (fresh : allocated = some b.data)
      (free : p'.freeList = p.freeList) (use : p'.inUse = p.inUse + bytes)

theorem allocate_obtains {p : StagingPool} {bytes : ByteCount} {allocated : Option Address}
    {b : StagingBuffer} (h : (p.allocate bytes allocated).1 = some b) :
    Obtains p (p.allocate bytes (some b.data)).2 bytes allocated b := by
  have hanswer := p.allocate_answers bytes allocated
  rw [allocate_data h]
  rw [h] at hanswer
  generalize (p.allocate bytes allocated).2 = p' at hanswer ⊢
  cases hanswer with
  | same hb =>
      obtain rfl := hb b rfl
      exact .nothing (Or.inl rfl) rfl
  | reused data hne hfree hrest => exact .reused rfl hrest rfl
  | grown data hne hfits hdata =>
      have hgrows := p.grows_grow bytes data
      exact .grown rfl hne hdata hgrows.freeList hgrows.inUse

end StagingPool

/-! Both pools and the transfers. -/

namespace World

variable (w : World)

/-- The blocks on the free lists. -/
def freeBlocks : List Span :=
  w.hostPool.freeList.map freeSpan ++ w.pinnedPool.freeList.map freeSpan

/-- All blocks in custody. -/
def blocks : List Span := w.held.map Hold.span ++ w.freeBlocks

/-- The buffers held from the pool of a kind. -/
def heldIn (k : PoolKind) : List Hold :=
  w.held.filter fun h => decide (h.pool = .hostPinned ↔ k = .hostPinned)

/-- The allocator answers a request with a block that overlaps none of those it gave before. -/
def AllocatorSound (ch : Chance) : RtCall → Prop
  | .allocate _ _ bytes => bytes ≠ 0 → ∀ a, allocation ch = some a →
      Real ⟨a.toNat, bytes.toNat⟩ ∧
        ∀ h ∈ w.obtained, Span.Apart ⟨a.toNat, bytes.toNat⟩ h.span
  | _ => True

/-- Every block is kept by one transfer or by one free list, once. -/
structure Custody : Prop where
  apart : w.blocks.Pairwise Span.Apart
  real : ∀ s ∈ w.blocks, Real s
  known : ∀ s ∈ w.blocks, s ∈ w.obtained.map Hold.span
  /-- What was obtained is held or was given back. -/
  ledger : w.obtained.Perm (w.held ++ w.returned)
  usage : ∀ k, (w.pool k).usage.toNat = total ((w.heldIn k).map Hold.span)

variable {w} {w' : World} {r : Ref} {k : PoolKind} {b : StagingBuffer} {h : Hold}

theorem pool_setPool (w : World) (k k' : PoolKind) (p : StagingPool) :
    (w.setPool k p).pool k' = if k' = .hostPinned ↔ k = .hostPinned then p else w.pool k' := by
  unfold setPool pool
  by_cases hk : k = .hostPinned <;> by_cases hk' : k' = .hostPinned <;> simp [hk, hk']

theorem setPool_freeBlocks (w : World) (k : PoolKind) : ∃ others,
    w.freeBlocks.Perm ((w.pool k).freeList.map freeSpan ++ others) ∧
      ∀ p, (w.setPool k p).freeBlocks.Perm (p.freeList.map freeSpan ++ others) := by
  unfold freeBlocks setPool pool
  by_cases hk : k = .hostPinned
  · simp only [hk, if_true]
    exact ⟨_, List.perm_append_comm, fun _ => List.perm_append_comm⟩
  · simp only [hk, if_false]
    exact ⟨_, List.Perm.refl _, fun _ => List.Perm.refl _⟩

theorem total_perm {l l' : List Span} (h : l.Perm l') : total l = total l' :=
  (h.map Span.size).sum_eq

/-- Nothing about the staging memory has changed. -/
structure StagingSame (w w' : World) : Prop where
  hostPool : w'.hostPool = w.hostPool
  pinnedPool : w'.pinnedPool = w.pinnedPool
  obtained : w'.obtained = w.obtained
  held : w'.held = w.held
  returned : w'.returned = w.returned

theorem StagingSame.pool (hs : w.StagingSame w') (k : PoolKind) : w'.pool k = w.pool k := by
  unfold World.pool
  rw [hs.hostPool, hs.pinnedPool]

theorem pool_takeHold (w : World) (r : Ref) (k : PoolKind) (b : StagingBuffer) (k' : PoolKind) :
    (w.takeHold r k b).pool k' = w.pool k' := by
  unfold takeHold
  split_ifs <;> rfl

theorem pool_giveBack (w : World) (r : Ref) (k : PoolKind) (b : StagingBuffer) (k' : PoolKind) :
    (w.giveBack r k b).pool k' = (w.setPool k ((w.pool k).release b)).pool k' := by
  unfold giveBack
  dsimp only
  split_ifs <;> rfl

theorem Custody.same (hc : w.Custody) (hs : w.StagingSame w') : w'.Custody := by
  have hblocks : w'.blocks = w.blocks := by
    unfold blocks freeBlocks
    rw [hs.held, hs.hostPool, hs.pinnedPool]
  refine ⟨hblocks ▸ hc.apart, hblocks ▸ hc.real, ?_, ?_, fun k => ?_⟩
  · rw [hblocks, hs.obtained]
    exact hc.known
  · rw [hs.obtained, hs.held, hs.returned]
    exact hc.ledger
  · have hheld : w'.heldIn k = w.heldIn k := by
      unfold heldIn
      rw [hs.held]
    rw [hs.pool k, hheld]
    exact hc.usage k

theorem heldIn_total_lt (hap : w.blocks.Pairwise Span.Apart) (hreal : ∀ s ∈ w.blocks, Real s)
    (k : PoolKind) : total ((w.heldIn k).map Hold.span) < 2 ^ 64 := by
  have hsub : List.Sublist ((w.heldIn k).map Hold.span) w.blocks :=
    (List.filter_sublist.map Hold.span).trans (List.sublist_append_left _ _)
  have hle : total ((w.heldIn k).map Hold.span) ≤ 2 ^ 64 - 1 := by
    refine total_le (fun s hs => (?_ : s.Inside 1 _)) (hap.sublist hsub)
    obtain ⟨-, hlo, hhi⟩ := hreal s (hsub.subset hs)
    exact Or.inr ⟨hlo, by omega⟩
  omega

theorem heldIn_append (hheld : w'.held = w.held ++ [h]) (k : PoolKind) :
    w'.heldIn k = w.heldIn k ++
      if h.pool = .hostPinned ↔ k = .hostPinned then [h] else [] := by
  unfold heldIn
  rw [hheld, List.filter_append, List.filter_singleton]
  simp

/-- A transfer obtains a buffer, from a free list or from the allocator. -/
theorem Custody.take (hc : w.Custody) (hheld : w'.held = w.held ++ [h])
    (hobtained : w'.obtained = w.obtained ++ [h]) (hreturned : w'.returned = w.returned)
    (hblocks : w'.blocks.Perm w.blocks ∨ w'.blocks.Perm (h.span :: w.blocks) ∧ Real h.span ∧
      ∀ o ∈ w.obtained, h.span.Apart o.span)
    (hpool : ∀ k, (w'.pool k).inUse = if h.pool = .hostPinned ↔ k = .hostPinned
      then (w.pool k).inUse + h.buf.size else (w.pool k).inUse) : w'.Custody := by
  have hapart : w'.blocks.Pairwise Span.Apart := by
    rcases hblocks with hperm | ⟨hperm, -, hfresh⟩
    · exact (hperm.pairwise_iff Span.Apart.symm).mpr hc.apart
    · refine (hperm.pairwise_iff Span.Apart.symm).mpr (List.pairwise_cons.mpr ⟨?_, hc.apart⟩)
      intro s hs
      obtain ⟨o, ho, rfl⟩ := List.mem_map.mp (hc.known s hs)
      exact hfresh o ho
  have hmem : ∀ s ∈ w'.blocks, s ∈ w.blocks ∨ s = h.span ∧ Real h.span := by
    intro s hs
    rcases hblocks with hperm | ⟨hperm, hreal, -⟩
    · exact Or.inl (hperm.mem_iff.mp hs)
    · rcases List.mem_cons.mp (hperm.mem_iff.mp hs) with rfl | hs
      · exact Or.inr ⟨rfl, hreal⟩
      · exact Or.inl hs
  have hreal : ∀ s ∈ w'.blocks, Real s := fun s hs =>
    (hmem s hs).elim (hc.real s) fun hnew => hnew.1 ▸ hnew.2
  refine ⟨hapart, hreal, fun s hs => ?_, ?_, fun k => ?_⟩
  · rw [hobtained, List.map_append]
    rcases hmem s hs with hs | ⟨rfl, -⟩
    · exact List.mem_append_left _ (hc.known s hs)
    · exact List.mem_append_right _ (List.mem_singleton_self _)
  · rw [hobtained, hheld, hreturned, List.append_assoc]
    exact (hc.ledger.append_right [h]).trans
      (by rw [List.append_assoc]; exact List.perm_append_comm.append_left _)
  · -- the sum does not wrap, since the blocks lie apart in the address space
    have hlt := heldIn_total_lt hapart hreal k
    have husage := hc.usage k
    unfold StagingPool.usage at husage ⊢
    rw [heldIn_append hheld] at hlt ⊢
    rw [hpool k]
    split_ifs at hlt ⊢ with hk
    · have hsum : total ((w.heldIn k ++ [h]).map Hold.span) =
          total ((w.heldIn k).map Hold.span) + h.buf.size.toNat := by
        simp [total, Hold.span, StagingBuffer.span]
      rw [hsum] at hlt ⊢
      rw [UInt64.toNat_add, husage, Nat.mod_eq_of_lt hlt]
    · rw [List.append_nil, husage]

/-- A transfer gives back a buffer it holds. -/
theorem Custody.give (hc : w.Custody) (hmem : h ∈ w.held)
    (hheld : w'.held = w.held.erase h) (hobtained : w'.obtained = w.obtained)
    (hreturned : w'.returned = w.returned ++ [h])
    (hfree : w'.freeBlocks.Perm (h.span :: w.freeBlocks))
    (hpool : ∀ k, (w'.pool k).inUse = if h.pool = .hostPinned ↔ k = .hostPinned
      then (w.pool k).inUse - h.buf.size else (w.pool k).inUse) : w'.Custody := by
  have hsplit : w.held.Perm (h :: w.held.erase h) := List.perm_cons_erase hmem
  have hblocks : w'.blocks.Perm w.blocks := by
    unfold blocks
    rw [hheld]
    refine (hfree.append_left _).trans (List.perm_middle.trans ?_)
    exact ((hsplit.map Hold.span).append_right _).symm
  refine ⟨(hblocks.pairwise_iff Span.Apart.symm).mpr hc.apart,
    fun s hs => hc.real s (hblocks.mem_iff.mp hs), fun s hs => ?_, ?_, fun k => ?_⟩
  · rw [hobtained]
    exact hc.known s (hblocks.mem_iff.mp hs)
  · rw [hobtained, hheld, hreturned]
    refine hc.ledger.trans ((hsplit.append_right _).trans ?_)
    rw [← List.append_assoc]
    exact (List.perm_append_singleton h _).symm
  · have husage := hc.usage k
    unfold StagingPool.usage at husage ⊢
    have hin : (w.heldIn k).Perm ((h :: w.held.erase h).filter fun h =>
        decide (h.pool = .hostPinned ↔ k = .hostPinned)) := hsplit.filter _
    have hleft : w'.heldIn k = (w.held.erase h).filter fun h =>
        decide (h.pool = .hostPinned ↔ k = .hostPinned) := by
      unfold heldIn
      rw [hheld]
    rw [hpool k, hleft]
    have htotal := total_perm (hin.map Hold.span)
    split_ifs with hk
    · rw [List.filter_cons_of_pos (by simpa using hk)] at htotal
      have hsum : total (((h :: (w.held.erase h).filter fun h =>
          decide (h.pool = .hostPinned ↔ k = .hostPinned))).map Hold.span) = h.buf.size.toNat +
          total (((w.held.erase h).filter fun h =>
            decide (h.pool = .hostPinned ↔ k = .hostPinned)).map Hold.span) := by
        simp [total, Hold.span, StagingBuffer.span]
      rw [hsum] at htotal
      rw [UInt64.toNat_sub_of_le _ _ (UInt64.le_iff_toNat_le.mpr (by omega)), husage, htotal]
      omega
    · rw [List.filter_cons_of_neg (by simpa using hk)] at htotal
      rw [husage, htotal]

/-! The calls that touch the staging memory. -/

theorem inUse_setPool (w : World) (k k' : PoolKind) (p : StagingPool) :
    ((w.setPool k p).pool k').inUse =
      if k = .hostPinned ↔ k' = .hostPinned then p.inUse else (w.pool k').inUse := by
  rw [pool_setPool]
  by_cases h : k = .hostPinned ↔ k' = .hostPinned
  · rw [if_pos h, if_pos h.symm]
  · rw [if_neg h, if_neg fun h' => h h'.symm]

theorem pool_congr {k' : PoolKind} (h : k = .hostPinned ↔ k' = .hostPinned) :
    w.pool k' = w.pool k := by
  unfold pool
  by_cases hk : k = .hostPinned
  · rw [if_pos hk, if_pos (h.mp hk)]
  · rw [if_neg hk, if_neg fun hk' => hk (h.mpr hk')]

theorem setPool_ledger (w : World) (k : PoolKind) (p : StagingPool) :
    (w.setPool k p).obtained = w.obtained ∧ (w.setPool k p).held = w.held ∧
      (w.setPool k p).returned = w.returned := by
  unfold setPool
  split_ifs <;> exact ⟨rfl, rfl, rfl⟩

theorem takeHold_ledger (w : World) (r : Ref) (k : PoolKind) (b : StagingBuffer) :
    (w.takeHold r k b).held = w.held ++ (if b.null then [] else [⟨r, k, b⟩]) ∧
      (w.takeHold r k b).obtained = w.obtained ++ if b.null then [] else [⟨r, k, b⟩] := by
  by_cases hb : b.null
  · have heq : w.takeHold r k b = w := if_pos hb
    rw [heq, if_pos hb, List.append_nil, List.append_nil]
    exact ⟨rfl, rfl⟩
  · have heq : w.takeHold r k b = { w with
        obtained := w.obtained ++ [⟨r, k, b⟩], held := w.held ++ [⟨r, k, b⟩] } := if_neg hb
    rw [heq, if_neg hb]
    exact ⟨rfl, rfl⟩

theorem giveBack_null (hb : b.null) : w.giveBack r k b = w := by
  have hpool : w.setPool k (w.pool k) = w := by
    unfold setPool pool
    split_ifs <;> rfl
  have hsame : w.giveBack r k b = w.setPool k ((w.pool k).release b) := if_pos hb
  rw [hsame, StagingPool.release_null hb, hpool]

theorem giveBack_ledger (hb : ¬ b.null) :
    (w.giveBack r k b).held = w.held.erase ⟨r, k, b⟩ ∧
      (w.giveBack r k b).obtained = w.obtained := by
  obtain ⟨hobtained, hheld, -⟩ := w.setPool_ledger k ((w.pool k).release b)
  have heq : w.giveBack r k b =
      { w.setPool k ((w.pool k).release b) with
        held := (w.setPool k ((w.pool k).release b)).held.erase ⟨r, k, b⟩
        returned := (w.setPool k ((w.pool k).release b)).returned ++ [⟨r, k, b⟩] } := if_neg hb
  rw [heq]
  exact ⟨hheld ▸ rfl, hobtained⟩

theorem giveBack_held (w : World) (r : Ref) (k : PoolKind) (b : StagingBuffer) :
    (w.giveBack r k b).held = if b.null then w.held else w.held.erase ⟨r, k, b⟩ := by
  by_cases hb : b.null
  · rw [giveBack_null hb, if_pos hb]
  · rw [(giveBack_ledger hb).1, if_neg hb]

theorem Custody.allocate (hc : w.Custody) {bytes : ByteCount} {ch : Chance}
    (hx : ((w.pool k).allocate bytes (allocation ch)).1 = some b)
    (hsound : w.AllocatorSound ch (.allocate r k bytes)) :
    ((w.setPool k ((w.pool k).allocate bytes (some b.data)).2).takeHold r k b).Custody := by
  have hobtains := StagingPool.allocate_obtains hx
  generalize ((w.pool k).allocate bytes (some b.data)).2 = p at hobtains
  obtain ⟨hobtained, hheld, hreturned⟩ := w.setPool_ledger k p
  obtain ⟨others, hold, hnew⟩ := w.setPool_freeBlocks k
  -- with a block from somewhere, only its origin remains to be told
  have htake : ¬ b.null → b.size = bytes → p.inUse = (w.pool k).inUse + bytes →
      (List.Perm (b.span :: (w.setPool k p).freeBlocks) w.freeBlocks ∨
        (w.setPool k p).freeBlocks.Perm w.freeBlocks ∧ Real b.span ∧
          ∀ o ∈ w.obtained, b.span.Apart o.span) →
      ((w.setPool k p).takeHold r k b).Custody := by
    intro hlive hsize huse horigin
    have heq : (w.setPool k p).takeHold r k b =
        { w.setPool k p with
          obtained := (w.setPool k p).obtained ++ [⟨r, k, b⟩]
          held := (w.setPool k p).held ++ [⟨r, k, b⟩] } := if_neg hlive
    have hblocks : ((w.setPool k p).takeHold r k b).blocks =
        (w.held ++ [(⟨r, k, b⟩ : Hold)]).map Hold.span ++ (w.setPool k p).freeBlocks := by
      rw [heq, ← hheld]
      rfl
    have hmiddle : ((w.setPool k p).takeHold r k b).blocks.Perm
        (w.held.map Hold.span ++ b.span :: (w.setPool k p).freeBlocks) := by
      rw [hblocks, List.map_append, List.append_assoc]
      exact List.Perm.refl _
    refine hc.take (h := ⟨r, k, b⟩) (by rw [heq, ← hheld]) (by rw [heq, ← hobtained])
      (by rw [heq, ← hreturned]) ?_ fun k' => ?_
    · rcases horigin with hfree | ⟨hfree, hreal, hfresh⟩
      · exact Or.inl (hmiddle.trans (hfree.append_left _))
      · refine Or.inr ⟨hmiddle.trans (List.perm_middle.trans ?_), hreal, hfresh⟩
        exact (hfree.append_left _).cons _
    · rw [heq]
      show ((w.setPool k p).pool k').inUse = if k = .hostPinned ↔ k' = .hostPinned then _ else _
      rw [inUse_setPool]
      split_ifs with hk
      · rw [huse, pool_congr hk, hsize]
      · rfl
  cases hobtains with
  | nothing null same =>
      have hpool : w.setPool k p = w := by
        rw [same]
        unfold setPool pool
        split_ifs <;> rfl
      have hnone : w.takeHold r k b = w := if_pos null
      rw [hpool, hnone]
      exact hc
  | reused size free use =>
      have hspan : freeSpan (bytes, b.data) = b.span := by
        rw [freeSpan, StagingBuffer.span, size]
      have hfree : List.Perm (b.span :: (w.setPool k p).freeBlocks) w.freeBlocks := by
        refine ((hnew p).cons _).trans (hold.trans ?_).symm
        have := (free.map freeSpan).append_right others
        rwa [List.map_cons, hspan] at this
      have hreal : Real b.span :=
        hc.real _ (List.mem_append_right _ (hfree.mem_iff.mp List.mem_cons_self))
      exact htake hreal.live size use (Or.inl hfree)
  | grown size bytes_pos fresh free use =>
      obtain ⟨hreal, hfresh⟩ := hsound bytes_pos b.data fresh
      have hspan : (⟨b.data.toNat, bytes.toNat⟩ : Span) = b.span := by
        rw [StagingBuffer.span, size]
      rw [hspan] at hreal hfresh
      refine htake hreal.live size use (Or.inr ⟨?_, hreal, hfresh⟩)
      have := hnew p
      rw [free] at this
      exact this.trans hold.symm

theorem Custody.giveBack (hc : w.Custody) (hmem : b.null ∨ ⟨r, k, b⟩ ∈ w.held) :
    (w.giveBack r k b).Custody := by
  obtain ⟨hobtained, hheld, hreturned⟩ := w.setPool_ledger k ((w.pool k).release b)
  by_cases hnull : b.null
  · rw [giveBack_null hnull]
    exact hc
  · have heq : w.giveBack r k b =
        { w.setPool k ((w.pool k).release b) with
          held := (w.setPool k ((w.pool k).release b)).held.erase ⟨r, k, b⟩
          returned := (w.setPool k ((w.pool k).release b)).returned ++ [⟨r, k, b⟩] } := if_neg hnull
    have hrelease : (w.pool k).release b =
        { w.pool k with
          inUse := (w.pool k).inUse - b.size
          freeList := (w.pool k).freeList ++ [(b.size, b.data)] } := if_neg hnull
    refine hc.give (h := ⟨r, k, b⟩) (hmem.resolve_left hnull) (by rw [heq, ← hheld])
      (by rw [heq, ← hobtained]) (by rw [heq, ← hreturned]) ?_ fun k' => ?_
    · have hfree : (w.giveBack r k b).freeBlocks =
          (w.setPool k ((w.pool k).release b)).freeBlocks := by rw [heq]; rfl
      obtain ⟨others, hold, hnew⟩ := w.setPool_freeBlocks k
      rw [hfree]
      refine (hnew _).trans ?_
      rw [hrelease, List.map_append, List.append_assoc]
      exact List.perm_middle.trans (hold.symm.cons _)
    · rw [heq]
      show ((w.setPool k ((w.pool k).release b)).pool k').inUse =
        if k = .hostPinned ↔ k' = .hostPinned then _ else _
      rw [inUse_setPool]
      split_ifs with hk
      · rw [hrelease, pool_congr hk]
      · rfl

end World

/-- The calls that touch the staging memory. -/
def RtCall.stages : RtCall → Bool
  | .allocate .. | .release .. | .drain _ | .exec _ (.release ..) => true
  | _ => false

namespace World

variable {w : World} {i : Tid} {c : RtCall}

theorem after_staging (w : World) (i : Tid) (c : RtCall) (x : RtAnswer c) :
    (w.share i c x).StagingSame (w.after i c x) := by
  obtain ⟨heap, past, heq⟩ := w.after_eq_share i c x
  rw [heq]
  exact ⟨rfl, rfl, rfl, rfl, rfl⟩

theorem share_staging (hc : c.stages = false) (x : RtAnswer c) :
    w.StagingSame (w.share i c x) := by
  cases c with
  | allocate | release | drain => cases hc
  | exec r ec =>
      cases ec with
      | release => cases hc
      | _ => exact ⟨rfl, rfl, rfl, rfl, rfl⟩
  | _ => exact ⟨rfl, rfl, rfl, rfl, rfl⟩

theorem after_staging_same (w : World) (i : Tid) (hc : c.stages = false) (x : RtAnswer c) :
    w.StagingSame (w.after i c x) := by
  have h₁ : w.StagingSame (w.share i c x) := share_staging hc x
  have h₂ := w.after_staging i c x
  exact ⟨h₂.hostPool.trans h₁.hostPool, h₂.pinnedPool.trans h₁.pinnedPool,
    h₂.obtained.trans h₁.obtained, h₂.held.trans h₁.held, h₂.returned.trans h₁.returned⟩

end World

end TransferFabric
