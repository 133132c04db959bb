import TransferFabric.Runtime.Custody
import TransferFabric.Runtime.Repertoire
import TransferFabric.Runtime.WorkSpecs

/-!
A staging reservation that runs alone, on pools from which nothing has been
drawn, with an allocator that never fails. It succeeds exactly if every buffer
it asks for passes the pool's check, which is made in 64-bit arithmetic.
-/

namespace TransferFabric

open Interaction

/-- A step of thread `i` in which the allocator, if asked, has a block. -/
def granted (i : Tid) : Effect RtSig World := fun w c x w' =>
  (∃ ch, (World.allocation ch).isSome = true ∧ w.answer ch c = some x) ∧ w' = w.after i c x

/-- The call is answered and does not wait. -/
def served (w : World) (c : RtCall) : Prop :=
  ∃ ch x, (World.allocation ch).isSome = true ∧ w.answer ch c = some x

theorem exists_grant : ∃ ch, (World.allocation ch).isSome = true :=
  ⟨{ allocated := some 1
     respond := fun (c : ExecSig.Call) => Classical.choice (inferInstance : Nonempty (ExecSig.Answer c)) }, rfl⟩

theorem served_of {w : World} {c : RtCall} (h : ∀ ch, (w.answer ch c).isSome = true) : served w c := by
  obtain ⟨ch, hch⟩ := exists_grant
  obtain ⟨x, hx⟩ := Option.isSome_iff_exists.mp (h ch)
  exact ⟨ch, x, hch, hx⟩

/-- A program whose calls are all served has a run. -/
theorem wp_served {α : Type} {p : Prog RtSig α} {i : Tid} {Q : α → World → Prop} {w : World}
    (h : wp served (granted i) p Q w) : ∃ a w', Q a w' := by
  induction p generalizing w with
  | done a => exact ⟨a, w, h⟩
  | call c next ih =>
      obtain ⟨⟨ch, x, hch, hx⟩, hnext⟩ := h
      exact ih x (hnext x _ ⟨⟨ch, hch, hx⟩, rfl⟩)

/-- The pool a node draws from: the pinned one or the other. -/
def stagingKind (pinned : Bool) : PoolKind := if pinned then .hostPinned else .host

theorem poolFor_eq (d : MemoryDomain) : poolFor d = stagingKind (d = .hostPinned) := by
  unfold poolFor stagingKind
  split_ifs <;> simp_all

/-- So many buffers of the size have been drawn from each pool, and none was given back. -/
structure Drawn (cap : Bool → ByteCount) (size : ByteCount) (n : Bool → Nat) (w : World) : Prop where
  free : ∀ p, (w.pool (stagingKind p)).freeList = []
  capacity : ∀ p, (w.pool (stagingKind p)).capacityBytes = cap p
  allocated : ∀ p, (w.pool (stagingKind p)).allocatedBytes = size * UInt64.ofNat (n p)

/-- A pool of the capacity hands out `n` buffers of the size, one after the other. -/
def Holds (cap size : ByteCount) (n : Nat) : Prop :=
  ∀ k ≤ n, k * size.toNat % 2 ^ 64 ≤ cap.toNat

theorem Holds.mono {cap size : ByteCount} {m n : Nat} (h : Holds cap size n) (hmn : m ≤ n) :
    Holds cap size m :=
  fun k hk => h k (hk.trans hmn)

theorem holds_succ {cap size : ByteCount} {n : Nat} :
    Holds cap size (n + 1) ↔
      Holds cap size n ∧ size * UInt64.ofNat n + size ≤ cap := by
  have hnext : (size * UInt64.ofNat n + size).toNat = (n + 1) * size.toNat % 2 ^ 64 := by
    rw [UInt64.toNat_add, UInt64.toNat_mul, UInt64.toNat_ofNat', Nat.mul_mod_mod, Nat.mod_add_mod,
      Nat.mul_comm size.toNat, Nat.add_mul, Nat.one_mul]
  rw [UInt64.le_iff_toNat_le, hnext]
  constructor
  · intro h
    exact ⟨h.mono (Nat.le_succ n), h _ (Nat.le_refl _)⟩
  · rintro ⟨h, hlast⟩ k hk
    rcases Nat.lt_or_eq_of_le hk with hlt | rfl
    · exact h k (Nat.lt_succ_iff.mp hlt)
    · exact hlast

section Alone

variable {cap : Bool → ByteCount} {size : ByteCount} {n : Bool → Nat} {w : World} {i : Tid}

/-- Calls that leave both pools alone. -/
theorem Drawn.same {w' : World} (h : Drawn cap size n w) (hhost : w'.hostPool = w.hostPool)
    (hpinned : w'.pinnedPool = w.pinnedPool) : Drawn cap size n w' := by
  have hpool : ∀ k, w'.pool k = w.pool k := fun k => by
    unfold World.pool
    rw [hhost, hpinned]
  exact ⟨fun p => hpool _ ▸ h.free p, fun p => hpool _ ▸ h.capacity p,
    fun p => hpool _ ▸ h.allocated p⟩

theorem stagingKind_same (p q : Bool) :
    (stagingKind q = .hostPinned ↔ stagingKind p = .hostPinned) ↔ q = p := by
  cases p <;> cases q <;> decide

theorem Drawn.refused (h : Drawn cap size n w) (hsize : size ≠ 0) {p : Bool}
    (hfull : ¬ size * UInt64.ofNat (n p) + size ≤ cap p) (a : Option Address) :
    ((w.pool (stagingKind p)).allocate size a).1 = none := by
  rw [UInt64.not_le] at hfull
  unfold StagingPool.allocate
  rw [if_neg hsize, h.free p]
  simp only [List.find?_nil, h.allocated p, h.capacity p, gt_iff_lt, hfull, if_true]

theorem Drawn.obtained (h : Drawn cap size n w) (hsize : size ≠ 0) {p : Bool}
    (hroom : size * UInt64.ofNat (n p) + size ≤ cap p) (a : Address) :
    (w.pool (stagingKind p)).allocate size (some a) =
      (some ((w.pool (stagingKind p)).grow size a).1, ((w.pool (stagingKind p)).grow size a).2) := by
  rw [← UInt64.not_lt] at hroom
  unfold StagingPool.allocate
  rw [if_neg hsize, h.free p]
  simp only [List.find?_nil, h.allocated p, h.capacity p, gt_iff_lt, hroom, if_false]

/-- One buffer more is drawn from its pool. -/
theorem Drawn.draw (h : Drawn cap size n w) (hsize : size ≠ 0) {p : Bool} {r : Ref}
    (hroom : size * UInt64.ofNat (n p) + size ≤ cap p) {b : StagingBuffer} :
    Drawn cap size (Function.update n p (n p + 1))
      (w.after i (.allocate r (stagingKind p) size) (some b)) := by
  have hgrow : ((w.pool (stagingKind p)).allocate size (some b.data)).2 =
      ((w.pool (stagingKind p)).grow size b.data).2 := by
    rw [h.obtained hsize hroom]
  have hpool : ∀ k, (w.after i (.allocate r (stagingKind p) size) (some b)).pool k =
      (w.setPool (stagingKind p) ((w.pool (stagingKind p)).grow size b.data).2).pool k := by
    intro k
    obtain ⟨heap, past, heq⟩ := w.after_eq_share i (.allocate r (stagingKind p) size) (some b)
    rw [heq, ← hgrow]
    exact World.pool_takeHold _ r (stagingKind p) b k
  have hgrows := (w.pool (stagingKind p)).grows_grow size b.data
  have hread : ∀ q, (w.after i (.allocate r (stagingKind p) size) (some b)).pool (stagingKind q) =
      if q = p then ((w.pool (stagingKind p)).grow size b.data).2 else w.pool (stagingKind q) := by
    intro q
    rw [hpool, World.pool_setPool]
    exact if_congr (stagingKind_same p q) rfl rfl
  refine ⟨?_, ?_, ?_⟩
  · intro q
    rw [hread]
    split_ifs with hqp
    · rw [hgrows.freeList, h.free]
    · exact h.free q
  · intro q
    rw [hread]
    split_ifs with hqp
    · rw [hgrows.capacityBytes, h.capacity, hqp]
    · exact h.capacity q
  · intro q
    rw [hread]
    split_ifs with hqp
    · rw [hqp, hgrows.allocatedBytes, h.allocated, Function.update_self, UInt64.ofNat_add, UInt64.mul_add]
      exact congrArg _ (UInt64.mul_one size).symm
    · rw [h.allocated, Function.update_of_ne hqp]

/-- The buffers of one node: all of them, or the first that does not fit. -/
theorem wp_reserveRing (hsize : size ≠ 0) (r : Ref) (p : Bool) (j depth : Nat)
    (h : Drawn cap size n w) (hheld : Holds (cap p) size (n p)) :
    wp served (granted i) (reserveRing r (stagingKind p) size j depth)
      (fun ok w' =>
        (ok = true ∧ Holds (cap p) size (n p + depth) ∧
          Drawn cap size (Function.update n p (n p + depth)) w') ∨
        (ok = false ∧ ¬ Holds (cap p) size (n p + depth))) w := by
  induction depth generalizing n w with
  | zero =>
      refine Or.inl ⟨rfl, hheld, ?_⟩
      rw [Nat.add_zero, Function.update_eq_self]
      exact h
  | succ depth ih =>
      refine ⟨served_of fun ch => rfl, ?_⟩
      rintro x w' ⟨⟨ch, hch, hx⟩, rfl⟩
      obtain ⟨a, ha⟩ := Option.isSome_iff_exists.mp hch
      have hx' : ((w.pool (stagingKind p)).allocate size (some a)).1 = x := by
        rw [← ha]
        exact Option.some.inj hx
      by_cases hroom : size * UInt64.ofNat (n p) + size ≤ cap p
      · cases x with
        | none =>
            rw [h.obtained hsize hroom] at hx'
            cases hx'
        | some b =>
            have hdrawn := h.draw (i := i) (r := r) (b := b) hsize hroom
            refine ⟨served_of fun ch => rfl, fun _ w₁ h₁ => ?_⟩
            refine ⟨served_of fun ch => rfl, fun _ w₂ h₂ => ?_⟩
            refine ⟨served_of fun ch => rfl, fun _ w₃ h₃ => ?_⟩
            have hdrawn₁ : Drawn cap size _ w₁ := hdrawn.same (h₁.2 ▸ rfl) (h₁.2 ▸ rfl)
            have hdrawn₂ : Drawn cap size _ w₂ := hdrawn₁.same (h₂.2 ▸ rfl) (h₂.2 ▸ rfl)
            have hdrawn₃ : Drawn cap size _ w₃ := hdrawn₂.same (h₃.2 ▸ rfl) (h₃.2 ▸ rfl)
            have hheld' : Holds (cap p) size (Function.update n p (n p + 1) p) := by
              rw [Function.update_self]
              exact holds_succ.mpr ⟨hheld, hroom⟩
            have hrest := ih hdrawn₃ hheld'
            rw [Function.update_self, Function.update_idem, Nat.add_assoc, Nat.add_comm 1] at hrest
            exact hrest
      · cases x with
        | none =>
            refine Or.inr ⟨rfl, fun hall => hroom ?_⟩
            exact (holds_succ.mp (hall.mono (by omega))).2
        | some b =>
            rw [h.refused hsize hroom] at hx'
            cases hx'

theorem served_prepares {r : Ref} (w : World) (c : RtCall) (h : c.prepares r = true) :
    served w c := by
  refine served_of fun ch => ?_
  cases c <;> first | rfl | cases h

/-- How many nodes draw from the pool. -/
def poolNodes (nodes : List MemoryDomain) (p : Bool) : Nat :=
  nodes.countP fun d => decide (d = .hostPinned) == p

theorem poolNodes_take_le (inner : List MemoryDomain) (k : Nat) (p : Bool) :
    poolNodes (inner.take k) p ≤ poolNodes inner p :=
  (List.take_sublist k inner).countP_le

theorem poolNodes_take_succ {inner : List MemoryDomain} {k : Nat} (hk : k < inner.length)
    (p : Bool) :
    poolNodes (inner.take (k + 1)) p =
      poolNodes (inner.take k) p + if p = decide (inner[k] = .hostPinned) then 1 else 0 := by
  rw [poolNodes, List.take_succ_eq_append_getElem hk, List.countP_append, List.countP_singleton]
  congr 1
  cases p <;> cases decide (inner[k] = .hostPinned) <;> rfl

theorem poolNodes_take_here {inner : List MemoryDomain} {k : Nat} (hk : k < inner.length) :
    poolNodes (inner.take (k + 1)) (decide (inner[k] = .hostPinned)) =
      poolNodes (inner.take k) (decide (inner[k] = .hostPinned)) + 1 := by
  rw [poolNodes_take_succ hk, if_pos rfl]

/-- Drawing the buffers of one more node. -/
theorem poolNodes_drawn {inner : List MemoryDomain} {k depth : Nat} (hk : k < inner.length) :
    Function.update (fun p => depth * poolNodes (inner.take k) p)
      (decide (inner[k] = .hostPinned))
      (depth * poolNodes (inner.take k) (decide (inner[k] = .hostPinned)) + depth) =
        fun p => depth * poolNodes (inner.take (k + 1)) p := by
  funext p
  by_cases hp : p = decide (inner[k] = .hostPinned)
  · rw [hp, Function.update_self, poolNodes_take_here hk, Nat.mul_succ]
  · rw [Function.update_of_ne hp, poolNodes_take_succ hk, if_neg hp, Nat.add_zero]

/-- On pools nothing was drawn from, a reservation succeeds if both pools can hold the
buffers of all their nodes. -/
theorem wp_reserveNodes {r : Ref} {depth : Nat} {nodes : List MemoryDomain} (hsize : size ≠ 0)
    (h : Drawn cap size (fun _ => 0) w) :
    wp served (granted i) (forLoop (reserveNode depth r nodes size) (nodes.length - 2) 1 {})
      (fun e _ => e.ok = true ↔
        ∀ p, Holds (cap p) size (depth * poolNodes nodes.tail.dropLast p)) w := by
  set inner := nodes.tail.dropLast with hinner
  have hlen : inner.length = nodes.length - 2 := by
    rw [hinner, List.length_dropLast, List.length_tail]
    omega
  refine wp_mono _ (wp_forLoop (reserveNode depth r nodes size)
    (fun j e w => e = {} ∧ Drawn cap size (fun p => depth * poolNodes (inner.take (j - 1)) p) w ∧
      ∀ p, Holds (cap p) size (depth * poolNodes (inner.take (j - 1)) p))
    (fun e _ => e.ok = false ∧ ¬ ∀ p, Holds (cap p) size (depth * poolNodes inner p))
    (nodes.length - 2) 1 ?_ ?_) ?_
  · rintro j e w hj hjlt ⟨rfl, hdrawn, hheld⟩
    obtain ⟨k, rfl⟩ : ∃ k, j = k + 1 := ⟨j - 1, by omega⟩
    have hk : k < inner.length := by omega
    have hnode : nodes.getD (k + 1) .unknown = inner[k] := by
      have hlt : k + 1 < nodes.length := by omega
      simp [hinner, List.getD_eq_getElem?_getD, hlt]
    rw [Nat.add_sub_cancel] at hdrawn hheld ⊢
    have hring := wp_reserveRing (i := i) hsize r (decide (inner[k] = .hostPinned)) (k + 1) depth
      hdrawn (hheld _)
    rw [← poolFor_eq, ← hnode] at hring
    refine (wp_bind _ _ _ _).mpr (wp_mono _ hring ?_)
    rw [hnode]
    rintro ok w' (⟨rfl, hroom, hdrawn'⟩ | ⟨rfl, hroom⟩)
    · rw [poolNodes_drawn hk] at hdrawn'
      refine ⟨rfl, hdrawn', fun p => ?_⟩
      rw [← congrFun (poolNodes_drawn hk) p]
      by_cases hp : p = decide (inner[k] = .hostPinned)
      · rw [hp, Function.update_self]
        exact hroom
      · rw [Function.update_of_ne hp]
        exact hheld p
    · refine (wp_bind _ _ _ _).mpr (wp_mono _ ((calls_undoReservation _).wp served_prepares w') ?_)
      refine fun _ _ _ => ⟨rfl, fun hall => hroom ((hall _).mono ?_)⟩
      rw [← Nat.mul_add_one, ← poolNodes_take_here hk]
      exact Nat.mul_le_mul_left _ (poolNodes_take_le _ _ _)
  · refine ⟨rfl, ?_, ?_⟩
    · simpa [poolNodes] using h
    · intro p k hk
      simp [poolNodes] at hk
      simp [hk]
  · rintro e w' (⟨rfl, -, hheld⟩ | ⟨herr, hnot⟩)
    · have hall : 1 + (nodes.length - 2) - 1 = inner.length := by omega
      rw [hall, List.take_length] at hheld
      simpa using hheld
    · exact iff_of_false (by simp [herr]) hnot

/-- A reservation that runs alone, on pools nothing was drawn from, succeeds exactly if both
pools hold the buffers of all the nodes that draw from them. -/
theorem wp_reserveStaging (depth : Nat) {r : Ref}
    (hlegs : (w.heap r).body.route.legs ≠ []) (hsize : size ≠ 0)
    (hchunk : (w.heap r).body.chunkPlan.plan.chunkSize = size)
    (h : Drawn cap size (fun _ => 0) w) :
    wp served (granted i) (reserveStaging depth r)
      (fun e _ => e.ok = true ↔ ∀ p, Holds (cap p) size
        (depth * poolNodes (w.heap r).body.route.nodes.tail.dropLast p)) w := by
  refine ⟨served_of fun ch => rfl, ?_⟩
  rintro x w₁ ⟨⟨ch, -, hx⟩, hw₁⟩
  obtain rfl : w.heap r = x := Option.some.inj hx
  have h₁ : Drawn cap size _ w₁ := h.same (hw₁ ▸ rfl) (hw₁ ▸ rfl)
  change wp served (granted i) (if (w.heap r).body.route.legs = [] then _ else _) _ w₁
  rw [if_neg hlegs]
  refine ⟨served_of fun ch => rfl, ?_⟩
  intro _ w₂ hset
  have h₂ : Drawn cap size _ w₂ := h₁.same (hset.2 ▸ rfl) (hset.2 ▸ rfl)
  rw [hchunk]
  exact wp_reserveNodes hsize h₂

end Alone

end TransferFabric
