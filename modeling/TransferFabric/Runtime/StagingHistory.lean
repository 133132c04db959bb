import TransferFabric.Foundation.Transition
import TransferFabric.Runtime.Staging
import Mathlib.Algebra.BigOperators.Group.List.Basic
import Mathlib.Data.List.Induction

/-!
A pool over its whole life. A history is a sequence of critical sections: calls of
`allocate`, turns of `allocate_blocking`, calls of `release` and of `drain`, by any
number of threads. Beside the pool it records the buffers that are out.

Modulo 2^64 the books are right whatever the allocator does. That they are right
as numbers, and that the bound on the bytes holds, needs an allocator that never
has 2^63 bytes live: the sum in the capacity check can wrap.
-/

namespace TransferFabric

open Transition

structure PoolHistory where
  pool : StagingPool
  outstanding : List StagingBuffer := []
  deriving DecidableEq, Repr

inductive PoolEvent where
  | allocate (bytes : ByteCount) (allocated : Option Address)
  | blocking (bytes : ByteCount) (cancel : Bool) (allocated : Option Address)
  | release (buf : StagingBuffer)
  | drain
  deriving DecidableEq, Repr

/-- The size and the block in the allocator's answer. -/
def PoolEvent.grant : PoolEvent → Option (ByteCount × Address)
  | .allocate bytes allocated => allocated.map fun data => (bytes, data)
  | .blocking bytes _ allocated => allocated.map fun data => (bytes, data)
  | .release _ => none
  | .drain => none

namespace PoolHistory

def fresh (capacity : ByteCount) : PoolHistory := { pool := { capacityBytes := capacity } }

/-- The buffer that a critical section returns, if any, and the pool it leaves. -/
def answer (s : PoolHistory) : PoolEvent → Option StagingBuffer × StagingPool
  | .allocate bytes allocated => s.pool.allocate bytes allocated
  | .blocking bytes cancel allocated => s.pool.blockingTurn bytes cancel allocated
  | .release buf => (none, s.pool.release buf)
  | .drain => (none, s.pool.drain)

/-- An empty buffer is no block: it is neither out nor can it be given back. -/
def take (s : PoolHistory) : Option StagingBuffer → List StagingBuffer
  | none => s.outstanding
  | some b => if b.null then s.outstanding else b :: s.outstanding

def next (s : PoolHistory) (e : PoolEvent) : PoolHistory where
  pool := (s.answer e).2
  outstanding :=
    match e with
    | .release buf => s.outstanding.erase buf
    | _ => s.take (s.answer e).1

/-- What the pool has and what is out. -/
def blocks (s : PoolHistory) : List (ByteCount × Address) :=
  s.pool.freeList ++ s.outstanding.map StagingBuffer.block

def addresses (s : PoolHistory) : List Address := s.blocks.map Prod.snd

/-- The sizes of blocks, added up without a bound. -/
def bytesOf (l : List (ByteCount × Address)) : Nat := (l.map fun f => f.1.toNat).sum

def outBytes (s : PoolHistory) : Nat := bytesOf (s.outstanding.map StagingBuffer.block)

def live (s : PoolHistory) : Nat := bytesOf s.pool.freeList + s.outBytes

/-- A buffer is given back at most once, `drain` waits for all of them, and the null
pointer is a failure. -/
def Proper (s : PoolHistory) : PoolEvent → Prop
  | .allocate _ allocated => allocated ≠ some 0
  | .blocking _ _ allocated => allocated ≠ some 0
  | .release buf => buf.null ∨ buf ∈ s.outstanding
  | .drain => s.outstanding = []

instance (s : PoolHistory) : (e : PoolEvent) → Decidable (s.Proper e)
  | .allocate .. | .blocking .. => inferInstanceAs (Decidable (_ ≠ _))
  | .release _ => inferInstanceAs (Decidable (_ ∨ _))
  | .drain => inferInstanceAs (Decidable (_ = _))

/-- The allocator, if it does not fail, has a block that is not in use and then has
less than 2^63 bytes live. -/
def AllocatorSound (s : PoolHistory) (e : PoolEvent) : Prop :=
  ∀ bytes data, (bytes, data) ∈ e.grant → data ∉ s.addresses ∧ s.live + bytes.toNat < 2 ^ 63

instance (s : PoolHistory) (e : PoolEvent) : Decidable (s.AllocatorSound e) :=
  match h : e.grant with
  | none => .isTrue fun _ _ hx => by rw [h] at hx; cases hx
  | some (n, d) => decidable_of_iff (d ∉ s.addresses ∧ s.live + n.toNat < 2 ^ 63) (by
      unfold AllocatorSound
      rw [h]
      constructor
      · rintro hsound bytes data hx
        obtain ⟨rfl, rfl⟩ := Prod.mk.inj (Option.some.inj hx)
        exact hsound
      · exact fun hsound => hsound n d rfl)

/-! One step. -/

/-- What a critical section can do to the pool and to what is out. -/
inductive Change (s : PoolHistory) (e : PoolEvent) (t : PoolHistory) : Prop
  | same (hpool : t.pool = s.pool) (hout : List.Perm t.outstanding s.outstanding)
  | reused (b : StagingBuffer) (hb : ¬ b.null)
      (hfree : List.Perm s.pool.freeList (b.block :: t.pool.freeList))
      (halloc : t.pool.allocatedBytes = s.pool.allocatedBytes)
      (huse : t.pool.inUse = s.pool.inUse + b.size)
      (hcap : t.pool.capacityBytes = s.pool.capacityBytes)
      (hhigh : t.pool.highWater = s.pool.highWater)
      (hout : List.Perm t.outstanding (b :: s.outstanding))
  | grown (b : StagingBuffer) (hb : ¬ b.null) (hgrant : b.block ∈ e.grant)
      (hfits : s.pool.allocatedBytes + b.size ≤ s.pool.capacityBytes)
      (hpool : s.pool.Grows t.pool b.size) (hout : List.Perm t.outstanding (b :: s.outstanding))
  | released (b : StagingBuffer) (hb : ¬ b.null) (hpool : t.pool = s.pool.release b)
      (hout : List.Perm s.outstanding (b :: t.outstanding))
  | drained (he : e = .drain) (hnone : s.outstanding = []) (hpool : t.pool = s.pool.drain)
      (hout : t.outstanding = [])

/-- Every block is at an address. -/
structure Real (s : PoolHistory) : Prop where
  free : ∀ f ∈ s.pool.freeList, f.2 ≠ 0
  out : ∀ b ∈ s.outstanding, ¬ b.null

variable {s t : PoolHistory} {e : PoolEvent}

theorem take_some {b : StagingBuffer} (h : ¬ b.null) : s.take (some b) = b :: s.outstanding :=
  if_neg h

theorem take_null {b : StagingBuffer} (h : b.null) : s.take (some b) = s.outstanding :=
  if_pos h

theorem take_empty {b : Option StagingBuffer} (h : ∀ x, b = some x → x = {}) :
    s.take b = s.outstanding := by
  cases b with
  | none => rfl
  | some x =>
      obtain rfl := h x rfl
      exact take_null (Or.inl rfl)

theorem change_of_answers {bytes : ByteCount} {allocated : Option Address}
    {b : Option StagingBuffer} (hreal : ∀ f ∈ s.pool.freeList, f.2 ≠ 0)
    (hgrant : ∀ data, allocated = some data → data ≠ 0 ∧ (bytes, data) ∈ e.grant)
    (h : s.pool.Answers bytes allocated b t.pool)
    (hout : List.Perm t.outstanding (s.take b)) : Change s e t := by
  generalize hp : t.pool = p at h
  cases h with
  | same hb =>
      rw [take_empty hb] at hout
      exact .same hp hout
  | reused data hne hfree hrest =>
      have hb : ¬ (s.pool.reuse bytes data).1.null := not_or.mpr ⟨hreal _ hfree, hne⟩
      rw [take_some hb] at hout
      refine .reused _ hb ?_ ?_ ?_ ?_ ?_ hout
      · rw [hp]
        exact hrest
      all_goals rw [hp]; rfl
  | grown data hne hfits hdata =>
      obtain ⟨hnonnull, hmem⟩ := hgrant data hdata
      have hb : ¬ (s.pool.grow bytes data).1.null := not_or.mpr ⟨hnonnull, hne⟩
      rw [take_some hb] at hout
      refine .grown _ hb hmem hfits ?_ hout
      rw [hp]
      exact s.pool.grows_grow bytes data

theorem next_change (hreal : s.Real) (hproper : s.Proper e) : Change s e (s.next e) := by
  cases e with
  | allocate bytes allocated =>
      refine change_of_answers hreal.free (fun data h => ?_)
        (s.pool.allocate_answers bytes allocated) (List.Perm.refl _)
      subst h
      exact ⟨fun h0 => hproper (congrArg some h0), rfl⟩
  | blocking bytes cancel allocated =>
      refine change_of_answers hreal.free (fun data h => ?_)
        (s.pool.blockingTurn_answers bytes allocated cancel) (List.Perm.refl _)
      subst h
      exact ⟨fun h0 => hproper (congrArg some h0), rfl⟩
  | release buf =>
      by_cases hnull : buf.null
      · have hout : s.outstanding.erase buf = s.outstanding :=
          List.erase_of_not_mem fun hmem => hreal.out buf hmem hnull
        exact .same (StagingPool.release_null hnull) (hout ▸ List.Perm.refl _)
      · exact .released buf hnull rfl (List.perm_cons_erase (hproper.resolve_left hnull))
  | drain => exact .drained rfl hproper rfl hproper

theorem Change.real (h : Change s e t) (hreal : s.Real) : t.Real := by
  have hmore : ∀ b : StagingBuffer, ¬ b.null → List.Perm t.outstanding (b :: s.outstanding) →
      ∀ x ∈ t.outstanding, ¬ x.null := by
    intro b hb hout x hx
    rcases List.mem_cons.mp (hout.mem_iff.mp hx) with rfl | hx
    · exact hb
    · exact hreal.out x hx
  cases h with
  | same hpool hout =>
      exact ⟨hpool ▸ hreal.free, fun b hb => hreal.out b (hout.mem_iff.mp hb)⟩
  | reused b hb hfree halloc huse hcap hhigh hout =>
      exact ⟨fun f hf => hreal.free f (hfree.mem_iff.mpr (.tail _ hf)), hmore b hb hout⟩
  | grown b hb hgrant hfits hpool hout =>
      exact ⟨fun f hf => hreal.free f (hpool.freeList ▸ hf), hmore b hb hout⟩
  | released b hb hpool hout =>
      refine ⟨fun f hf => ?_, fun x hx => hreal.out x (hout.mem_iff.mpr (.tail _ hx))⟩
      rw [hpool, StagingPool.release_of_not_null hb, List.mem_append, List.mem_singleton] at hf
      rcases hf with hf | rfl
      · exact hreal.free f hf
      · exact fun h0 => hb (.inl h0)
  | drained he hnone hpool hout =>
      constructor
      · intro f hf
        rw [hpool] at hf
        cases hf
      · intro b hb
        rw [hout] at hb
        cases hb

/-! The blocks and the books. -/

/-- A step keeps the blocks there are, adds the one the allocator gave, or frees all. -/
inductive Stock (s : PoolHistory) (e : PoolEvent) (t : PoolHistory) : Prop
  | same (hblocks : List.Perm t.blocks s.blocks)
      (halloc : t.pool.allocatedBytes = s.pool.allocatedBytes)
  | more (bytes : ByteCount) (data : Address) (hgrant : (bytes, data) ∈ e.grant)
      (hfits : s.pool.allocatedBytes + bytes ≤ s.pool.capacityBytes)
      (hblocks : List.Perm t.blocks ((bytes, data) :: s.blocks))
      (halloc : t.pool.allocatedBytes = s.pool.allocatedBytes + bytes)
  | none (he : e = .drain) (hblocks : t.blocks = []) (halloc : t.pool.allocatedBytes = 0)

theorem Change.stock (h : Change s e t) : Stock s e t := by
  cases h with
  | same hpool hout =>
      refine .same ?_ (hpool ▸ rfl)
      unfold blocks
      rw [hpool]
      exact (hout.map _).append_left _
  | reused b hb hfree halloc huse hcap hhigh hout =>
      refine .same ?_ halloc
      refine ((hout.map StagingBuffer.block).append_left _).trans (List.Perm.trans ?_ (hfree.append_right _).symm)
      exact List.perm_middle
  | grown b hb hgrant hfits hpool hout =>
      refine .more b.size b.data hgrant hfits ?_ hpool.allocatedBytes
      unfold blocks
      rw [hpool.freeList]
      exact ((hout.map StagingBuffer.block).append_left _).trans List.perm_middle
  | released b hb hpool hout =>
      refine .same ?_ (by rw [hpool, StagingPool.release_of_not_null hb])
      unfold blocks
      rw [hpool, StagingPool.release_of_not_null hb, List.append_assoc]
      exact ((hout.map StagingBuffer.block).append_left _).symm
  | drained he hnone hpool hout =>
      refine .none he ?_ (hpool ▸ rfl)
      unfold blocks
      rw [hpool, hout]
      rfl

theorem bytesOf_append (l l' : List (ByteCount × Address)) :
    bytesOf (l ++ l') = bytesOf l + bytesOf l' := by
  simp [bytesOf]

theorem bytesOf_perm {l l' : List (ByteCount × Address)} (h : List.Perm l l') :
    bytesOf l = bytesOf l' := by
  have hperm := h.map fun f => f.1.toNat
  exact hperm.sum_eq

theorem live_eq (s : PoolHistory) : s.live = bytesOf s.blocks := (bytesOf_append _ _).symm

theorem outBytes_cons {b : StagingBuffer} (h : List.Perm t.outstanding (b :: s.outstanding)) :
    t.outBytes = b.size.toNat + s.outBytes := bytesOf_perm (h.map StagingBuffer.block)

theorem Stock.distinct (h : Stock s e t)
    (hnew : ∀ bytes data, (bytes, data) ∈ e.grant → data ∉ s.addresses) (hs : s.addresses.Nodup) :
    t.addresses.Nodup := by
  unfold addresses at *
  cases h with
  | same hblocks halloc => exact (hblocks.map Prod.snd).nodup_iff.mpr hs
  | more bytes data hgrant hfits hblocks halloc =>
      refine (hblocks.map Prod.snd).nodup_iff.mpr ?_
      exact List.nodup_cons.mpr ⟨hnew bytes data hgrant, hs⟩
  | none he hblocks halloc =>
      rw [hblocks]
      exact List.nodup_nil

theorem Stock.live_lt (h : Stock s e t) (hsound : s.AllocatorSound e) (hs : s.live < 2 ^ 63) :
    t.live < 2 ^ 63 := by
  rw [live_eq] at *
  cases h with
  | same hblocks halloc => rwa [bytesOf_perm hblocks]
  | more bytes data hgrant hfits hblocks halloc =>
      have hgranted := (hsound bytes data hgrant).2
      rw [bytesOf_perm hblocks, Nat.add_comm] at *
      rwa [live_eq] at hgranted
  | none he hblocks halloc =>
      rw [hblocks]
      exact Nat.two_pow_pos 63

theorem Stock.bounded (h : Stock s e t) (hs : s.pool.allocatedBytes ≤ s.pool.capacityBytes) :
    t.pool.allocatedBytes ≤ s.pool.capacityBytes := by
  cases h with
  | same hblocks halloc => rwa [halloc]
  | more bytes data hgrant hfits hblocks halloc => rwa [halloc]
  | none he hblocks halloc =>
      rw [halloc]
      exact UInt64.le_iff_toNat_le.mpr (Nat.zero_le _)

/-- The usage moves with what is out, modulo 2^64. -/
theorem Change.usage (h : Change s e t) :
    (t.pool.usage.toNat + s.outBytes) % 2 ^ 64 = (s.pool.usage.toNat + t.outBytes) % 2 ^ 64 ∨
      e = .drain ∧ t.pool.usage = 0 ∧ t.outstanding = [] := by
  unfold StagingPool.usage
  cases h with
  | same hpool hout =>
      left
      rw [hpool, outBytes, outBytes, bytesOf_perm (hout.map _)]
  | reused b hb hfree halloc huse hcap hhigh hout =>
      left
      rw [huse, UInt64.toNat_add, outBytes_cons hout]
      omega
  | grown b hb hgrant hfits hpool hout =>
      left
      rw [hpool.inUse, UInt64.toNat_add, outBytes_cons hout]
      omega
  | released b hb hpool hout =>
      left
      have hsize := b.size.toNat_lt
      rw [hpool, StagingPool.release_of_not_null hb, outBytes_cons hout, UInt64.toNat_sub]
      omega
  | drained he hnone hpool hout => exact .inr ⟨he, hpool ▸ rfl, hout⟩

/-- The counters are the sums of the sizes, modulo 2^64. -/
structure Booked (s : PoolHistory) : Prop where
  allocated : s.pool.allocatedBytes.toNat = s.live % 2 ^ 64
  used : s.pool.usage.toNat = s.outBytes % 2 ^ 64

theorem Stock.allocated (h : Stock s e t) (hs : s.pool.allocatedBytes.toNat = s.live % 2 ^ 64) :
    t.pool.allocatedBytes.toNat = t.live % 2 ^ 64 := by
  rw [live_eq] at *
  cases h with
  | same hblocks halloc => rw [halloc, hs, bytesOf_perm hblocks]
  | more bytes data hgrant hfits hblocks halloc =>
      have hsum : bytesOf ((bytes, data) :: s.blocks) = bytes.toNat + bytesOf s.blocks := rfl
      rw [halloc, UInt64.toNat_add, hs, bytesOf_perm hblocks, hsum]
      omega
  | none he hblocks halloc =>
      rw [halloc, hblocks]
      rfl

theorem Change.booked (h : Change s e t) (hs : s.Booked) : t.Booked := by
  refine ⟨h.stock.allocated hs.allocated, ?_⟩
  have hused := hs.used
  have hlt := t.pool.usage.toNat_lt
  rcases h.usage with hmoved | ⟨-, hzero, hout⟩
  · omega
  · rw [hzero, outBytes, hout]
    rfl

theorem Change.capacity (h : Change s e t) : t.pool.capacityBytes = s.pool.capacityBytes := by
  cases h with
  | same hpool hout => rw [hpool]
  | reused b hb hfree halloc huse hcap hhigh hout => exact hcap
  | grown b hb hgrant hfits hpool hout => exact hpool.capacityBytes
  | released b hb hpool hout => rw [hpool, StagingPool.release_of_not_null hb]
  | drained he hnone hpool hout => rw [hpool]; rfl

/-- The mark is what it was or the new level, whichever is higher. -/
theorem Change.highWater (h : Change s e t)
    (hs : s.pool.allocatedBytes.toNat ≤ s.pool.highWater.toNat) :
    t.pool.highWater.toNat = max s.pool.highWater.toNat t.pool.allocatedBytes.toNat := by
  cases h with
  | same hpool hout =>
      rw [hpool]
      exact (Nat.max_eq_left hs).symm
  | reused b hb hfree halloc huse hcap hhigh hout =>
      rw [hhigh, halloc]
      exact (Nat.max_eq_left hs).symm
  | grown b hb hgrant hfits hpool hout => exact hpool.highWater
  | released b hb hpool hout =>
      rw [hpool, StagingPool.release_of_not_null hb]
      exact (Nat.max_eq_left hs).symm
  | drained he hnone hpool hout =>
      rw [hpool]
      exact (Nat.max_eq_left (Nat.zero_le _)).symm

/-! Whole histories. -/

/-- The state after a sequence of critical sections on a new pool. -/
def after (capacity : ByteCount) (es : List PoolEvent) : PoolHistory := es.foldl next (fresh capacity)

/-- Each critical section with the state it meets. -/
def steps (capacity : ByteCount) (es : List PoolEvent) : List (PoolHistory × PoolEvent) :=
  trace next (fresh capacity) es

theorem fresh_real (capacity : ByteCount) : (fresh capacity).Real :=
  ⟨fun f hf => (by cases hf), fun b hb => (by cases hb)⟩

theorem after_booked {capacity : ByteCount} {es : List PoolEvent}
    (hproper : ∀ x ∈ steps capacity es, x.1.Proper x.2) :
    (after capacity es).Booked ∧ (after capacity es).pool.capacityBytes = capacity := by
  have hinv := foldl_invariant
    (fun s => s.Real ∧ s.Booked ∧ s.pool.capacityBytes = capacity) Proper
    (fun s e hs hproper => by
      have h := next_change hs.1 hproper
      exact ⟨h.real hs.1, h.booked hs.2.1, h.capacity.trans hs.2.2⟩)
    ⟨fresh_real capacity, ⟨rfl, rfl⟩, rfl⟩ hproper
  exact hinv.2

/-- What every step of a proper history with a sound allocator keeps. -/
structure Kept (capacity : ByteCount) (s : PoolHistory) : Prop where
  real : s.Real
  booked : s.Booked
  sized : s.pool.capacityBytes = capacity
  small : s.live < 2 ^ 63
  bounded : s.pool.allocatedBytes ≤ capacity
  marked : s.pool.allocatedBytes.toNat ≤ s.pool.highWater.toNat
  distinct : s.addresses.Nodup

theorem kept_fresh (capacity : ByteCount) : Kept capacity (fresh capacity) where
  real := fresh_real capacity
  booked := ⟨rfl, rfl⟩
  sized := rfl
  small := Nat.two_pow_pos 63
  bounded := UInt64.le_iff_toNat_le.mpr (Nat.zero_le _)
  marked := Nat.le_refl 0
  distinct := List.nodup_nil

theorem Kept.next {capacity : ByteCount} (hs : Kept capacity s) (hproper : s.Proper e)
    (hsound : s.AllocatorSound e) : Kept capacity (s.next e) := by
  have h := next_change hs.real hproper
  refine ⟨h.real hs.real, h.booked hs.booked, h.capacity.trans hs.sized, h.stock.live_lt hsound hs.small,
    ?_, ?_, h.stock.distinct (fun n d hg => (hsound n d hg).1) hs.distinct⟩
  · have hbound := h.stock.bounded (hs.sized ▸ hs.bounded)
    rwa [hs.sized] at hbound
  · rw [h.highWater hs.marked]
    exact Nat.le_max_right _ _

/-- The books are right as numbers, the bytes are bounded, and no block is out twice or
out and free. -/
structure Sound (capacity : ByteCount) (s : PoolHistory) : Prop where
  counted : s.pool.allocatedBytes.toNat = bytesOf s.pool.freeList + s.outBytes
  used : s.pool.usage.toNat = s.outBytes
  bounded : s.pool.allocatedBytes ≤ capacity
  distinct : s.addresses.Nodup

theorem Kept.sound {capacity : ByteCount} (h : Kept capacity s) : Sound capacity s := by
  have hsmall := h.small
  have hallocated := h.booked.allocated
  have hused := h.booked.used
  unfold live at hsmall hallocated
  refine ⟨?_, ?_, h.bounded, h.distinct⟩
  · rwa [Nat.mod_eq_of_lt (by omega)] at hallocated
  · rwa [Nat.mod_eq_of_lt (by omega)] at hused

/-- A buffer that is returned has the size asked for, and a call that fails changes nothing.
For `allocate_blocking` the empty buffer is a failure, and so is going on to wait. -/
def Exact (s : PoolHistory) : PoolEvent → Prop
  | .allocate bytes allocated =>
      (∀ b, (s.pool.allocate bytes allocated).1 = some b → b.size = bytes) ∧
      ((s.pool.allocate bytes allocated).1 = none → (s.pool.allocate bytes allocated).2 = s.pool)
  | .blocking bytes cancel allocated =>
      (∀ b, (s.pool.blockingTurn bytes cancel allocated).1 = some b →
        b.size = bytes ∨ b = {} ∧ (s.pool.blockingTurn bytes cancel allocated).2 = s.pool) ∧
      ((s.pool.blockingTurn bytes cancel allocated).1 = none →
        (s.pool.blockingTurn bytes cancel allocated).2 = s.pool)
  | .release _ => True
  | .drain => True

theorem answers_exact {bytes : ByteCount} {allocated : Option Address} {b : Option StagingBuffer}
    {p p' : StagingPool} (h : p.Answers bytes allocated b p') :
    (∀ x, b = some x → x.size = bytes ∨ x = {} ∧ p' = p) ∧ (b = none → p' = p) := by
  cases h with
  | same hb => exact ⟨fun x hx => .inr ⟨hb x hx, rfl⟩, fun _ => rfl⟩
  | reused data hne hfree hrest =>
      refine ⟨fun x hx => .inl ?_, fun hx => by cases hx⟩
      rw [← Option.some.inj hx]
      rfl
  | grown data hne hfits hdata =>
      refine ⟨fun x hx => .inl ?_, fun hx => by cases hx⟩
      rw [← Option.some.inj hx]
      rfl

theorem exact_step (s : PoolHistory) (e : PoolEvent) : s.Exact e := by
  cases e with
  | allocate bytes allocated =>
      exact ⟨fun b hb => StagingPool.allocate_size hb,
        (answers_exact (s.pool.allocate_answers bytes allocated)).2⟩
  | blocking bytes cancel allocated =>
      exact answers_exact (s.pool.blockingTurn_answers bytes allocated cancel)
  | release buf => trivial
  | drain => trivial

theorem kept_after {capacity : ByteCount} {es : List PoolEvent}
    (hproper : ∀ x ∈ steps capacity es, x.1.Proper x.2)
    (hsound : ∀ x ∈ steps capacity es, x.1.AllocatorSound x.2) : Kept capacity (after capacity es) :=
  foldl_invariant (Kept capacity) (fun s e => s.Proper e ∧ s.AllocatorSound e)
    (fun _ _ hs h => hs.next h.1 h.2) (kept_fresh capacity) fun x hx => ⟨hproper x hx, hsound x hx⟩

/-- The mark is the highest level there has been. -/
structure Peak (capacity : ByteCount) (es : List PoolEvent) : Prop where
  above : ∀ es', es' <+: es →
    (after capacity es').pool.allocatedBytes ≤ (after capacity es).pool.highWater
  reached : ∃ es', es' <+: es ∧
    (after capacity es').pool.allocatedBytes = (after capacity es).pool.highWater

theorem peak_after {capacity : ByteCount} {es : List PoolEvent}
    (hproper : ∀ x ∈ steps capacity es, x.1.Proper x.2)
    (hsound : ∀ x ∈ steps capacity es, x.1.AllocatorSound x.2) : Peak capacity es := by
  induction es using List.reverseRecOn with
  | nil =>
      refine ⟨fun es' hes => ?_, [], List.prefix_refl _, rfl⟩
      rw [List.prefix_nil.mp hes]
      exact UInt64.le_iff_toNat_le.mpr (Nat.le_refl 0)
  | append_singleton es e ih =>
      have hsteps : steps capacity (es ++ [e]) = steps capacity es ++ [(after capacity es, e)] :=
        trace_append next _ es [e]
      have hafter : after capacity (es ++ [e]) = (after capacity es).next e := List.foldl_concat ..
      rw [hsteps] at hproper hsound
      have hproper' := List.forall_mem_append.mp hproper
      have hsound' := List.forall_mem_append.mp hsound
      obtain ⟨habove, es₀, hes₀, hreached⟩ := ih hproper'.1 hsound'.1
      have hkept := kept_after hproper'.1 hsound'.1
      have hchange := next_change hkept.real (hproper'.2 _ (List.mem_singleton_self _))
      have hmark := hchange.highWater hkept.marked
      rw [← hafter] at hmark
      refine ⟨fun es' hes => ?_, ?_⟩
      · rw [UInt64.le_iff_toNat_le, hmark]
        rcases List.prefix_concat_iff.mp hes with rfl | hes
        · exact Nat.le_max_right _ _
        · exact Nat.le_trans (UInt64.le_iff_toNat_le.mp (habove es' hes)) (Nat.le_max_left _ _)
      · -- the mark stays where it was or moves to the new level
        rcases Nat.le_total (after capacity (es ++ [e])).pool.allocatedBytes.toNat
            (after capacity es).pool.highWater.toNat with hle | hle
        · refine ⟨es₀, hes₀.trans (List.prefix_append _ _), UInt64.toNat_inj.mp ?_⟩
          rw [hmark, Nat.max_eq_left hle, hreached]
        · refine ⟨es ++ [e], List.prefix_refl _, UInt64.toNat_inj.mp ?_⟩
          rw [hmark, Nat.max_eq_right hle]

theorem pool_invariant (capacity : ByteCount) (es : List PoolEvent)
    (hproper : ∀ x ∈ steps capacity es, x.1.Proper x.2)
    (hsound : ∀ x ∈ steps capacity es, x.1.AllocatorSound x.2) :
    Sound capacity (after capacity es) ∧ Peak capacity es ∧
      ∀ x ∈ steps capacity es, x.1.Exact x.2 :=
  ⟨(kept_after hproper hsound).sound, peak_after hproper hsound, fun x _ => exact_step x.1 x.2⟩

def firstBlock : StagingBuffer := { data := 4096, size := 1024, token := 1024 }

/-- A block is obtained, a request too large refused, the block reused and the pool drained. -/
def reuseAndDrain : List PoolEvent :=
  [.allocate 1024 (some 4096), .allocate 4096 (some 8192), .release firstBlock,
   .blocking 1024 false (some 8192), .release { firstBlock with token := 0 }, .drain]

theorem reuseAndDrain_sound : (∀ x ∈ steps 4096 reuseAndDrain, x.1.Proper x.2 ∧ x.1.AllocatorSound x.2) ∧
    Sound 4096 (after 4096 reuseAndDrain) ∧ Peak 4096 reuseAndDrain ∧
      ∀ x ∈ steps 4096 reuseAndDrain, x.1.Exact x.2 :=
  ⟨by decide +kernel, pool_invariant 4096 reuseAndDrain (by decide +kernel) (by decide +kernel)⟩

/-! An idle pool. -/

theorem allocate_isSome_iff (p : StagingPool) {bytes : ByteCount} (hne : bytes ≠ 0) (data : Address) :
    (p.allocate bytes (some data)).1.isSome = true ↔
      bytes ∈ p.freeList.map Prod.fst ∨ p.allocatedBytes + bytes ≤ p.capacityBytes := by
  have hfree : bytes ∈ p.freeList.map Prod.fst ↔
      (p.freeList.find? fun f => f.1 = bytes).isSome = true := by
    simp [List.find?_isSome]
  unfold StagingPool.allocate
  rw [if_neg hne, hfree]
  cases p.freeList.find? (fun f => f.1 = bytes) with
  | some f => exact iff_of_true rfl (.inl rfl)
  | none =>
      dsimp only
      rw [← UInt64.not_lt]
      split_ifs with hfull
      · exact iff_of_false Bool.false_ne_true (by simp [hfull])
      · exact iff_of_true rfl (.inr hfull)

theorem idle_serves_iff (capacity : ByteCount) (es : List PoolEvent)
    (hproper : ∀ x ∈ steps capacity es, x.1.Proper x.2)
    (hidle : (after capacity es).pool.usage = 0) (bytes : ByteCount) (hpos : 0 < bytes)
    (data : Address) :
    ((after capacity es).pool.allocate bytes (some data)).1.isSome = true ↔
      bytes ∈ (after capacity es).pool.freeList.map Prod.fst ∨
        (bytesOf (after capacity es).pool.freeList + bytes.toNat) % 2 ^ 64 ≤ capacity.toNat := by
  obtain ⟨hbooked, hcapacity⟩ := after_booked hproper
  have hne : bytes ≠ 0 := fun h => UInt64.lt_irrefl _ (h ▸ hpos)
  have hallocated := hbooked.allocated
  have hused := hbooked.used
  rw [hidle] at hused
  have hzero : (after capacity es).outBytes % 2 ^ 64 = 0 := hused.symm
  rw [allocate_isSome_iff _ hne, hcapacity, UInt64.le_iff_toNat_le, UInt64.toNat_add, hallocated,
    live]
  -- what is out adds up to nothing modulo 2^64
  have hsum : ((bytesOf (after capacity es).pool.freeList +
      (after capacity es).outBytes) % 2 ^ 64 + bytes.toNat) % 2 ^ 64 =
        (bytesOf (after capacity es).pool.freeList + bytes.toNat) % 2 ^ 64 := by
    omega
  rw [hsum]

def sixty : List PoolEvent :=
  [.allocate 60 (some 4096), .release { data := 4096, size := 60, token := 60 }]

theorem idle_serves_forty : (after 100 sixty).pool.usage = 0 ∧
    ((after 100 sixty).pool.allocate 40 (some 8192)).1.isSome = true :=
  ⟨by decide, (idle_serves_iff 100 sixty (by decide +kernel) (by decide) 40 (by decide) 8192).mpr
    (by decide)⟩

/-- Nothing is out, and 50 of 100 bytes are refused. -/
theorem idle_refuses_fifty : (∀ x ∈ steps 100 sixty, x.1.Proper x.2) ∧
    (after 100 sixty).pool.usage = 0 ∧
    ((after 100 sixty).pool.allocate 50 (some 8192)).1 = none := by
  decide +kernel

end PoolHistory

end TransferFabric
