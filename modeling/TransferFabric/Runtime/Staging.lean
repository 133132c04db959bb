import TransferFabric.Core.Types

/-!
The staging pool: a free list keyed by exact size in front of an allocator,
with a byte bound. Every operation is one critical section. The allocator's
answer is a parameter of `allocate`; it is consulted only when no free block
has the requested size and the bound allows a new one.
-/

namespace TransferFabric

structure StagingBuffer where
  data : Address := 0
  size : ByteCount := 0
  token : UInt64 := 0
  deriving DecidableEq, Repr

/-- A buffer that `release` ignores. -/
def StagingBuffer.null (b : StagingBuffer) : Prop := b.data = 0 ∨ b.size = 0

instance (b : StagingBuffer) : Decidable b.null := inferInstanceAs (Decidable (_ ∨ _))

/-- The memory a buffer stands for, as the free list knows it. -/
def StagingBuffer.block (b : StagingBuffer) : ByteCount × Address := (b.size, b.data)

structure StagingPool where
  capacityBytes : ByteCount := 0
  inUse : ByteCount := 0
  allocatedBytes : ByteCount := 0
  highWater : UInt64 := 0
  reuseCount : UInt64 := 0
  totalAllocs : UInt64 := 0
  freeList : List (ByteCount × Address) := []
  deriving DecidableEq, Repr

namespace StagingPool

def usage (p : StagingPool) : ByteCount := p.inUse

def adjustHighWater (p : StagingPool) : StagingPool :=
  if p.allocatedBytes > p.highWater then { p with highWater := p.allocatedBytes } else p

/-- Exact-size reuse: the first free block of the size leaves the list. -/
def reuse (p : StagingPool) (bytes : ByteCount) (data : Address) : StagingBuffer × StagingPool :=
  ({ data, size := bytes, token := 0 },
    { p with
      freeList := p.freeList.eraseP (fun f => f.1 = bytes)
      inUse := p.inUse + bytes
      reuseCount := p.reuseCount + 1 })

/-- A new block from the allocator. -/
def grow (p : StagingPool) (bytes : ByteCount) (data : Address) : StagingBuffer × StagingPool :=
  let p := { p with allocatedBytes := p.allocatedBytes + bytes }
  let p := p.adjustHighWater
  let p := { p with totalAllocs := p.totalAllocs + 1, inUse := p.inUse + bytes }
  ({ data, size := bytes, token := p.allocatedBytes }, p)

/-- `allocated` is what the allocator answers if it is asked. -/
def allocate (p : StagingPool) (bytes : ByteCount) (allocated : Option Address) :
    Option StagingBuffer × StagingPool :=
  if bytes = 0 then (some {}, p)
  else
    match p.freeList.find? (fun f => f.1 = bytes) with
    | some f =>
        let (b, p) := p.reuse bytes f.2
        (some b, p)
    | none =>
        if p.allocatedBytes + bytes > p.capacityBytes then (none, p)
        else
          match allocated with
          | none => (none, p)
          | some data =>
              let (b, p) := p.grow bytes data
              (some b, p)

/-- One turn of the loop of `allocate_blocking`, between taking the lock and giving
it up: without a buffer the call goes on to wait. A cancelled call and one that the
allocator fails return the empty buffer. -/
def blockingTurn (p : StagingPool) (bytes : ByteCount) (cancel : Bool)
    (allocated : Option Address) : Option StagingBuffer × StagingPool :=
  if bytes = 0 then (some {}, p)
  else if cancel then (some {}, p)
  else
    match p.freeList.find? (fun f => f.1 = bytes) with
    | some f =>
        let (b, p) := p.reuse bytes f.2
        (some b, p)
    | none =>
        if p.allocatedBytes + bytes ≤ p.capacityBytes then
          match allocated with
          | none => (some {}, p)
          | some data =>
              let (b, p) := p.grow bytes data
              (some b, p)
        else (none, p)

def release (p : StagingPool) (buf : StagingBuffer) : StagingPool :=
  if buf.data = 0 ∨ buf.size = 0 then p
  else { p with inUse := p.inUse - buf.size, freeList := p.freeList ++ [(buf.size, buf.data)] }

/-- Everything on the free list goes back to the allocator. -/
def drain (p : StagingPool) : StagingPool :=
  { p with freeList := [], allocatedBytes := 0, inUse := 0 }

theorem release_null {p : StagingPool} {buf : StagingBuffer} (h : buf.null) :
    p.release buf = p := if_pos h

theorem release_of_not_null {p : StagingPool} {buf : StagingBuffer} (h : ¬ buf.null) :
    p.release buf =
      { p with inUse := p.inUse - buf.size, freeList := p.freeList ++ [(buf.size, buf.data)] } :=
  if_neg h

/-- What a new block changes of the pool's books. -/
structure Grows (p p' : StagingPool) (bytes : ByteCount) : Prop where
  freeList : p'.freeList = p.freeList
  capacityBytes : p'.capacityBytes = p.capacityBytes
  allocatedBytes : p'.allocatedBytes = p.allocatedBytes + bytes
  inUse : p'.inUse = p.inUse + bytes
  highWater : p'.highWater.toNat = max p.highWater.toNat p'.allocatedBytes.toNat

theorem grows_grow (p : StagingPool) (bytes : ByteCount) (data : Address) :
    Grows p (p.grow bytes data).2 bytes := by
  unfold grow adjustHighWater
  dsimp only
  split_ifs with hlt
  · exact ⟨rfl, rfl, rfl, rfl, (Nat.max_eq_right (Nat.le_of_lt (UInt64.lt_iff_toNat_lt.mp hlt))).symm⟩
  · exact ⟨rfl, rfl, rfl, rfl, (Nat.max_eq_left (UInt64.le_iff_toNat_le.mp (UInt64.not_lt.mp hlt))).symm⟩

/-! What obtaining a buffer can do. -/

theorem perm_find_eraseP {α : Type} {p : α → Bool} {l : List α} {a : α} (h : l.find? p = some a) :
    List.Perm l (a :: l.eraseP p) := by
  induction l with
  | nil => cases h
  | cons b l ih =>
      by_cases hb : p b = true
      · rw [List.find?_cons_of_pos hb] at h
        obtain rfl := Option.some.inj h
        rw [List.eraseP_cons_of_pos hb]
      · rw [List.find?_cons_of_neg hb] at h
        rw [List.eraseP_cons_of_neg hb]
        exact ((ih h).cons b).trans (List.Perm.swap a b _)

/-- The pool `p` answers a request with `b` and becomes `p'`: it is left alone, it
gives a free block away, or it has grown by a new one. -/
inductive Answers (p : StagingPool) (bytes : ByteCount) (allocated : Option Address) :
    Option StagingBuffer → StagingPool → Prop
  | same {b : Option StagingBuffer} (hb : ∀ x, b = some x → x = {}) : Answers p bytes allocated b p
  | reused (data : Address) (hne : bytes ≠ 0) (hfree : (bytes, data) ∈ p.freeList)
      (hrest : List.Perm p.freeList ((bytes, data) :: (p.reuse bytes data).2.freeList)) :
      Answers p bytes allocated (some (p.reuse bytes data).1) (p.reuse bytes data).2
  | grown (data : Address) (hne : bytes ≠ 0) (hfits : p.allocatedBytes + bytes ≤ p.capacityBytes)
      (hdata : allocated = some data) :
      Answers p bytes allocated (some (p.grow bytes data).1) (p.grow bytes data).2

variable {p : StagingPool} {bytes : ByteCount} {allocated : Option Address}

theorem answers_reused {f : ByteCount × Address} (hne : bytes ≠ 0)
    (hfind : p.freeList.find? (fun f => f.1 = bytes) = some f) :
    Answers p bytes allocated (some (p.reuse bytes f.2).1) (p.reuse bytes f.2).2 := by
  have hsize : f.1 = bytes := by simpa using List.find?_some hfind
  have hf : f = (bytes, f.2) := by rw [← hsize]
  have hperm := perm_find_eraseP hfind
  have hmem := List.mem_of_find?_eq_some hfind
  rw [hf] at hmem hperm
  exact .reused f.2 hne hmem hperm

variable (p bytes allocated) in
theorem allocate_answers :
    Answers p bytes allocated (p.allocate bytes allocated).1 (p.allocate bytes allocated).2 := by
  unfold allocate
  by_cases hne : bytes = 0
  · rw [if_pos hne]
    exact .same fun x hx => (Option.some.inj hx).symm
  rw [if_neg hne]
  cases hfind : p.freeList.find? (fun f => f.1 = bytes) with
  | some f => exact answers_reused hne hfind
  | none =>
      dsimp only
      by_cases hfull : p.allocatedBytes + bytes > p.capacityBytes
      · rw [if_pos hfull]
        exact .same fun x hx => by cases hx
      rw [if_neg hfull]
      cases allocated with
      | none => exact .same fun x hx => by cases hx
      | some data => exact .grown data hne (UInt64.not_lt.mp hfull) rfl

/-- What was obtained says what the allocator answered, as far as it was asked. -/
theorem allocate_data {b : StagingBuffer} (h : (p.allocate bytes allocated).1 = some b) :
    p.allocate bytes (some b.data) = p.allocate bytes allocated := by
  unfold allocate at h ⊢
  by_cases hne : bytes = 0
  · rw [if_pos hne, if_pos hne]
  rw [if_neg hne] at h ⊢
  rw [if_neg hne]
  cases hfind : p.freeList.find? (fun f => f.1 = bytes) with
  | some f => rfl
  | none =>
      rw [hfind] at h
      dsimp only at h ⊢
      split_ifs at h ⊢
      cases allocated with
      | none => cases h
      | some data =>
          obtain rfl := Option.some.inj h
          rfl

theorem allocate_size {b : StagingBuffer} (h : (p.allocate bytes allocated).1 = some b) :
    b.size = bytes := by
  unfold allocate at h
  by_cases hne : bytes = 0
  · rw [if_pos hne] at h
    rw [← Option.some.inj h, hne]
  rw [if_neg hne] at h
  cases hfind : p.freeList.find? (fun f => f.1 = bytes) with
  | some f =>
      rw [hfind] at h
      rw [← Option.some.inj h]
      rfl
  | none =>
      rw [hfind] at h
      dsimp only at h
      split_ifs at h
      cases allocated with
      | none => cases h
      | some data =>
          rw [← Option.some.inj h]
          rfl

variable (p bytes allocated) in
theorem blockingTurn_answers (cancel : Bool) :
    Answers p bytes allocated (p.blockingTurn bytes cancel allocated).1
      (p.blockingTurn bytes cancel allocated).2 := by
  have hempty : Answers p bytes allocated (some {}) p := .same fun x hx => (Option.some.inj hx).symm
  unfold blockingTurn
  by_cases hne : bytes = 0
  · rw [if_pos hne]
    exact hempty
  rw [if_neg hne]
  cases cancel with
  | true => exact hempty
  | false =>
      cases hfind : p.freeList.find? (fun f => f.1 = bytes) with
      | some f => exact answers_reused hne hfind
      | none =>
          dsimp only
          by_cases hfits : p.allocatedBytes + bytes ≤ p.capacityBytes
          · rw [if_neg Bool.false_ne_true, if_pos hfits]
            cases allocated with
            | none => exact hempty
            | some data => exact .grown data hne hfits rfl
          · rw [if_neg Bool.false_ne_true, if_neg hfits]
            exact .same fun x hx => by cases hx


end StagingPool

/-- The pool a staging node of a domain draws from. -/
def poolFor (d : MemoryDomain) : PoolKind := if d = .hostPinned then .hostPinned else .host

end TransferFabric
