import TransferFabric.Core.Memory
import TransferFabric.Runtime.ExecutorTrace

/-!
Where the executor's copies read and write. Node `0` of a route is the source
endpoint, the last node is the destination, and every node between them is a
ring of staging buffers in which chunk `c` has slot `c % depth`. The regions of
the endpoints are taken as the executor addresses them.

`Layout` collects what a transfer needs of its memory: rings as reservation
leaves them, and no byte shared by the source range, the destination range and
two different buffers.
-/

namespace TransferFabric

open Interaction Memory

def Loc.region (fileOf : Handle → Nat) (l : Loc) : Nat → Cell :=
  if isStorage l.kind then fileBytes fileOf l.obj l.off else memRegion l.ptr

theorem Loc.region_memory {fileOf : Handle → Nat} {l : Loc} {a : Address}
    (hkind : isStorage l.kind = false) (hptr : l.ptr = a) : l.region fileOf = memRegion a := by
  unfold Loc.region
  rw [hkind, hptr]
  rfl

/-- The bytes a copy reads. -/
def CopySpec.source (fileOf : Handle → Nat) (spec : CopySpec) : Nat → Cell :=
  if isStorage spec.srcKind then fileBytes fileOf spec.srcObject spec.srcObjOffset
  else memRegion spec.srcPtr

/-- The bytes a copy writes. -/
def CopySpec.target (fileOf : Handle → Nat) (spec : CopySpec) : Nat → Cell :=
  if isStorage spec.dstKind then fileBytes fileOf spec.dstObject spec.dstObjOffset
  else memRegion spec.dstPtr

theorem endpointLoc_region_add (fileOf : Handle → Nat) (ep : EndpointRecord) (off d : ByteOffset)
    (k : Nat) :
    (endpointLoc ep (off + d)).region fileOf k = (endpointLoc ep off).region fileOf (d.toNat + k) := by
  unfold endpointLoc
  by_cases hs : isStorage ep.desc.kind = true
  · simp only [hs, if_true, Loc.region]
    exact fileBytes_add fileOf _ off d k
  · simp only [hs, if_false, Loc.region, Bool.false_eq_true]
    rw [← UInt64.add_assoc, memRegion_add]

theorem Loc.region_inj {fileOf : Handle → Nat} {l : Loc} {j k : Nat} (hj : j < 2 ^ 64)
    (hk : k < 2 ^ 64) (h : l.region fileOf j = l.region fileOf k) : j = k := by
  unfold Loc.region at h
  split at h
  · exact fileBytes_inj hj hk h
  · exact memRegion_inj hj hk h

namespace RunContext

variable {ctx : RunContext}

/-- Every staging node holds `depth` buffers of the chunk size, as reservation leaves them. -/
def Reserved (ctx : RunContext) : Prop :=
  ∀ j, ctx.Staged j → (ctx.ring j).bufs.length = ctx.depth ∧
    ∀ b ∈ (ctx.ring j).bufs, b.size = ctx.plan.chunkSize

/-- The ledger entry of chunk `c`'s asynchronous copy. -/
def entry (ctx : RunContext) (c : Nat) : Nat × CopySpec :=
  (c % ctx.depth, ctx.finalSpec (ctx.plan.chunkOf c))

theorem nnodes_eq (hlegs : ctx.legs ≠ []) : ctx.nnodes = ctx.nlegs + 1 :=
  Route.length_nodes _ hlegs

theorem chunkOf_slot (ctx : RunContext) {c : Nat} (hc : c < ctx.count) :
    ctx.slot (ctx.plan.chunkOf c) = c % ctx.depth := by
  have := ctx.plan.chunkCount.toNat_lt
  unfold count at hc
  simp only [slot, ChunkPlan.chunkOf]
  rw [toNat_ofNat_lt c (by omega)]

theorem covers (ctx : RunContext) {c : Nat} (hc : c < ctx.count) : ctx.plan.Covers := by
  have hcount : ctx.plan.chunkCount ≠ 0 := by
    rw [← toNat_ne_zero]
    unfold count at hc
    omega
  have built := ctx.record.chunkPlan.built
  exact built.covers (built.total_ne_zero hcount)

theorem chunkOf_length (ctx : RunContext) (c : Nat) :
    (ctx.plan.chunkOf c).length.toNat = ctx.plan.chunkLength c := by
  have hle : ctx.plan.chunkLength c ≤ _ := ChunkPlan.chunkLength_le
  have := ctx.plan.chunkSize.toNat_lt
  exact toNat_ofNat_lt _ (by omega)

/-- A slot's index is in bounds for every ring. -/
theorem slot_lt (hres : ctx.Reserved) {j c : Nat} (hj : ctx.Staged j) (hc : c < ctx.count) :
    ctx.slot (ctx.plan.chunkOf c) < (ctx.ring j).bufs.length := by
  rw [(hres j hj).1, ctx.chunkOf_slot hc]
  exact Nat.mod_lt _ ctx.depth_pos

theorem locAt_staged (ctx : RunContext) {j c : Nat} (hj : ctx.Staged j) (hc : c < ctx.count) :
    ctx.locAt j (ctx.plan.chunkOf c) =
      { ptr := ((ctx.ring j).bufs.getD (c % ctx.depth) {}).data
        domain := (ctx.ring j).domain, device := 0, kind := .host } := by
  obtain ⟨hpos, hlast⟩ := hj
  unfold locAt
  rw [if_neg (by omega), if_neg (by omega), ctx.chunkOf_slot hc]

variable {fileOf : Handle → Nat}

/-- The source range, from its first byte. -/
def sourceRegion (ctx : RunContext) (fileOf : Handle → Nat) : Nat → Cell :=
  (endpointLoc ctx.record.srcEp ctx.plan.sourceOffset).region fileOf

def destRegion (ctx : RunContext) (fileOf : Handle → Nat) : Nat → Cell :=
  (endpointLoc ctx.record.dstEp ctx.plan.destOffset).region fileOf

/-- Buffer `s` of the ring at node `j`. -/
def slotRegion (ctx : RunContext) (j s : Nat) : Nat → Cell :=
  memRegion ((ctx.ring j).bufs.getD s {}).data

/-- Where chunk `c` stands at node `j`. -/
def nodeRegion (ctx : RunContext) (fileOf : Handle → Nat) (j c : Nat) : Nat → Cell :=
  (ctx.locAt j (ctx.plan.chunkOf c)).region fileOf

theorem chunk_start (ctx : RunContext) {c : Nat} (hc : c < ctx.count) :
    (UInt64.ofNat (c * ctx.plan.chunkSize.toNat)).toNat = c * ctx.plan.chunkSize.toNat := by
  have := (ctx.covers hc).start_lt hc
  have := ctx.plan.total.toNat_lt
  exact toNat_ofNat_lt _ (by omega)

theorem nodeRegion_source (ctx : RunContext) {c : Nat} (hc : c < ctx.count) (k : Nat) :
    ctx.nodeRegion fileOf 0 c k = ctx.sourceRegion fileOf (c * ctx.plan.chunkSize.toNat + k) := by
  have h := endpointLoc_region_add fileOf ctx.record.srcEp ctx.plan.sourceOffset
    (UInt64.ofNat (c * ctx.plan.chunkSize.toNat)) k
  rw [ctx.chunk_start hc] at h
  exact h

theorem nodeRegion_dest (hlegs : ctx.legs ≠ []) {c : Nat} (hc : c < ctx.count) (k : Nat) :
    ctx.nodeRegion fileOf ctx.nlegs c k =
      ctx.destRegion fileOf (c * ctx.plan.chunkSize.toNat + k) := by
  have hpos : ctx.nlegs ≠ 0 := fun hz => hlegs (List.length_eq_zero_iff.mp hz)
  have h := endpointLoc_region_add fileOf ctx.record.dstEp ctx.plan.destOffset
    (UInt64.ofNat (c * ctx.plan.chunkSize.toNat)) k
  rw [ctx.chunk_start hc] at h
  unfold nodeRegion locAt
  rw [if_neg hpos, if_pos (nnodes_eq hlegs).symm]
  exact h

theorem nodeRegion_staged (ctx : RunContext) {j c : Nat} (hj : ctx.Staged j) (hc : c < ctx.count) :
    ctx.nodeRegion fileOf j c = ctx.slotRegion j (c % ctx.depth) := by
  unfold nodeRegion
  rw [ctx.locAt_staged hj hc]
  rfl

/-- Every node of a route is the source, the destination or a ring. -/
theorem staged_iff (hlegs : ctx.legs ≠ []) (j : Nat) :
    ctx.Staged j ↔ 1 ≤ j ∧ j < ctx.nlegs := by
  unfold Staged
  rw [nnodes_eq hlegs]
  omega

/-- What a transfer assumes of its memory. -/
structure Layout (ctx : RunContext) (fileOf : Handle → Nat) : Prop where
  reserved : ctx.Reserved
  source_dest : ∀ k < ctx.plan.total.toNat, ∀ l < ctx.plan.total.toNat,
    ctx.sourceRegion fileOf k ≠ ctx.destRegion fileOf l
  ring_source : ∀ j, ctx.Staged j → ∀ s < ctx.depth, ∀ k < ctx.plan.chunkSize.toNat,
    ∀ l < ctx.plan.total.toNat, ctx.slotRegion j s k ≠ ctx.sourceRegion fileOf l
  ring_dest : ∀ j, ctx.Staged j → ∀ s < ctx.depth, ∀ k < ctx.plan.chunkSize.toNat,
    ∀ l < ctx.plan.total.toNat, ctx.slotRegion j s k ≠ ctx.destRegion fileOf l
  ring_ring : ∀ i, ctx.Staged i → ∀ j, ctx.Staged j → ∀ s < ctx.depth, ∀ r < ctx.depth,
    ∀ k < ctx.plan.chunkSize.toNat, ∀ l < ctx.plan.chunkSize.toNat,
    ctx.slotRegion i s k = ctx.slotRegion j r l → i = j ∧ s = r

/-- A route of one leg stages nothing. -/
theorem Layout.direct (hnodes : ctx.nnodes = 2)
    (h : ∀ k < ctx.plan.total.toNat, ∀ l < ctx.plan.total.toNat,
      ctx.sourceRegion fileOf k ≠ ctx.destRegion fileOf l) : ctx.Layout fileOf := by
  have hnone : ∀ j, ¬ ctx.Staged j := by
    rintro j ⟨hpos, hlast⟩
    omega
  exact ⟨fun j hj => absurd hj (hnone j), h, fun j hj => absurd hj (hnone j),
    fun j hj => absurd hj (hnone j), fun j hj => absurd hj (hnone j)⟩

/-- A byte that belongs neither to the destination range nor to a ring. -/
structure Outside (ctx : RunContext) (fileOf : Handle → Nat) (cell : Cell) : Prop where
  dest : ∀ k < ctx.plan.total.toNat, cell ≠ ctx.destRegion fileOf k
  ring : ∀ j, ctx.Staged j → ∀ s < ctx.depth, ∀ k < ctx.plan.chunkSize.toNat,
    cell ≠ ctx.slotRegion j s k

section Disjoint

variable {c d k l : Nat}

theorem chunk_byte_lt (ctx : RunContext) (hc : c < ctx.count) (hk : k < ctx.plan.chunkLength c) :
    c * ctx.plan.chunkSize.toNat + k < ctx.plan.total.toNat ∧ k < ctx.plan.chunkSize.toNat := by
  have hend := (ctx.covers hc).end_le hc
  have hle : ctx.plan.chunkLength c ≤ _ := ChunkPlan.chunkLength_le
  omega

/-- A node before the last shares no byte with the destination. -/
theorem Layout.node_ne_dest (h : ctx.Layout fileOf) (hlegs : ctx.legs ≠ []) {j : Nat}
    (hj : j < ctx.nlegs) (hc : c < ctx.count) (hd : d < ctx.count)
    (hk : k < ctx.plan.chunkLength c) (hl : l < ctx.plan.chunkLength d) :
    ctx.nodeRegion fileOf j c k ≠ ctx.nodeRegion fileOf ctx.nlegs d l := by
  have hbyte := ctx.chunk_byte_lt hc hk
  rw [nodeRegion_dest hlegs hd]
  rcases Nat.eq_zero_or_pos j with rfl | hpos
  · rw [nodeRegion_source ctx hc]
    exact h.source_dest _ hbyte.1 _ (ctx.chunk_byte_lt hd hl).1
  · have hstaged := (staged_iff hlegs j).mpr ⟨hpos, hj⟩
    rw [nodeRegion_staged ctx hstaged hc]
    exact h.ring_dest j hstaged _ (Nat.mod_lt _ ctx.depth_pos) _ hbyte.2 _
      (ctx.chunk_byte_lt hd hl).1

/-- A node before the last meets a ring only in the same slot of the same ring. -/
theorem Layout.node_eq_ring (h : ctx.Layout fileOf) (hlegs : ctx.legs ≠ []) {i j : Nat}
    (hi : i < ctx.nlegs) (hj : ctx.Staged j) (hc : c < ctx.count) (hd : d < ctx.count)
    (hk : k < ctx.plan.chunkLength c) (hl : l < ctx.plan.chunkLength d)
    (heq : ctx.nodeRegion fileOf i c k = ctx.nodeRegion fileOf j d l) :
    i = j ∧ c % ctx.depth = d % ctx.depth := by
  have hbyte := ctx.chunk_byte_lt hc hk
  have hslotd := Nat.mod_lt d ctx.depth_pos
  rw [nodeRegion_staged ctx hj hd] at heq
  rcases Nat.eq_zero_or_pos i with rfl | hpos
  · rw [nodeRegion_source ctx hc] at heq
    exact absurd heq.symm
      (h.ring_source j hj _ hslotd _ (ctx.chunk_byte_lt hd hl).2 _ hbyte.1)
  · have hstaged := (staged_iff hlegs i).mpr ⟨hpos, hi⟩
    rw [nodeRegion_staged ctx hstaged hc] at heq
    exact h.ring_ring i hstaged j hj _ (Nat.mod_lt _ ctx.depth_pos) _ hslotd _ hbyte.2 _
      (ctx.chunk_byte_lt hd hl).2 heq

/-- Two chunks share no byte of the destination. -/
theorem dest_chunk_inj (hlegs : ctx.legs ≠ []) (hc : c < ctx.count) (hd : d < ctx.count)
    (hk : k < ctx.plan.chunkLength c) (hl : l < ctx.plan.chunkLength d)
    (heq : ctx.nodeRegion fileOf ctx.nlegs c k = ctx.nodeRegion fileOf ctx.nlegs d l) : c = d := by
  have hbc := ctx.chunk_byte_lt hc hk
  have hbd := ctx.chunk_byte_lt hd hl
  have htotal := ctx.plan.total.toNat_lt
  rw [nodeRegion_dest hlegs hc, nodeRegion_dest hlegs hd] at heq
  have hnat := Loc.region_inj (by omega) (by omega) heq
  have hdiv := congrArg (· / ctx.plan.chunkSize.toNat) hnat
  have hsize : 0 < ctx.plan.chunkSize.toNat := by omega
  simpa only [Nat.add_comm (_ * _), Nat.add_mul_div_right _ _ hsize, Nat.div_eq_of_lt hbc.2,
    Nat.div_eq_of_lt hbd.2, Nat.zero_add] using hdiv

theorem Outside.ne_node {cell : Cell} (h : ctx.Outside fileOf cell) (hlegs : ctx.legs ≠ [])
    {j : Nat} (hpos : 1 ≤ j) (hj : j ≤ ctx.nlegs) (hc : c < ctx.count)
    (hk : k < ctx.plan.chunkLength c) : cell ≠ ctx.nodeRegion fileOf j c k := by
  have hbyte := ctx.chunk_byte_lt hc hk
  rcases Nat.lt_or_eq_of_le hj with hlt | rfl
  · have hstaged := (staged_iff hlegs j).mpr ⟨hpos, hlt⟩
    rw [nodeRegion_staged ctx hstaged hc]
    exact h.ring j hstaged _ (Nat.mod_lt _ ctx.depth_pos) _ hbyte.2
  · rw [nodeRegion_dest hlegs hc]
    exact h.dest _ hbyte.1

theorem Layout.source_outside (h : ctx.Layout fileOf) (hk : k < ctx.plan.total.toNat) :
    ctx.Outside fileOf (ctx.sourceRegion fileOf k) where
  dest := fun l hl => h.source_dest k hk l hl
  ring := fun j hj s hs l hl heq => h.ring_source j hj s hs l hl k hk heq.symm

end Disjoint

end RunContext

end TransferFabric
