import TransferFabric.Runtime.CallSpecs

/-!
What a submission admits. The ranges it settles on and the chunks it plans stay
inside both endpoints, in unbounded arithmetic: the additions behind the absolute
offsets, which the chunk plan leaves to its caller, do not wrap either. Ranges that
would leave an endpoint are turned down.
-/

namespace TransferFabric

open TransferFabric.Runtime (chunkInput)

/-- Where a chunk lies, in unbounded arithmetic. -/
structure ResolvedRanges.Places (ranges : ResolvedRanges) (se de : EndpointRecord) (start : Nat)
    (c : Chunk) : Prop where
  source : c.sourceOffset.toNat = ranges.src.offset.toNat + start
  dest : c.destOffset.toNat = ranges.dst.offset.toNat + start
  inSource : c.sourceOffset.toNat + c.length.toNat ≤ se.caps.maxTransferSize.toNat
  inDest : c.destOffset.toNat + c.length.toNat ≤ de.caps.maxTransferSize.toNat
  inRange : c.destOffset.toNat + c.length.toNat ≤
    ranges.dst.offset.toNat + ranges.dst.length.toNat

section Ranges

variable {se de : EndpointRecord} {src dst : ByteRange} {ranges : ResolvedRanges}

theorem toNat_add_ofNat (offset : ByteOffset) (start : Nat) {size : Nat} (h : offset.toNat + start ≤ size)
    (hsize : size < 2 ^ 64) : (offset + UInt64.ofNat start).toNat = offset.toNat + start := by
  have hstart : (UInt64.ofNat start).toNat = start := toNat_ofNat_lt _ (by omega)
  rw [toNat_add_of_lt _ _ (by rw [hstart]; omega), hstart]

/-- A part of the bytes to move, at its place in both endpoints. -/
theorem places_of_part (h : resolveRanges se de src dst = .ok ranges) {start length : Nat}
    (hend : start + length ≤ ranges.bytes.toNat) (index : ByteCount) (isTail : Bool) :
    ranges.Places se de start
      { index, isTail, sourceOffset := ranges.src.offset + UInt64.ofNat start
        destOffset := ranges.dst.offset + UInt64.ofNat start, length := UInt64.ofNat length } := by
  obtain ⟨-, -, -, hsrc, hsmall, hdst⟩ := resolveRanges_eq_ok.mp h
  have hlength : (UInt64.ofNat length).toNat = length :=
    toNat_ofNat_lt _ (by have := ranges.bytes.toNat_lt; omega)
  have hsource := toNat_add_ofNat ranges.src.offset start
    (by omega) se.caps.maxTransferSize.toNat_lt
  have hdest := toNat_add_ofNat ranges.dst.offset start
    (by omega) de.caps.maxTransferSize.toNat_lt
  refine ⟨hsource, hdest, ?_, ?_, ?_⟩
  · dsimp only
    omega
  · dsimp only
    omega
  · dsimp only
    omega

theorem rejected_of_not_ok (h : ∀ ranges, resolveRanges se de src dst ≠ .ok ranges) :
    ∃ e, resolveRanges se de src dst = .error e ∧ e.ok = false := by
  cases hresolve : resolveRanges se de src dst with
  | ok ranges => exact absurd hresolve (h ranges)
  | error e => exact ⟨e, rfl, resolveRanges_error hresolve⟩

end Ranges

/-- Every chunk of an admitted transfer lies inside both endpoints and inside the
resolved destination range. Ranges that leave an endpoint, and destination ranges too
short for the transfer, are rejected. -/
theorem admitted_in_bounds (se de : EndpointRecord) (src dst : ByteRange) (policy : TransferPolicy)
    (legs : List Leg) :
    (∀ ranges p, resolveRanges se de src dst = .ok ranges →
      ChunkPlan.build (chunkInput policy ranges legs) = .ok p →
        ∀ i < p.chunkCount, ∀ out, ∃ c, p.chunkAt i out = ({}, c) ∧
          ranges.Places se de (i.toNat * p.chunkSize.toNat) c) ∧
    (src.empty = false → se.caps.maxTransferSize.toNat < src.offset.toNat + src.length.toNat →
      ∃ e, resolveRanges se de src dst = .error e ∧ e.ok = false) ∧
    (dst.empty = false → dst.length < (se.sourceRange src).length →
      ∃ e, resolveRanges se de src dst = .error e ∧ e.ok = false) ∧
    (de.caps.maxTransferSize.toNat <
        (dst.orFirst (se.sourceRange src).length).offset.toNat +
          (se.sourceRange src).length.toNat →
      ∃ e, resolveRanges se de src dst = .error e ∧ e.ok = false) := by
  refine ⟨?_, ?_, ?_, ?_⟩
  · intro ranges p hranges hbuild i hi out
    obtain ⟨-, -, htotal, hsource, hdest, hnone, -⟩ := ChunkPlan.build_ok_inv hbuild
    have hmoves : p.total ≠ 0 := by
      intro hzero
      rw [hnone (htotal ▸ hzero)] at hi
      exact absurd hi (UInt64.not_lt.mpr (UInt64.zero_le))
    have hcovers := ChunkPlan.build_covers hbuild hmoves
    have hi' : i.toNat < p.chunkCount.toNat := UInt64.lt_iff_toNat_lt.mp hi
    have hchunk := ChunkPlan.chunkAt_eq hcovers hi' out
    rw [UInt64.ofNat_toNat] at hchunk
    have hend := hcovers.end_le hi'
    rw [htotal] at hend
    refine ⟨_, hchunk, ?_⟩
    rw [ChunkPlan.chunkOf, hsource, hdest]
    exact places_of_part hranges hend _ _
  · intro hsome hpast
    refine rejected_of_not_ok fun ranges hok => ?_
    obtain ⟨hsrc, hbytes, -, hin, -⟩ := resolveRanges_eq_ok.mp hok
    rw [EndpointRecord.sourceRange, if_neg (by simp [hsome])] at hsrc
    rw [hbytes, hsrc] at hin
    omega
  · intro hsome hshort
    refine rejected_of_not_ok fun ranges hok => ?_
    obtain ⟨hsrc, hbytes, hdst, -, hsmall, -⟩ := resolveRanges_eq_ok.mp hok
    rw [ByteRange.orFirst, if_neg (by simp [hsome])] at hdst
    rw [UInt64.lt_iff_toNat_lt, ← hsrc, ← hbytes, ← hdst] at hshort
    omega
  · intro hpast
    refine rejected_of_not_ok fun ranges hok => ?_
    obtain ⟨hsrc, hbytes, hdst, -, -, hout⟩ := resolveRanges_eq_ok.mp hok
    rw [← hsrc, ← hbytes, ← hdst] at hpast
    omega

end TransferFabric
