import TransferFabric.Core.Chunking

/-!
What an accepted plan's chunks look like as a whole. They tile the range without
gap or overlap, and none of the overflow guards of `chunk_at` fires.

The size of the chunks is aligned only as far as the two clamps after the
alignment leave it so. The theorem names the inputs on which they do; the offsets
of the range itself are the caller's and may be unaligned.
-/

namespace TransferFabric

namespace ChunkPlan

/-- What `chunk_at` writes into a fresh chunk. -/
def chunk (p : ChunkPlan) (i : ByteCount) : Chunk := (p.chunkAt i {}).2

/-- The errors of `chunk_at` are ignored. -/
def materialize (p : ChunkPlan) : List Chunk :=
  (List.range p.chunkCount.toNat).map fun i => p.chunk (UInt64.ofNat i)

/-- The chunks of `p` divide the range of `inp` among themselves. Sums of offsets
wrap as in the source; the sum of the lengths is unbounded. -/
structure Partitions (inp : ChunkPlanInput) (p : ChunkPlan) : Prop where
  size : inp.minChunk ≤ p.chunkSize ∧ p.chunkSize ≤ inp.maxChunk
  count : 1 ≤ p.chunkCount
  served : ∀ i < p.chunkCount, ∀ out, p.chunkAt i out = ({}, p.chunk i)
  refused : ∀ i ≥ p.chunkCount, ∀ out, (p.chunkAt i out).1.ok = false
  nonempty : ∀ i < p.chunkCount, 0 < (p.chunk i).length
  first : (p.chunk 0).sourceOffset = inp.sourceOffset ∧ (p.chunk 0).destOffset = inp.destOffset
  adjacent : ∀ i < p.chunkCount, i + 1 < p.chunkCount →
    (p.chunk (i + 1)).sourceOffset = (p.chunk i).sourceOffset + (p.chunk i).length ∧
    (p.chunk (i + 1)).destOffset = (p.chunk i).destOffset + (p.chunk i).length
  full : ∀ i < p.chunkCount, i + 1 ≠ p.chunkCount → (p.chunk i).length = p.chunkSize
  tail : ∀ i < p.chunkCount,
    (p.chunk i).isTail = true ↔ i + 1 = p.chunkCount ∧ (p.chunk i).length < p.chunkSize
  total : (p.materialize.map fun c => c.length.toNat).sum = inp.total.toNat

theorem toNat_succ_of_lt {i n : ByteCount} (h : i < n) : (i + 1).toNat = i.toNat + 1 := by
  have hlt := UInt64.lt_iff_toNat_lt.mp h
  have hn := n.toNat_lt
  exact toNat_succ i (by omega)

theorem succ_lt_count {i n : ByteCount} (h : i < n) (hne : i + 1 ≠ n) : i.toNat + 1 < n.toNat := by
  have hlt := UInt64.lt_iff_toNat_lt.mp h
  have hnat : (i + 1).toNat ≠ n.toNat := fun heq => hne (UInt64.toNat_inj.mp heq)
  rw [toNat_succ_of_lt h] at hnat
  omega

section Geometry

variable {p : ChunkPlan} (hp : Covers p)
include hp

theorem Covers.chunkAt_lt {i : ByteCount} (hi : i < p.chunkCount) (out : Chunk) :
    p.chunkAt i out = ({}, p.chunkOf i.toNat) := by
  have h := chunkAt_eq hp (UInt64.lt_iff_toNat_lt.mp hi) out
  rwa [UInt64.ofNat_toNat] at h

theorem Covers.chunk_eq {i : ByteCount} (hi : i < p.chunkCount) : p.chunk i = p.chunkOf i.toNat :=
  congrArg Prod.snd (hp.chunkAt_lt hi {})

theorem Covers.length_chunk {i : ByteCount} (hi : i < p.chunkCount) :
    (p.chunk i).length.toNat = p.chunkLength i.toNat := by
  have hend := hp.end_le (UInt64.lt_iff_toNat_lt.mp hi)
  have htotal := p.total.toNat_lt
  rw [hp.chunk_eq hi]
  exact toNat_ofNat_lt _ (by omega)

theorem Covers.starts {i : ByteCount} (hi : i < p.chunkCount) :
    (p.chunk i).sourceOffset = p.sourceOffset + UInt64.ofNat (i.toNat * p.chunkSize.toNat) ∧
      (p.chunk i).destOffset = p.destOffset + UInt64.ofNat (i.toNat * p.chunkSize.toNat) := by
  rw [hp.chunk_eq hi]
  exact ⟨rfl, rfl⟩

theorem Covers.full_length {i : ByteCount} (hi : i < p.chunkCount) (hne : i + 1 ≠ p.chunkCount) :
    (p.chunk i).length = p.chunkSize :=
  UInt64.toNat_inj.mp ((hp.length_chunk hi).trans (hp.length_full (succ_lt_count hi hne)))

/-- A chunk that is followed by another ends where that one starts. -/
theorem Covers.next_start {i : ByteCount} (hi : i < p.chunkCount) (hn : i + 1 < p.chunkCount)
    (base : ByteCount) :
    base + UInt64.ofNat ((i + 1).toNat * p.chunkSize.toNat) =
      base + UInt64.ofNat (i.toNat * p.chunkSize.toNat) + (p.chunk i).length := by
  have hne : i + 1 ≠ p.chunkCount := fun h => UInt64.lt_irrefl _ (h ▸ hn)
  rw [hp.full_length hi hne, toNat_succ_of_lt hi, Nat.add_mul, Nat.one_mul, UInt64.ofNat_add,
    UInt64.ofNat_toNat, UInt64.add_assoc]

theorem Covers.isTail_iff {i : ByteCount} (hi : i < p.chunkCount) :
    (p.chunk i).isTail = true ↔ i + 1 = p.chunkCount ∧ (p.chunk i).length < p.chunkSize := by
  have htail : (p.chunk i).isTail = true ↔ p.chunkLength i.toNat ≠ p.chunkSize.toNat := by
    rw [hp.chunk_eq hi]
    exact decide_eq_true_iff
  have hshort : (p.chunk i).length < p.chunkSize ↔ p.chunkLength i.toNat < p.chunkSize.toNat := by
    rw [UInt64.lt_iff_toNat_lt, hp.length_chunk hi]
  have hle : p.chunkLength i.toNat ≤ p.chunkSize.toNat := chunkLength_le
  rw [htail, hshort]
  constructor
  · intro hne
    refine ⟨?_, by omega⟩
    by_contra hlast
    exact hne (hp.length_full (succ_lt_count hi hlast))
  · rintro ⟨-, hlt⟩
    omega

/-- The first `n` chunks hold what lies before chunk `n`. -/
theorem Covers.sum_lengths {n : Nat} (hn : n ≤ p.chunkCount.toNat) :
    ((List.range n).map fun i => (p.chunk (UInt64.ofNat i)).length.toNat).sum = p.before n := by
  induction n with
  | zero => exact p.before_zero.symm
  | succ n ih =>
      have hcount := p.chunkCount.toNat_lt
      have hidx : (UInt64.ofNat n).toNat = n := toNat_ofNat_lt _ (by omega)
      have hlt : UInt64.ofNat n < p.chunkCount := by
        rw [UInt64.lt_iff_toNat_lt, hidx]
        exact hn
      rw [List.range_succ, List.map_append, List.sum_append, ih (by omega), List.map_singleton,
        List.sum_singleton, hp.length_chunk hlt, hidx, hp.before_succ hn]

end Geometry

theorem chunkAt_refused {p : ChunkPlan} {i : ByteCount} (h : p.chunkCount ≤ i) (out : Chunk) :
    (p.chunkAt i out).1.ok = false := by
  unfold chunkAt
  rw [if_pos h]
  rfl

theorem build_partitions (inp : ChunkPlanInput) (p : ChunkPlan) (h : build inp = .ok p)
    (ht : inp.total ≠ 0) : Partitions inp p := by
  obtain ⟨-, hmax, htotal, hsrc, hdst, -, hne⟩ := build_ok_inv h
  have hp : Covers p := build_covers h (htotal ▸ ht)
  have hpos : 0 < p.chunkCount := UInt64.lt_iff_toNat_lt.mpr hp.count_pos
  constructor
  case size =>
    rw [(hne ht).1]
    exact chunkSizeFor_bounds inp hmax
  case count => exact UInt64.le_iff_toNat_le.mpr hp.count_pos
  case served =>
    intro i hi out
    rw [hp.chunkAt_lt hi, hp.chunk_eq hi]
  case refused => exact fun i hi out => chunkAt_refused hi out
  case nonempty =>
    intro i hi
    rw [UInt64.lt_iff_toNat_lt, hp.length_chunk hi]
    exact hp.length_pos (UInt64.lt_iff_toNat_lt.mp hi)
  case first =>
    rw [(hp.starts hpos).1, (hp.starts hpos).2, hsrc, hdst]
    simp
  case adjacent =>
    intro i hi hn
    have hstart := hp.next_start hi hn
    rw [(hp.starts hi).1, (hp.starts hi).2, (hp.starts hn).1, (hp.starts hn).2]
    exact ⟨hstart p.sourceOffset, hstart p.destOffset⟩
  case full => exact fun i hi hlast => hp.full_length hi hlast
  case tail => exact fun i hi => hp.isTail_iff hi
  case total =>
    rw [materialize, List.map_map]
    have hsum := hp.sum_lengths (Nat.le_refl p.chunkCount.toNat)
    rw [Built.before_count (.inr ⟨inp, h⟩), htotal] at hsum
    exact hsum

def hundredFromFifty : ChunkPlanInput :=
  { total := 100, sourceOffset := 50, destOffset := 1000, maxChunk := 100, preferredChunk := 64 }

theorem hundred_partitions : hundredFromFifty.total ≠ 0 ∧
    Partitions hundredFromFifty
      { total := 100, chunkSize := 64, chunkCount := 2, sourceOffset := 50, destOffset := 1000,
        tailSize := 36 } :=
  ⟨by decide, build_partitions hundredFromFifty _ rfl (by decide)⟩

/-! Alignment. -/

/-- Some multiple of `a` lies between the bounds. -/
def MultipleIn (a lo hi : Nat) : Prop := ∃ m, a ∣ m ∧ lo ≤ m ∧ m ≤ hi

theorem multipleIn_iff {a lo hi : Nat} (ha : 0 < a) : MultipleIn a lo hi ↔ lo ≤ hi / a * a := by
  constructor
  · rintro ⟨m, ⟨k, rfl⟩, hlo, hhi⟩
    have hk : k ≤ hi / a := (Nat.le_div_iff_mul_le ha).mpr (by rwa [Nat.mul_comm])
    have hm : k * a ≤ hi / a * a := Nat.mul_le_mul_right a hk
    rw [Nat.mul_comm] at hlo
    omega
  · intro h
    exact ⟨hi / a * a, Nat.dvd_mul_left a _, h, Nat.div_mul_le_self hi a⟩

instance (a lo hi : Nat) : Decidable (MultipleIn a lo hi) :=
  if ha : 0 < a then decidable_of_iff _ (multipleIn_iff ha).symm
  else decidable_of_iff (lo = 0) (by
    obtain rfl : a = 0 := by omega
    constructor
    · rintro rfl
      exact ⟨0, Nat.dvd_refl 0, Nat.le_refl 0, Nat.zero_le hi⟩
    · rintro ⟨m, hm, hlo, -⟩
      have := Nat.eq_zero_of_zero_dvd hm
      omega)

/-- The size of the chunks in unbounded arithmetic. -/
def sizeBetween (a lo hi preferred : Nat) : Nat :=
  let wanted := min (max lo preferred) hi
  let base := if wanted / a * a = 0 then a else wanted / a * a
  min (max lo base) hi

private theorem toNat_clamp (lo hi x : ByteCount) :
    (if (if x < lo then lo else x) > hi then hi else (if x < lo then lo else x)).toNat =
      min (max lo.toNat x.toNat) hi.toNat := by
  simp only [UInt64.lt_iff_toNat_lt, gt_iff_lt]
  split_ifs <;> omega

private theorem toNat_alignDown (a x : ByteCount) :
    (x / a * a).toNat = x.toNat / a.toNat * a.toNat := by
  have hle := Nat.div_mul_le_self x.toNat a.toNat
  have hx := x.toNat_lt
  rw [toNat_mul_of_lt _ _ (by rw [UInt64.toNat_div]; omega), UInt64.toNat_div]

theorem toNat_chunkSizeFor (inp : ChunkPlanInput) :
    (chunkSizeFor inp).toNat = sizeBetween inp.alignment.toNat inp.minChunk.toNat
      inp.maxChunk.toNat inp.preferredChunk.toNat := by
  have hwanted : max inp.minChunk.toNat
      (if inp.preferredChunk = 0 then inp.minChunk else inp.preferredChunk).toNat =
        max inp.minChunk.toNat inp.preferredChunk.toNat := by
    split_ifs with h
    · rw [h]
      simp
    · rfl
  have hbase : ∀ x : ByteCount, (if x = 0 then inp.alignment else x).toNat =
      if x.toNat = 0 then inp.alignment.toNat else x.toNat := by
    intro x
    have hx := toNat_ne_zero x
    split_ifs <;> tauto
  unfold chunkSizeFor sizeBetween
  dsimp only
  rw [toNat_clamp, hbase, toNat_alignDown, toNat_clamp, hwanted]

/-- The clamps after the alignment leave it alone unless the multiples of the
alignment around the wanted size fall below the minimum. -/
theorem dvd_sizeBetween_iff {a lo hi preferred : Nat} (ha : 0 < a) (hlo : 0 < lo)
    (hfits : MultipleIn a lo hi) :
    a ∣ sizeBetween a lo hi preferred ↔
      MultipleIn a lo (max lo preferred) ∨ max lo preferred < a := by
  have hlohi : lo ≤ hi := by
    obtain ⟨m, -, h₁, h₂⟩ := hfits
    omega
  have hdown := (multipleIn_iff ha).mp hfits
  rw [multipleIn_iff ha]
  generalize hM : max lo preferred = wanted
  have hwanted : lo ≤ wanted := by omega
  unfold sizeBetween
  dsimp only
  rw [hM]
  rcases Nat.lt_or_ge hi wanted with hbig | hsmall
  · -- the maximum is wanted, and it has a multiple of the alignment below it
    have hmono : hi / a * a ≤ wanted / a * a :=
      Nat.mul_le_mul_right a (Nat.div_le_div_right (by omega))
    have hsize : min (max lo (hi / a * a)) hi = hi / a * a := by
      have := Nat.div_mul_le_self hi a
      omega
    have hmax : min wanted hi = hi := by omega
    rw [hmax, if_neg (by omega), hsize]
    exact iff_of_true (Nat.dvd_mul_left a _) (.inl (by omega))
  · have hown : min wanted hi = wanted := by omega
    rw [hown]
    rcases Nat.lt_or_ge wanted a with hless | hmore
    · -- nothing is left after aligning down: one alignment unit, which fits
      have hunit : a ≤ hi := by
        obtain ⟨m, hm, h₁, h₂⟩ := hfits
        exact Nat.le_trans (Nat.le_of_dvd (by omega) hm) h₂
      have hsize : min (max lo a) hi = a := by omega
      rw [Nat.div_eq_of_lt hless, Nat.zero_mul, if_pos rfl, hsize]
      exact iff_of_true (Nat.dvd_refl a) (.inr hless)
    · have hle := Nat.div_mul_le_self wanted a
      have hpos : 0 < wanted / a * a :=
        Nat.mul_pos (Nat.div_pos hmore ha) ha
      rw [if_neg (by omega)]
      rcases Nat.lt_or_ge (wanted / a * a) lo with hbelow | habove
      · -- the minimum lies strictly between two multiples
        have hsize : min (max lo (wanted / a * a)) hi = lo := by omega
        rw [hsize]
        refine iff_of_false ?_ (by omega)
        intro hdvd
        have := (multipleIn_iff ha).mp ⟨lo, hdvd, Nat.le_refl lo, hwanted⟩
        omega
      · have hsize : min (max lo (wanted / a * a)) hi = wanted / a * a := by omega
        rw [hsize]
        exact iff_of_true (Nat.dvd_mul_left a _) (.inl habove)

/-- Every chunk starts at an aligned distance from the beginning of the range, and
all but the last have an aligned length. -/
structure Aligned (inp : ChunkPlanInput) (p : ChunkPlan) : Prop where
  size : inp.alignment.toNat ∣ p.chunkSize.toNat
  starts : ∀ i < p.chunkCount,
    inp.alignment.toNat ∣ ((p.chunk i).sourceOffset - inp.sourceOffset).toNat ∧
      inp.alignment.toNat ∣ ((p.chunk i).destOffset - inp.destOffset).toNat
  lengths : ∀ i < p.chunkCount, i + 1 ≠ p.chunkCount →
    inp.alignment.toNat ∣ (p.chunk i).length.toNat

theorem aligned_of_size {inp : ChunkPlanInput} {p : ChunkPlan} (h : build inp = .ok p)
    (ht : inp.total ≠ 0) (hdvd : inp.alignment.toNat ∣ p.chunkSize.toNat) : Aligned inp p := by
  obtain ⟨-, -, htotal, hsrc, hdst, -, -⟩ := build_ok_inv h
  have hp : Covers p := build_covers h (htotal ▸ ht)
  refine ⟨hdvd, fun i hi => ?_, fun i hi hlast => ?_⟩
  · have hlt := hp.start_lt (UInt64.lt_iff_toNat_lt.mp hi)
    have hnat := p.total.toNat_lt
    have hdist : (UInt64.ofNat (i.toNat * p.chunkSize.toNat)).toNat =
        i.toNat * p.chunkSize.toNat := toNat_ofNat_lt _ (by omega)
    have hmul : inp.alignment.toNat ∣ i.toNat * p.chunkSize.toNat := Nat.dvd_mul_left_of_dvd hdvd _
    rw [(hp.starts hi).1, (hp.starts hi).2, hsrc, hdst, UInt64.add_comm, UInt64.add_sub_cancel,
      UInt64.add_comm, UInt64.add_sub_cancel, hdist]
    exact ⟨hmul, hmul⟩
  · rw [hp.full_length hi hlast]
    exact hdvd

theorem build_aligned_iff (inp : ChunkPlanInput) (p : ChunkPlan) (h : build inp = .ok p)
    (ht : inp.total ≠ 0)
    (hfits : MultipleIn inp.alignment.toNat inp.minChunk.toNat inp.maxChunk.toNat) :
    Aligned inp p ↔
      MultipleIn inp.alignment.toNat inp.minChunk.toNat
          (max inp.minChunk.toNat inp.preferredChunk.toNat) ∨
        max inp.minChunk.toNat inp.preferredChunk.toNat < inp.alignment.toNat := by
  obtain ⟨hmin, -, -, -, -, -, hne⟩ := build_ok_inv h
  have hmn : 0 < inp.minChunk.toNat := Nat.pos_of_ne_zero ((toNat_ne_zero _).mpr hmin)
  have ha : 0 < inp.alignment.toNat := by
    obtain ⟨m, hm, hlo, -⟩ := hfits
    exact Nat.pos_of_dvd_of_pos hm (by omega)
  rw [← dvd_sizeBetween_iff ha hmn hfits, ← toNat_chunkSizeFor, ← (hne ht).1]
  exact ⟨Aligned.size, aligned_of_size h ht⟩

def evenly : ChunkPlanInput :=
  { total := 200, minChunk := 50, maxChunk := 100, preferredChunk := 70, alignment := 16 }

theorem evenly_aligned : MultipleIn 16 50 100 ∧
    Aligned evenly
      { total := 200, chunkSize := 64, chunkCount := 4, alignment := 16, tailSize := 8 } :=
  ⟨by decide, (build_aligned_iff evenly _ rfl (by decide) (by decide)).mpr (.inl (by decide))⟩

/-- Aligned down, 60 falls below the minimum, although 64 would fit. -/
def raised : ChunkPlanInput := { evenly with preferredChunk := 60 }

theorem raised_not_aligned : MultipleIn 16 50 100 ∧ raised.total ≠ 0 ∧
    ∃ p, build raised = .ok p ∧ p.chunkSize = 50 ∧ ¬ Aligned raised p :=
  ⟨by decide, by decide, _, rfl, rfl, fun h => absurd h.size (by decide)⟩

end ChunkPlan

end TransferFabric
