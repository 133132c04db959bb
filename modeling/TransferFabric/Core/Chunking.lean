import TransferFabric.Core.Types

/-!
Chunk planning. A plan is uniform but for its last chunk, and each chunk's
geometry is computed on demand. The geometry theorem is stated in unbounded
arithmetic: no product or sum behind an accepted chunk index wraps, except the
two absolute offsets, which are the caller's.
-/

namespace TransferFabric

structure Chunk where
  index : ByteCount := 0
  sourceOffset : ByteOffset := 0
  destOffset : ByteOffset := 0
  length : ByteCount := 0
  isTail : Bool := false
  deriving DecidableEq, Repr

structure ChunkPlanInput where
  total : ByteCount := 0
  sourceOffset : ByteOffset := 0
  destOffset : ByteOffset := 0
  minChunk : ByteCount := 1
  maxChunk : ByteCount := maxByteCount
  preferredChunk : ByteCount := 64 * 1024
  alignment : ByteCount := 1
  deriving DecidableEq, Repr

structure ChunkPlan where
  total : ByteCount := 0
  chunkSize : ByteCount := 0
  chunkCount : ByteCount := 0
  alignment : ByteCount := 1
  sourceOffset : ByteCount := 0
  destOffset : ByteCount := 0
  tailSize : ByteCount := 0
  deriving DecidableEq, Repr

namespace ChunkPlan

/-- The chunk size `build` settles on for a non-empty transfer. -/
def chunkSizeFor (inp : ChunkPlanInput) : ByteCount :=
  let chunk := inp.preferredChunk
  let chunk := if chunk = 0 then inp.minChunk else chunk
  let chunk := if chunk < inp.minChunk then inp.minChunk else chunk
  let chunk := if chunk > inp.maxChunk then inp.maxChunk else chunk
  -- align down, never below the minimum
  let base := (chunk / inp.alignment) * inp.alignment
  let base := if base = 0 then inp.alignment else base
  let base := if base < inp.minChunk then inp.minChunk else base
  if base > inp.maxChunk then inp.maxChunk else base

def build (inp : ChunkPlanInput) : Except Error ChunkPlan :=
  if inp.minChunk = 0 then
    .error { category := .invalidRequest, message := "min_chunk must be > 0" }
  else if inp.maxChunk < inp.minChunk then
    .error { category := .invalidRequest, message := "max_chunk < min_chunk" }
  else if inp.alignment = 0 then
    .error { category := .invalidRequest, message := "alignment must be > 0" }
  else
    let p : ChunkPlan :=
      { total := inp.total, sourceOffset := inp.sourceOffset, destOffset := inp.destOffset,
        alignment := inp.alignment }
    if inp.total = 0 then
      .ok { p with
        chunkSize := if inp.preferredChunk ≠ 0 then inp.preferredChunk else inp.minChunk
        chunkCount := 0, tailSize := 0 }
    else
      let base := chunkSizeFor inp
      let count := inp.total / base
      let rem := inp.total % base
      let count := if rem ≠ 0 then count + 1 else count
      if count = 0 then
        .error { category := .invalidRequest, message := "internal: zero chunks for non-zero total" }
      else
        .ok { p with chunkSize := base, chunkCount := count, tailSize := rem }

/-- The closing checks of `chunk_at`: the chunk must end inside the total. -/
def checkEnd (p : ChunkPlan) (off length : ByteCount) : Error :=
  match checkedAdd off length with
  | none => { category := .invalidRequest, message := "chunk end overflow" }
  | some fin =>
      if fin > p.total then { category := .invalidRequest, message := "chunk exceeds total" }
      else {}

/-- The out-parameter is returned as the source leaves it, also on failure. -/
def chunkAt (p : ChunkPlan) (i : ByteCount) (out : Chunk) : Error × Chunk :=
  if i ≥ p.chunkCount then
    ({ category := .invalidRequest, message := "chunk index out of range" }, out)
  else
    match checkedMul i p.chunkSize with
    | none =>
        ({ category := .invalidRequest, message := "chunk offset overflow" },
          { out with index := i })
    | some off =>
        let isTail : Bool := i + 1 = p.chunkCount ∧ p.tailSize ≠ 0
        let length := if isTail then p.tailSize else p.chunkSize
        (p.checkEnd off length,
          { index := i, sourceOffset := p.sourceOffset + off, destOffset := p.destOffset + off
            length := length, isTail := isTail })

/-- What `build` establishes for a non-empty transfer, in unbounded arithmetic. -/
structure Covers (p : ChunkPlan) : Prop where
  size_pos : 0 < p.chunkSize.toNat
  count_pos : 0 < p.chunkCount.toNat
  tail_eq : p.tailSize.toNat = p.total.toNat % p.chunkSize.toNat
  total_le : p.total.toNat ≤ p.chunkCount.toNat * p.chunkSize.toNat
  lt_total : (p.chunkCount.toNat - 1) * p.chunkSize.toNat < p.total.toNat

private theorem clamp_bounds (lo hi x : ByteCount) (h : lo ≤ hi) :
    lo ≤ (if (if x < lo then lo else x) > hi then hi else (if x < lo then lo else x)) ∧
      (if (if x < lo then lo else x) > hi then hi else (if x < lo then lo else x)) ≤ hi := by
  simp only [UInt64.le_iff_toNat_le, UInt64.lt_iff_toNat_lt, gt_iff_lt] at h ⊢
  split_ifs <;> omega

/-- The size lies between the bounds whatever the preference and the alignment. -/
theorem chunkSizeFor_bounds (inp : ChunkPlanInput) (h : inp.minChunk ≤ inp.maxChunk) :
    inp.minChunk ≤ chunkSizeFor inp ∧ chunkSizeFor inp ≤ inp.maxChunk :=
  clamp_bounds inp.minChunk inp.maxChunk _ h

theorem build_ok_inv {inp : ChunkPlanInput} {p : ChunkPlan} (h : build inp = .ok p) :
    inp.minChunk ≠ 0 ∧ inp.minChunk ≤ inp.maxChunk ∧ p.total = inp.total ∧
      p.sourceOffset = inp.sourceOffset ∧ p.destOffset = inp.destOffset ∧
      (inp.total = 0 → p.chunkCount = 0) ∧
      (inp.total ≠ 0 → p.chunkSize = chunkSizeFor inp ∧ p.tailSize = inp.total % chunkSizeFor inp ∧
        p.chunkCount = (if inp.total % chunkSizeFor inp ≠ 0
          then inp.total / chunkSizeFor inp + 1 else inp.total / chunkSizeFor inp)) := by
  unfold build at h
  split at h
  · cases h
  rename_i hmin
  split at h
  · cases h
  rename_i hmax
  split at h
  · cases h
  dsimp only at h
  split at h
  · rename_i ht
    cases h
    exact ⟨hmin, UInt64.not_lt.mp hmax, rfl, rfl, rfl, fun _ => rfl, fun hn => absurd ht hn⟩
  · rename_i ht
    generalize (if inp.total % chunkSizeFor inp ≠ 0 then _ else _ : ByteCount) = count at h
    split at h
    · cases h
    · cases h
      exact ⟨hmin, UInt64.not_lt.mp hmax, rfl, rfl, rfl, fun hz => absurd hz ht,
        fun _ => ⟨rfl, rfl, rfl⟩⟩

private theorem ceil_div (total size : Nat) (hs : 0 < size) (ht : 0 < total) :
    let count := if total % size ≠ 0 then total / size + 1 else total / size
    0 < count ∧ total ≤ count * size ∧ (count - 1) * size < total := by
  have hdiv := Nat.div_add_mod total size
  have hlt := Nat.mod_lt total hs
  rw [Nat.mul_comm] at hdiv
  generalize total / size = q at hdiv ⊢
  generalize total % size = r at hdiv hlt ⊢
  dsimp only
  split_ifs with hr
  · simp only [Nat.add_sub_cancel, Nat.add_mul, Nat.one_mul]
    omega
  · cases q with
    | zero => omega
    | succ q =>
        simp only [Nat.add_sub_cancel, Nat.add_mul, Nat.one_mul] at hdiv ⊢
        omega

/-- The rounded-up quotient does not wrap: a remainder forces the divisor above one. -/
private theorem toNat_count (total size : ByteCount) :
    (if total % size ≠ 0 then total / size + 1 else total / size).toNat =
      if total.toNat % size.toNat ≠ 0 then total.toNat / size.toNat + 1
      else total.toNat / size.toNat := by
  have hrem : (total % size).toNat = total.toNat % size.toNat := UInt64.toNat_mod _ _
  have hfit : total.toNat % size.toNat ≠ 0 → total.toNat / size.toNat + 1 < 2 ^ 64 := by
    intro hr
    have htotal := total.toNat_lt
    rcases Nat.lt_or_ge 1 size.toNat with h1 | h1
    · have hhalf : total.toNat / size.toNat ≤ total.toNat / 2 :=
        Nat.div_le_div_left h1 (by omega)
      omega
    · have hdiv : total.toNat / size.toNat = 0 ∨ size.toNat = 1 := by
        rcases Nat.eq_zero_or_pos size.toNat with h0 | h0
        · exact .inl (by rw [h0, Nat.div_zero])
        · exact .inr (by omega)
      rcases hdiv with hdiv | hone
      · omega
      · rw [hone, Nat.mod_one] at hr
        exact absurd rfl hr
  by_cases hr : total.toNat % size.toNat = 0
  · have hz : total % size = 0 := UInt64.toNat_inj.mp (by rw [hrem, hr]; rfl)
    simp [hr, hz]
  · have hz : total % size ≠ 0 := fun hz => hr (by rw [← hrem, hz]; rfl)
    rw [if_pos hz, if_pos hr, toNat_add_of_lt _ _ (by rw [UInt64.toNat_div]; exact hfit hr),
      UInt64.toNat_div]
    rfl

/-- Only the three bounds can be refused. -/
theorem build_ok (inp : ChunkPlanInput) (hmin : inp.minChunk ≠ 0)
    (hmax : inp.minChunk ≤ inp.maxChunk) (halign : inp.alignment ≠ 0) :
    ∃ p, build inp = .ok p := by
  unfold build
  rw [if_neg hmin, if_neg (UInt64.not_lt.mpr hmax), if_neg halign]
  dsimp only
  split
  · exact ⟨_, rfl⟩
  · rename_i htotal
    have hcount : (if inp.total % chunkSizeFor inp ≠ 0 then inp.total / chunkSizeFor inp + 1
        else inp.total / chunkSizeFor inp) ≠ 0 := by
      have hsize : 0 < (chunkSizeFor inp).toNat :=
        Nat.lt_of_lt_of_le (Nat.pos_of_ne_zero ((toNat_ne_zero _).mpr hmin))
          (UInt64.le_iff_toNat_le.mp (chunkSizeFor_bounds inp hmax).1)
      rw [← toNat_ne_zero, toNat_count]
      exact Nat.ne_of_gt (ceil_div _ _ hsize (Nat.pos_of_ne_zero ((toNat_ne_zero _).mpr htotal))).1
    rw [if_neg hcount]
    exact ⟨_, rfl⟩

/-- Every accepted non-empty plan covers its total. -/
theorem build_covers {inp : ChunkPlanInput} {p : ChunkPlan} (h : build inp = .ok p)
    (ht : p.total ≠ 0) : Covers p := by
  obtain ⟨hmin, hmax, htot, -, -, -, hne⟩ := build_ok_inv h
  obtain ⟨hsize, htail, hcount⟩ := hne (htot ▸ ht)
  have hmn : 0 < inp.minChunk.toNat :=
    Nat.pos_of_ne_zero ((toNat_ne_zero _).mpr hmin)
  have hlo := UInt64.le_iff_toNat_le.mp (chunkSizeFor_bounds inp hmax).1
  have hs : 0 < p.chunkSize.toNat := by rw [hsize]; omega
  have htn : 0 < p.total.toNat :=
    Nat.pos_of_ne_zero ((toNat_ne_zero _).mpr ht)
  have hrem : (p.total % p.chunkSize).toNat = p.total.toNat % p.chunkSize.toNat :=
    UInt64.toNat_mod _ _
  have hcn := toNat_count p.total p.chunkSize
  rw [htot, hsize, ← hcount, ← hsize, ← htot] at hcn
  obtain ⟨hpos, hle, hlt⟩ := ceil_div p.total.toNat p.chunkSize.toNat hs htn
  exact ⟨hs, hcn ▸ hpos, by rw [htail, ← hsize, ← htot, hrem], hcn ▸ hle, hcn ▸ hlt⟩

/-- The length of chunk `i`, as the part of the total that is left, at most one
chunk size of it. -/
def chunkLength (p : ChunkPlan) (i : Nat) : Nat :=
  min p.chunkSize.toNat (p.total.toNat - i * p.chunkSize.toNat)

/-- The chunk a plan's geometry prescribes at index `i`. -/
def chunkOf (p : ChunkPlan) (i : Nat) : Chunk :=
  { index := UInt64.ofNat i
    sourceOffset := p.sourceOffset + UInt64.ofNat (i * p.chunkSize.toNat)
    destOffset := p.destOffset + UInt64.ofNat (i * p.chunkSize.toNat)
    length := UInt64.ofNat (p.chunkLength i)
    isTail := p.chunkLength i ≠ p.chunkSize.toNat }

theorem checkEnd_ok {p : ChunkPlan} {off length fin : ByteCount}
    (hadd : checkedAdd off length = some fin) (hfin : ¬ fin > p.total) :
    p.checkEnd off length = {} := by
  unfold checkEnd
  rw [hadd]
  exact if_neg hfin

section Geometry

variable {p : ChunkPlan} (hp : Covers p) {i : Nat} (hi : i < p.chunkCount.toNat)
include hp hi

theorem Covers.start_lt : i * p.chunkSize.toNat < p.total.toNat := by
  have hle : i * p.chunkSize.toNat ≤ (p.chunkCount.toNat - 1) * p.chunkSize.toNat :=
    Nat.mul_le_mul_right _ (by omega)
  exact Nat.lt_of_le_of_lt hle hp.lt_total

theorem Covers.length_pos : 0 < p.chunkLength i := by
  have hlt := hp.start_lt hi
  have hs := hp.size_pos
  unfold chunkLength
  omega

omit hp hi in
theorem chunkLength_le : p.chunkLength i ≤ p.chunkSize.toNat := Nat.min_le_left _ _

theorem Covers.end_le : i * p.chunkSize.toNat + p.chunkLength i ≤ p.total.toNat := by
  have hlt := hp.start_lt hi
  unfold chunkLength
  omega

omit hi in
theorem Covers.length_full (hn : i + 1 < p.chunkCount.toNat) :
    p.chunkLength i = p.chunkSize.toNat := by
  have hlt := hp.start_lt hn
  rw [Nat.add_mul, Nat.one_mul] at hlt
  unfold chunkLength
  omega

/-- Only the last chunk can be short, and it is short by the remainder. -/
theorem Covers.length_last (hn : i + 1 = p.chunkCount.toNat) :
    p.chunkLength i =
      if p.tailSize.toNat ≠ 0 then p.tailSize.toNat else p.chunkSize.toNat := by
  have hs := hp.size_pos
  have hlt := hp.start_lt hi
  have hle := hp.total_le
  rw [← hn, Nat.add_mul, Nat.one_mul] at hle
  -- the remainder of the total is what is left after the full chunks
  have hmod : p.total.toNat % p.chunkSize.toNat =
      (p.total.toNat - i * p.chunkSize.toNat) % p.chunkSize.toNat := by
    conv_lhs => rw [← Nat.sub_add_cancel (Nat.le_of_lt hlt), Nat.add_mul_mod_self_right]
  rw [hp.tail_eq, hmod]
  unfold chunkLength
  rcases Nat.lt_or_ge (p.total.toNat - i * p.chunkSize.toNat) p.chunkSize.toNat with hc | hc
  · rw [Nat.mod_eq_of_lt hc, if_pos (by omega)]
    omega
  · have hfull : p.total.toNat - i * p.chunkSize.toNat = p.chunkSize.toNat := by omega
    simp [hfull]

theorem chunkAt_eq (out : Chunk) :
    p.chunkAt (UInt64.ofNat i) out = ({}, p.chunkOf i) := by
  have hcount := p.chunkCount.toNat_lt
  have htotal := p.total.toNat_lt
  have hstart := hp.start_lt hi
  have hend := hp.end_le hi
  have hin : (UInt64.ofNat i).toNat = i := toNat_ofNat_lt _ (by omega)
  have hidx : ¬ UInt64.ofNat i ≥ p.chunkCount := by
    rw [ge_iff_le, UInt64.le_iff_toNat_le, hin]; omega
  have hmul : UInt64.ofNat i * p.chunkSize = UInt64.ofNat (i * p.chunkSize.toNat) := by
    apply UInt64.toNat_inj.mp
    rw [toNat_mul_of_lt _ _ (by rw [hin]; omega), hin, toNat_ofNat_lt _ (by omega)]
  have hnext : UInt64.ofNat i + 1 = p.chunkCount ↔ i + 1 = p.chunkCount.toNat := by
    rw [← UInt64.toNat_inj, toNat_succ _ (by rw [hin]; omega), hin]
  have hlenNat : (UInt64.ofNat (p.chunkLength i)).toNat = p.chunkLength i :=
    toNat_ofNat_lt _ (by omega)
  have hadd : checkedAdd (UInt64.ofNat (i * p.chunkSize.toNat)) (UInt64.ofNat (p.chunkLength i)) =
      some (UInt64.ofNat (i * p.chunkSize.toNat) + UInt64.ofNat (p.chunkLength i)) :=
    checkedAdd_eq_some _ _ (by rw [toNat_ofNat_lt _ (by omega), hlenNat]; omega)
  have hfin : ¬ UInt64.ofNat (i * p.chunkSize.toNat) + UInt64.ofNat (p.chunkLength i) >
      p.total := by
    rw [gt_iff_lt, UInt64.lt_iff_toNat_lt,
      toNat_add_of_lt _ _ (by rw [toNat_ofNat_lt _ (by omega), hlenNat]; omega),
      toNat_ofNat_lt _ (by omega), hlenNat]
    omega
  have hmulSome : checkedMul (UInt64.ofNat i) p.chunkSize =
      some (UInt64.ofNat (i * p.chunkSize.toNat)) := by
    rw [checkedMul_eq_some _ _ (by rw [hin]; omega), hmul]
  have htail := toNat_ne_zero p.tailSize
  have hlast : decide (UInt64.ofNat i + 1 = p.chunkCount ∧ p.tailSize ≠ 0) =
      decide (p.chunkLength i ≠ p.chunkSize.toNat) := by
    rw [decide_eq_decide, hnext, ← htail]
    constructor
    · rintro ⟨he, ht⟩
      have hshort : p.tailSize.toNat < p.chunkSize.toNat := by
        rw [hp.tail_eq]; exact Nat.mod_lt _ hp.size_pos
      rw [hp.length_last hi he, if_pos ht]
      omega
    · intro hne
      have he : i + 1 = p.chunkCount.toNat := by
        by_contra hn
        exact hne (hp.length_full (by omega))
      refine ⟨he, fun ht => hne ?_⟩
      rw [hp.length_last hi he, if_neg (not_not.mpr ht)]
  have hlen : (if decide (UInt64.ofNat i + 1 = p.chunkCount ∧ p.tailSize ≠ 0) = true
      then p.tailSize else p.chunkSize) = UInt64.ofNat (p.chunkLength i) := by
    by_cases hne : UInt64.ofNat i + 1 = p.chunkCount ∧ p.tailSize ≠ 0
    · rw [if_pos (decide_eq_true hne), hp.length_last hi (hnext.mp hne.1),
        if_pos (htail.mpr hne.2), UInt64.ofNat_toNat]
    · rw [if_neg (by rw [decide_eq_true_iff]; exact hne)]
      have hl : ¬ p.chunkLength i ≠ p.chunkSize.toNat := fun h =>
        hne (of_decide_eq_true (hlast.trans (decide_eq_true h)))
      rw [not_not.mp hl, UInt64.ofNat_toNat]
  unfold chunkAt
  rw [if_neg hidx, hmulSome]
  dsimp only
  rw [hlen, hlast, checkEnd_ok hadd hfin]
  rfl

end Geometry

/-- Also a plan for nothing has a chunk size. -/
theorem build_size_ne_zero {inp : ChunkPlanInput} {p : ChunkPlan} (h : build inp = .ok p) :
    p.chunkSize ≠ 0 := by
  obtain ⟨hmin, -, htot, -⟩ := build_ok_inv h
  by_cases ht : inp.total = 0
  · unfold build at h
    simp only [ht, if_true] at h
    split_ifs at h with _ _ _ hpreferred
    · cases h
      exact hpreferred
    · cases h
      exact hmin
  · exact (toNat_ne_zero _).mp (Nat.ne_of_gt (build_covers h (htot ▸ ht)).size_pos)

/-- The plans that exist: the empty one a record starts with and what `build` returns. -/
def Built (p : ChunkPlan) : Prop := p = {} ∨ ∃ inp, build inp = .ok p

theorem Built.covers {p : ChunkPlan} (h : p.Built) (ht : p.total ≠ 0) : Covers p := by
  rcases h with rfl | ⟨inp, hb⟩
  · exact absurd rfl ht
  · exact build_covers hb ht

theorem Built.total_ne_zero {p : ChunkPlan} (h : p.Built) (hc : p.chunkCount ≠ 0) :
    p.total ≠ 0 := by
  rcases h with rfl | ⟨inp, hb⟩
  · exact absurd rfl hc
  · obtain ⟨-, -, htot, -, -, hzero, -⟩ := build_ok_inv hb
    exact fun ht => hc (hzero (htot ▸ ht))

/-- How many bytes the first `i` chunks hold. -/
def before (p : ChunkPlan) (i : Nat) : Nat := min (i * p.chunkSize.toNat) p.total.toNat

@[simp] theorem before_zero (p : ChunkPlan) : p.before 0 = 0 := by
  rw [before, Nat.zero_mul, Nat.zero_min]

theorem Covers.before_succ {p : ChunkPlan} (hp : Covers p) {i : Nat}
    (hi : i < p.chunkCount.toNat) : p.before (i + 1) = p.before i + p.chunkLength i := by
  have hlt := hp.start_lt hi
  rw [before, before, chunkLength, Nat.add_mul, Nat.one_mul]
  omega

theorem Built.before_count {p : ChunkPlan} (h : p.Built) :
    p.before p.chunkCount.toNat = p.total.toNat := by
  by_cases ht : p.total = 0
  · rw [before, ht]
    exact Nat.min_zero _
  · exact Nat.min_eq_right (h.covers ht).total_le

end ChunkPlan

/-- A chunk plan can only be built or default-constructed. -/
structure BuiltPlan where
  plan : ChunkPlan
  built : plan.Built

end TransferFabric
