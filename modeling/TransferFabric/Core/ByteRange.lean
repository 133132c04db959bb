import TransferFabric.Core.Types

/-!
Sub-ranges of a byte range. The check of `subrange` takes the start as a
position, counted from where the range's own offset is counted, and the result
takes it as a distance from that offset. The two agree for ranges that begin at
zero. No code of the repository calls `subrange`.
-/

namespace TransferFabric

namespace ByteRange

/-- `offset + length`, unless it overflows. -/
def endChecked (r : ByteRange) : Option ByteOffset :=
  if r.length > maxByteCount - r.offset then none else some (r.offset + r.length)

def subrange (r : ByteRange) (start : ByteOffset) (count : ByteCount) : Option ByteRange :=
  r.endChecked.bind fun last =>
    if start > last then none
    else if count > last - start then none
    else some { offset := r.offset + start, length := count }

theorem endChecked_eq_some_iff {r : ByteRange} {last : ByteOffset} :
    r.endChecked = some last ↔
      r.offset.toNat + r.length.toNat < 2 ^ 64 ∧ r.offset + r.length = last := by
  have hroom : (maxByteCount - r.offset).toNat = 2 ^ 64 - 1 - r.offset.toNat := by
    rw [UInt64.toNat_sub_of_le, toNat_maxByteCount]
    rw [UInt64.le_iff_toNat_le, toNat_maxByteCount]
    have := r.offset.toNat_lt
    omega
  have hgt : r.length > maxByteCount - r.offset ↔
      ¬ r.offset.toNat + r.length.toNat < 2 ^ 64 := by
    have := r.offset.toNat_lt
    rw [gt_iff_lt, UInt64.lt_iff_toNat_lt, hroom]
    omega
  rw [endChecked, Option.ite_none_left_eq_some, hgt, not_not, Option.some.injEq]

/-- The two checks of `subrange`, without machine arithmetic. -/
theorem fits_iff {r : ByteRange} {start : ByteOffset} {count : ByteCount}
    (hwhole : r.offset.toNat + r.length.toNat < 2 ^ 64) :
    ¬ start > r.offset + r.length ∧ ¬ count > r.offset + r.length - start ↔
      start.toNat + count.toNat ≤ r.offset.toNat + r.length.toNat := by
  have hlast := toNat_add_of_lt r.offset r.length hwhole
  constructor
  · rintro ⟨hstart, hcount⟩
    have hle := UInt64.not_lt.mp hstart
    rw [gt_iff_lt, UInt64.lt_iff_toNat_lt, UInt64.toNat_sub_of_le _ _ hle, hlast] at hcount
    rw [UInt64.le_iff_toNat_le, hlast] at hle
    omega
  · intro hfits
    have hle : start ≤ r.offset + r.length := by
      rw [UInt64.le_iff_toNat_le, hlast]
      omega
    refine ⟨UInt64.not_lt.mpr hle, ?_⟩
    rw [gt_iff_lt, UInt64.lt_iff_toNat_lt, UInt64.toNat_sub_of_le _ _ hle, hlast]
    omega

/-- What is accepted: the range does not wrap, and the request ends at or before its end, with
the start counted as a position. -/
theorem subrange_eq_some_iff {r : ByteRange} {start : ByteOffset} {count : ByteCount}
    {out : ByteRange} :
    r.subrange start count = some out ↔
      (r.offset.toNat + r.length.toNat < 2 ^ 64 ∧
        start.toNat + count.toNat ≤ r.offset.toNat + r.length.toNat) ∧
      { offset := r.offset + start, length := count } = out := by
  rw [subrange, Option.bind_eq_some_iff]
  constructor
  · rintro ⟨last, hend, hout⟩
    obtain ⟨hwhole, rfl⟩ := endChecked_eq_some_iff.mp hend
    obtain ⟨hstart, hout⟩ := Option.ite_none_left_eq_some.mp hout
    obtain ⟨hcount, hout⟩ := Option.ite_none_left_eq_some.mp hout
    exact ⟨⟨hwhole, (fits_iff hwhole).mp ⟨hstart, hcount⟩⟩, Option.some.inj hout⟩
  · rintro ⟨⟨hwhole, hfits⟩, rfl⟩
    obtain ⟨hstart, hcount⟩ := (fits_iff hwhole).mpr hfits
    refine ⟨r.offset + r.length, endChecked_eq_some_iff.mpr ⟨hwhole, rfl⟩, ?_⟩
    rw [if_neg hstart, if_neg hcount]

/-- The range lies in another one, and neither wraps. -/
structure Inside (out r : ByteRange) : Prop where
  whole : r.offset.toNat + r.length.toNat < 2 ^ 64
  from_start : r.offset.toNat ≤ out.offset.toNat
  to_end : out.offset.toNat + out.length.toNat ≤ r.offset.toNat + r.length.toNat

/-- A request is answered with a range of its length inside this one, and it is answered
whenever it lies inside, counted from the beginning. -/
structure Serves (r : ByteRange) (start : ByteOffset) (count : ByteCount) : Prop where
  sound : ∀ out, r.subrange start count = some out → out.Inside r ∧ out.length = count
  complete : r.offset.toNat + r.length.toNat < 2 ^ 64 →
    start.toNat + count.toNat ≤ r.length.toNat → (r.subrange start count).isSome = true

/-- A request is served rightly exactly if it lies inside the range, or is refused: the range
wraps, or the request ends behind the position at which the range ends. -/
theorem subrange_serves_iff (r : ByteRange) (start : ByteOffset) (count : ByteCount) :
    r.Serves start count ↔
      2 ^ 64 ≤ r.offset.toNat + r.length.toNat ∨ start.toNat + count.toNat ≤ r.length.toNat ∨
        r.offset.toNat + r.length.toNat < start.toNat + count.toNat := by
  constructor
  · intro h
    by_cases hacc : r.offset.toNat + r.length.toNat < 2 ^ 64 ∧
        start.toNat + count.toNat ≤ r.offset.toNat + r.length.toNat
    · obtain ⟨⟨-, hlo, hhi⟩, -⟩ := h.sound _ (subrange_eq_some_iff.mpr ⟨hacc, rfl⟩)
      dsimp only at hlo hhi
      -- a sum that wraps would lie before the range
      rw [UInt64.toNat_add] at hlo hhi
      have := r.offset.toNat_lt
      have := start.toNat_lt
      omega
    · omega
  · intro h
    refine ⟨fun out hout => ?_, fun hwhole hin => ?_⟩
    · obtain ⟨hacc, rfl⟩ := subrange_eq_some_iff.mp hout
      have hsum := toNat_add_of_lt r.offset start (by omega)
      refine ⟨⟨hacc.1, ?_, ?_⟩, rfl⟩
      · rw [hsum]
        omega
      · rw [hsum]
        dsimp only
        omega
    · exact Option.isSome_iff_exists.mpr ⟨_, subrange_eq_some_iff.mpr ⟨⟨hwhole, by omega⟩, rfl⟩⟩

/-- Five bytes at 25 out of the ten bytes at 10. -/
theorem subrange_outside :
    ({ offset := 10, length := 10 } : ByteRange).subrange 15 5 = some { offset := 25, length := 5 } ∧
      ¬ ({ offset := 10, length := 10 } : ByteRange).Serves 15 5 := by
  have hsub : ({ offset := 10, length := 10 } : ByteRange).subrange 15 5 =
      some { offset := 25, length := 5 } := by decide
  refine ⟨hsub, fun h => ?_⟩
  have hend := (h.sound _ hsub).1.to_end
  exact absurd hend (by decide)

end ByteRange

end TransferFabric
