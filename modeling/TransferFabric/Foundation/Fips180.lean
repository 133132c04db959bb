import Mathlib.Analysis.SpecialFunctions.Pow.Real
import Mathlib.Data.Nat.Prime.Basic
import TransferFabric.Foundation.Bits

/-!
SHA-256 as FIPS 180-4 defines it, on messages that are bit strings. The
constants are the first bits of the fractional parts of roots of primes, as
section 4.2.2 and 5.3.3 introduce them, and not a table; the padding is the
least number of zeros that solves its congruence. Nothing here is meant to be
run.
-/

namespace Fips180

abbrev Word := BitVec 32

def Ch (x y z : Word) : Word := (x &&& y) ^^^ (~~~ x &&& z)
def Maj (x y z : Word) : Word := (x &&& y) ^^^ (x &&& z) ^^^ (y &&& z)

def bigSigma0 (x : Word) : Word := x.rotateRight 2 ^^^ x.rotateRight 13 ^^^ x.rotateRight 22
def bigSigma1 (x : Word) : Word := x.rotateRight 6 ^^^ x.rotateRight 11 ^^^ x.rotateRight 25
def smallSigma0 (x : Word) : Word := x.rotateRight 7 ^^^ x.rotateRight 18 ^^^ (x >>> 3)
def smallSigma1 (x : Word) : Word := x.rotateRight 17 ^^^ x.rotateRight 19 ^^^ (x >>> 10)

/-! Constants. -/

/-- The first sixty-four primes. -/
def primes : List Nat := (List.range 312).filter fun p => p.Prime

/-- The first thirty-two bits of the fractional part. -/
noncomputable def fractionBits (x : ℝ) : Word := BitVec.ofNat 32 ⌊Int.fract x * 2 ^ 32⌋₊

/-- The words of the `k`-th roots of the first primes. -/
noncomputable def rootBits (k t : Nat) : Word :=
  fractionBits ((primes.getD t 0 : ℝ) ^ ((k : ℝ)⁻¹))

noncomputable def K (t : Nat) : Word := rootBits 3 t

theorem fractionBits_eq {x : ℝ} {r : Nat} (hx : 0 ≤ x) (hle : (r : ℝ) ≤ x * 2 ^ 32)
    (hlt : x * 2 ^ 32 < r + 1) : fractionBits x = BitVec.ofNat 32 r := by
  have hfract : Int.fract x * 2 ^ 32 = x * 2 ^ 32 - (⌊x⌋₊ * 2 ^ 32 : ℕ) := by
    have := Int.self_sub_floor x
    rw [← this, ← natCast_floor_eq_intCast_floor hx]
    push_cast
    ring
  have hfloor : ⌊x * 2 ^ 32⌋₊ = r := (Nat.floor_eq_iff (by positivity)).mpr ⟨hle, hlt⟩
  have hwhole : ⌊x⌋₊ * 2 ^ 32 ≤ r := by
    have hfloor_le : (⌊x⌋₊ : ℝ) ≤ x := Nat.floor_le hx
    rw [← hfloor]
    refine Nat.le_floor ?_
    rw [Nat.cast_mul, Nat.cast_pow, Nat.cast_ofNat]
    gcongr
  rw [fractionBits, hfract, Nat.floor_sub_natCast, hfloor]
  apply BitVec.eq_of_toNat_eq
  rw [BitVec.toNat_ofNat, BitVec.toNat_ofNat]
  omega

/-- A root is found between the powers of two neighbours. -/
theorem fractionBits_root {k p r : Nat} (hk : k ≠ 0) (hle : r ^ k ≤ p * 2 ^ (32 * k))
    (hlt : p * 2 ^ (32 * k) < (r + 1) ^ k) :
    fractionBits ((p : ℝ) ^ ((k : ℝ)⁻¹)) = BitVec.ofNat 32 r := by
  have hroot : ((p : ℝ) ^ ((k : ℝ)⁻¹)) ^ k = p := Real.rpow_inv_natCast_pow p.cast_nonneg hk
  have hnonneg : 0 ≤ (p : ℝ) ^ ((k : ℝ)⁻¹) := Real.rpow_nonneg p.cast_nonneg _
  generalize (p : ℝ) ^ ((k : ℝ)⁻¹) = x at hroot hnonneg
  have hpow : (x * 2 ^ 32) ^ k = (p * 2 ^ (32 * k) : ℕ) := by
    rw [mul_pow, hroot, ← pow_mul]
    push_cast
    rfl
  refine fractionBits_eq hnonneg ?_ ?_
  · refine le_of_pow_le_pow_left₀ hk (by positivity) ?_
    rw [hpow]
    exact_mod_cast hle
  · refine lt_of_pow_lt_pow_left₀ k (by positivity) ?_
    rw [hpow]
    exact_mod_cast hlt

/-! Compression. -/

/-- Eight words: the working variables, or a hash value. -/
structure Vars where
  (a b c d e f g h : Word)

def Vars.ofFn (f : Nat → Word) : Vars := ⟨f 0, f 1, f 2, f 3, f 4, f 5, f 6, f 7⟩

theorem Vars.ofFn_congr {f f' : Nat → Word} (h : ∀ i < 8, f i = f' i) : ofFn f = ofFn f' := by
  unfold ofFn
  rw [h 0 (by decide), h 1 (by decide), h 2 (by decide), h 3 (by decide), h 4 (by decide),
    h 5 (by decide), h 6 (by decide), h 7 (by decide)]

instance : Add Vars where
  add v w := ⟨v.a + w.a, v.b + w.b, v.c + w.c, v.d + w.d, v.e + w.e, v.f + w.f, v.g + w.g,
    v.h + w.h⟩

theorem Vars.add_eq (v w : Vars) : v + w =
    ⟨v.a + w.a, v.b + w.b, v.c + w.c, v.d + w.d, v.e + w.e, v.f + w.f, v.g + w.g, v.h + w.h⟩ := rfl

noncomputable def initialHash : Vars := .ofFn (rootBits 2)

/-- The message schedule. -/
def W (M : Nat → Word) (t : Nat) : Word :=
  if t < 16 then M t
  else smallSigma1 (W M (t - 2)) + W M (t - 7) + smallSigma0 (W M (t - 15)) + W M (t - 16)

theorem W_of_lt {M : Nat → Word} {t : Nat} (h : t < 16) : W M t = M t := by
  rw [W, if_pos h]

theorem W_of_ge {M : Nat → Word} {t : Nat} (h : ¬ t < 16) :
    W M t = smallSigma1 (W M (t - 2)) + W M (t - 7) + smallSigma0 (W M (t - 15)) + W M (t - 16) := by
  rw [W, if_neg h]

/-- The schedule reads sixteen words. -/
theorem W_congr {M M' : Nat → Word} (h : ∀ j < 16, M j = M' j) : W M = W M' := by
  funext t
  induction t using Nat.strongRecOn with
  | ind t ih =>
      by_cases ht : t < 16
      · rw [W_of_lt ht, W_of_lt ht, h t ht]
      · rw [W_of_ge ht, W_of_ge ht, ih (t - 2) (by omega), ih (t - 7) (by omega),
          ih (t - 15) (by omega), ih (t - 16) (by omega)]

noncomputable def round (M : Nat → Word) (v : Vars) (t : Nat) : Vars :=
  let T1 := v.h + bigSigma1 v.e + Ch v.e v.f v.g + K t + W M t
  let T2 := bigSigma0 v.a + Maj v.a v.b v.c
  { a := T1 + T2, b := v.a, c := v.b, d := v.c, e := v.d + T1, f := v.e, g := v.f, h := v.g }

noncomputable def compress (H : Vars) (M : Nat → Word) : Vars :=
  (List.range 64).foldl (round M) H + H

theorem compress_congr (H : Vars) {M M' : Nat → Word} (h : ∀ j < 16, M j = M' j) :
    compress H M = compress H M' := by
  have hround : round M = round M' := by
    funext v t
    simp only [round, W_congr h]
  rw [compress, compress, hround]

/-! Messages. -/

/-- The number of zeros after the one: the least solution of the congruence. -/
noncomputable def zeros (l : Nat) : Nat := sInf {k | (l + 1 + k) % 512 = 448}

noncomputable def pad (m : List Bool) : List Bool :=
  m ++ [true] ++ List.replicate (zeros m.length) false ++ Bits.ofNat 64 m.length

def word (m : List Bool) (i : Nat) : Word :=
  BitVec.ofNat 32 (Bits.value ((m.drop (32 * i)).take 32))

/-- The hash value after the first `i` blocks of a padded message. -/
noncomputable def hash (m : List Bool) : Nat → Vars
  | 0 => initialHash
  | i + 1 => compress (hash m i) fun j => word m (16 * i + j)

def Vars.bits (v : Vars) : List Bool :=
  [v.a, v.b, v.c, v.d, v.e, v.f, v.g, v.h].flatMap fun w => Bits.ofNat 32 w.toNat

noncomputable def sha256 (m : List Bool) : List Bool :=
  (hash (pad m) ((pad m).length / 512)).bits

theorem zeros_eq {l k : Nat} (h : (l + 1 + k) % 512 = 448) (hk : k < 512) : zeros l = k := by
  refine le_antisymm (Nat.sInf_le h) ?_
  have hmem : (l + 1 + zeros l) % 512 = 448 :=
    Nat.sInf_mem (s := {k | (l + 1 + k) % 512 = 448}) ⟨k, h⟩
  omega

end Fips180
