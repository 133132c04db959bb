import Mathlib
import TransferFabric.Core.Types
import TransferFabric.Foundation.Words

/-!
Transfer ids: how they are drawn, printed and read. The entropy counter is a
word that every draw moves on by one odd constant; a draw mixes the counter in
two rounds. The calls are taken one after another: two threads that draw at once
race on the counter, which is not the subject here.

A text is a string of bytes, as the source holds it.
-/

namespace TransferFabric

open Words

namespace TransferId

/-! Drawing. -/

/-- What a draw adds to the counter. -/
def increment : UInt64 := 0x9E3779B97F4A7C15

def mix (counter : UInt64) : UInt64 :=
  let z := counter
  let z := (z ^^^ (z >>> 30)) * 0xBF58476D1CE4E5B9
  let z := (z ^^^ (z >>> 27)) * 0x94D049BB133111EB
  z ^^^ (z >>> 31)

/-- The drawn word and the counter it leaves. -/
def nextEntropy (counter : UInt64) : UInt64 × UInt64 :=
  let counter := counter + increment
  (mix counter, counter)

def generate (counter : UInt64) : TransferId × UInt64 :=
  let (hi, counter) := nextEntropy counter
  let (lo, counter) := nextEntropy counter
  ({ hi, lo }, counter)

/-- The ids of `n` calls made one after another. -/
def generated : Nat → UInt64 → List TransferId
  | 0, _ => []
  | n + 1, counter => (generate counter).1 :: generated n (generate counter).2

theorem xorShift_inj (s : UInt64) (hs : 0 < s.toNat % 64) :
    Function.Injective fun z : UInt64 => z ^^^ (z >>> s) := by
  intro x y h
  have hbits := congrArg UInt64.toBitVec h
  simp only [UInt64.toBitVec_xor, UInt64.toBitVec_shiftRight, BitVec.ushiftRight_eq'] at hbits
  have hshift : 0 < (s.toBitVec % 64).toNat := by
    rw [BitVec.toNat_umod]
    exact hs
  exact UInt64.toBitVec_inj.mp (xorShift_injective _ hshift hbits)

theorem mix_injective : Function.Injective mix := by
  have hfirst := mul_injective (a := 0xBF58476D1CE4E5B9) (b := 0x96DE1B173F119089) (by decide)
  have hsecond := mul_injective (a := 0x94D049BB133111EB) (b := 0x319642B2D24D8EC3) (by decide)
  intro x y h
  have h₁ := xorShift_inj 31 (by decide) h
  have h₂ := xorShift_inj 27 (by decide) (hsecond h₁)
  exact xorShift_inj 30 (by decide) (hfirst h₂)

/-- The increment runs through every word before it repeats one. -/
theorem counter_inj (seed : UInt64) {m k : Nat} (hm : m < 2 ^ 64) (hk : k < 2 ^ 64)
    (h : seed + UInt64.ofNat m * increment = seed + UInt64.ofNat k * increment) : m = k := by
  have hmul := mul_injective (a := increment) (b := 0xF1DE83E19937733D) (by decide)
    ((UInt64.add_right_inj seed).mp h)
  have hnat := congrArg UInt64.toNat hmul
  rwa [toNat_ofNat_lt _ hm, toNat_ofNat_lt _ hk] at hnat

/-- The id drawn when `2 * k` words have been drawn before. -/
def drawn (seed : UInt64) (k : Nat) : TransferId where
  hi := mix (seed + UInt64.ofNat (2 * k + 1) * increment)
  lo := mix (seed + UInt64.ofNat (2 * k + 2) * increment)

theorem counter_succ (seed : UInt64) (m : Nat) :
    seed + UInt64.ofNat m * increment + increment = seed + UInt64.ofNat (m + 1) * increment := by
  rw [UInt64.ofNat_add, UInt64.add_mul, UInt64.add_assoc]
  simp

theorem generated_eq (seed : UInt64) (n k : Nat) :
    generated n (seed + UInt64.ofNat (2 * k) * increment) =
      (List.range' k n).map (drawn seed) := by
  induction n generalizing k with
  | zero => rfl
  | succ n ih =>
      rw [generated, List.range'_succ, List.map_cons, ← ih (k + 1)]
      simp only [generate, nextEntropy, counter_succ, drawn]
      rfl

theorem drawn_inj (seed : UInt64) {j k : Nat} (hj : j < 2 ^ 63) (hk : k < 2 ^ 63)
    (h : drawn seed j = drawn seed k) : j = k := by
  have hcounter := mix_injective (congrArg TransferId.hi h)
  have := counter_inj seed (by omega) (by omega) hcounter
  omega

/-- The two words of an id come from neighbouring counters, so they are never both zero. -/
theorem drawn_valid (seed : UInt64) (k : Nat) : (drawn seed k).valid = true := by
  rw [valid, decide_eq_true_iff]
  rintro ⟨hhi, hlo⟩
  have hcounter := mix_injective (hhi.trans hlo.symm)
  rw [← counter_succ seed (2 * k + 1)] at hcounter
  have hzero : (0 : UInt64) = increment := by
    rw [← UInt64.add_right_inj, UInt64.add_zero]
    exact hcounter
  exact absurd hzero (by decide)

/-- Whatever the seed, calls made one after another give different ids, and no null id. -/
theorem generated_distinct (seed : UInt64) (n : Nat) (hn : n < 2 ^ 63) :
    (generated n seed).length = n ∧ (generated n seed).Nodup ∧
      ∀ id ∈ generated n seed, id.valid = true := by
  have heq : generated n seed = (List.range' 0 n).map (drawn seed) := by
    rw [← generated_eq, Nat.mul_zero, show UInt64.ofNat 0 = 0 from rfl, UInt64.zero_mul,
      UInt64.add_zero]
  rw [heq]
  refine ⟨by simp, ?_, fun id hid => ?_⟩
  · refine List.Nodup.map_on (fun j hj k hk h => ?_) List.nodup_range'
    rw [List.mem_range'_1] at hj hk
    exact drawn_inj seed (by omega) (by omega) h
  · obtain ⟨k, -, rfl⟩ := List.mem_map.mp hid
    exact drawn_valid seed k

/-- Three calls from a zero seed. -/
theorem generated_distinct_three : (generated 3 0).Nodup :=
  (generated_distinct 0 3 (by decide)).2.1

/-! Text. -/

/-- The lower case digit `%x` prints. -/
def hexDigit (d : Nat) : Byte :=
  if d < 10 then '0'.toUInt8 + UInt8.ofNat d else 'a'.toUInt8 + UInt8.ofNat (d - 10)

/-- `%016llx`. -/
def hexWord (v : UInt64) : List Byte := (fixed 16 16 v.toNat).map hexDigit

def toString (id : TransferId) : List Byte := hexWord id.hi ++ hexWord id.lo

/-- The value of a digit, or 255. -/
def hex (c : Byte) : UInt32 :=
  if '0'.toUInt8 ≤ c ∧ c ≤ '9'.toUInt8 then (c - '0'.toUInt8).toUInt32
  else if 'a'.toUInt8 ≤ c ∧ c ≤ 'f'.toUInt8 then (c - 'a'.toUInt8 + 10).toUInt32
  else if 'A'.toUInt8 ≤ c ∧ c ≤ 'F'.toUInt8 then (c - 'A'.toUInt8 + 10).toUInt32
  else 255

/-- The loop of `parse` from index `i` on, which a bad digit leaves. -/
def parseLoop : Nat → UInt64 → UInt64 → List Byte → Option TransferId
  | _, hi, lo, [] => some { hi, lo }
  | i, hi, lo, c :: s =>
      let v := hex c
      if v = 255 then none
      else if i < 16 then parseLoop (i + 1) ((hi <<< 4) ||| v.toUInt64) lo s
      else parseLoop (i + 1) hi ((lo <<< 4) ||| v.toUInt64) s

/-- Whether the text was accepted, and what the output argument then holds. -/
def parse (s : List Byte) (out : TransferId) : Bool × TransferId :=
  if s.length ≠ 32 then (false, out)
  else match parseLoop 0 0 0 s with
    | none => (false, out)
    | some id => (true, id)

/-- The hexadecimal digits of either case. -/
def IsHexDigit (c : Byte) : Prop := c ∈ "0123456789abcdefABCDEF".toUTF8.toList

instance (c : Byte) : Decidable (IsHexDigit c) := inferInstanceAs (Decidable (_ ∈ _))

def toLower (c : Byte) : Byte :=
  if 'A'.toUInt8 ≤ c ∧ c ≤ 'Z'.toUInt8 then c + 32 else c

/-- Everything there is to know about the digits, checked byte by byte. -/
theorem hex_spec (c : Byte) :
    (hex c ≠ 255 ↔ IsHexDigit c) ∧
      (IsHexDigit c → (hex c).toNat < 16 ∧ hexDigit (hex c).toNat = toLower c) := by
  revert c
  refine forall_byte ?_
  decide +kernel

theorem hexDigit_spec {d : Nat} (h : d < 16) :
    IsHexDigit (hexDigit d) ∧ (hex (hexDigit d)).toNat = d := by
  have hall : ∀ d < 16, IsHexDigit (hexDigit d) ∧ (hex (hexDigit d)).toNat = d := by
    decide +kernel
  exact hall d h

/-- What one half of the id has become after the digits of `s`. -/
def accumulate (half : UInt64) (s : List Byte) : UInt64 :=
  s.foldl (fun half c => (half <<< 4) ||| (hex c).toUInt64) half

/-- The loop takes every text of digits; the first sixteen go into the high half. -/
theorem parseLoop_eq (i : Nat) (hi lo : UInt64) (s : List Byte) :
    parseLoop i hi lo s = if ∀ c ∈ s, IsHexDigit c then
      some ⟨accumulate hi (s.take (16 - i)), accumulate lo (s.drop (16 - i))⟩ else none := by
  induction s generalizing i hi lo with
  | nil => simp [parseLoop, accumulate]
  | cons c s ih =>
      unfold parseLoop
      by_cases hc : IsHexDigit c
      · rw [if_neg ((hex_spec c).1.mpr hc)]
        by_cases hi16 : i < 16
        · rw [if_pos hi16, ih, show 16 - i = 16 - (i + 1) + 1 by omega, List.take_succ_cons,
            List.drop_succ_cons]
          simp [hc, accumulate]
        · rw [if_neg hi16, ih, show 16 - i = 0 by omega, show 16 - (i + 1) = 0 by omega]
          simp [hc, accumulate]
      · rw [if_pos (Decidable.not_not.mp fun hne => hc ((hex_spec c).1.mp hne))]
        simp [hc]

theorem toNat_shift_or (a : UInt64) (v : UInt32) (ha : a.toNat < 16 ^ 15) (hv : v.toNat < 16) :
    ((a <<< 4) ||| v.toUInt64).toNat = a.toNat * 16 + v.toNat := by
  have hshift : (a <<< 4).toNat = a.toNat <<< 4 := by
    rw [UInt64.toNat_shiftLeft, show (4 : UInt64).toNat % 64 = 4 from rfl]
    exact Nat.mod_eq_of_lt (by rw [Nat.shiftLeft_eq]; omega)
  rw [UInt64.toNat_or, hshift, UInt32.toNat_toUInt64, ← Nat.shiftLeft_add_eq_or_of_lt hv,
    Nat.shiftLeft_eq]

theorem toNat_accumulate {s : List Byte} (hlen : s.length ≤ 16) (hs : ∀ c ∈ s, IsHexDigit c) :
    (accumulate 0 s).toNat = value 16 (s.map fun c => (hex c).toNat) := by
  induction s using List.reverseRecOn with
  | nil => rfl
  | append_singleton s c ih =>
      rw [List.length_append, List.length_singleton] at hlen
      have hdigit : ∀ c ∈ s, IsHexDigit c := fun c hc => hs c (List.mem_append_left _ hc)
      have hvalue := ih (by omega) hdigit
      have hbound : value 16 (s.map fun c => (hex c).toNat) < 16 ^ 15 := by
        refine Nat.lt_of_lt_of_le (value_lt ?_) (Nat.pow_le_pow_right (by decide) ?_)
        · intro d hd
          obtain ⟨c, hc, rfl⟩ := List.mem_map.mp hd
          exact ((hex_spec c).2 (hdigit c hc)).1
        · rw [List.length_map]
          omega
      rw [List.map_append, List.map_singleton, value_concat, ← hvalue,
        ← toNat_shift_or _ _ (hvalue ▸ hbound) ((hex_spec c).2 (hs c (by simp))).1]
      exact congrArg UInt64.toNat List.foldl_append

/-- Sixteen digits read and printed again are the digits in lower case. -/
theorem hexWord_accumulate {s : List Byte} (hlen : s.length = 16) (hs : ∀ c ∈ s, IsHexDigit c) :
    hexWord (accumulate 0 s) = s.map toLower := by
  have hfixed := @fixed_value 16 (s.map fun c => (hex c).toNat) fun d hd => by
    obtain ⟨c, hc, rfl⟩ := List.mem_map.mp hd
    exact ((hex_spec c).2 (hs c hc)).1
  rw [List.length_map, hlen] at hfixed
  rw [hexWord, toNat_accumulate (Nat.le_of_eq hlen) hs, hfixed, List.map_map]
  exact List.map_congr_left fun c hc => ((hex_spec c).2 (hs c hc)).2

@[simp] theorem length_hexWord (v : UInt64) : (hexWord v).length = 16 := by simp [hexWord]

theorem isHexDigit_of_mem_hexWord {v : UInt64} {c : Byte} (h : c ∈ hexWord v) : IsHexDigit c := by
  obtain ⟨d, hd, rfl⟩ := List.mem_map.mp h
  exact (hexDigit_spec (lt_of_mem_fixed (by decide) hd)).1

theorem accumulate_hexWord (v : UInt64) : accumulate 0 (hexWord v) = v := by
  apply UInt64.toNat_inj.mp
  rw [toNat_accumulate (by simp) fun c => isHexDigit_of_mem_hexWord, hexWord, List.map_map]
  have hdigits : (fixed 16 16 v.toNat).map ((fun c => (hex c).toNat) ∘ hexDigit) =
      fixed 16 16 v.toNat := by
    conv_rhs => rw [← List.map_id (fixed 16 16 v.toNat)]
    exact List.map_congr_left fun d hd => (hexDigit_spec (lt_of_mem_fixed (by decide) hd)).2
  rw [hdigits]
  exact value_fixed (show v.toNat < 16 ^ 16 from v.toNat_lt)

/-- The parser by cases: it takes thirty-two digits of either case and nothing else. -/
theorem parse_eq (s : List Byte) (out : TransferId) :
    parse s out = if s.length = 32 ∧ ∀ c ∈ s, IsHexDigit c then
      (true, ⟨accumulate 0 (s.take 16), accumulate 0 (s.drop 16)⟩) else (false, out) := by
  unfold parse
  rw [parseLoop_eq]
  by_cases hlen : s.length = 32
  · by_cases hs : ∀ c ∈ s, IsHexDigit c
    · rw [if_neg (not_not.mpr hlen), if_pos hs, if_pos ⟨hlen, hs⟩]
    · rw [if_neg (not_not.mpr hlen), if_neg hs, if_neg fun h => hs h.2]
  · rw [if_pos hlen, if_neg fun h => hlen h.1]

/-- Printing and parsing agree on every id; a text is accepted exactly when it is thirty-two
digits, it is then printed in lower case, and a rejected one leaves the output alone. -/
theorem parse_round_trip :
    (∀ id out : TransferId, parse id.toString out = (true, id)) ∧
      ∀ (s : List Byte) (out : TransferId),
        ((parse s out).1 = true ↔ s.length = 32 ∧ ∀ c ∈ s, IsHexDigit c) ∧
        ((parse s out).1 = true → (parse s out).2.toString = s.map toLower) ∧
        ((parse s out).1 = false → (parse s out).2 = out) := by
  refine ⟨fun id out => ?_, fun s out => ?_⟩
  · have hdigits : ∀ c ∈ id.toString, IsHexDigit c := by
      intro c hc
      rcases List.mem_append.mp hc with hc | hc <;> exact isHexDigit_of_mem_hexWord hc
    rw [parse_eq, if_pos ⟨by simp [toString], hdigits⟩, toString,
      List.take_left' (length_hexWord _), List.drop_left' (length_hexWord _), accumulate_hexWord,
      accumulate_hexWord]
  · rw [parse_eq]
    by_cases hs : s.length = 32 ∧ ∀ c ∈ s, IsHexDigit c
    · rw [if_pos hs]
      refine ⟨⟨fun _ => hs, fun _ => rfl⟩, fun _ => ?_, (fun h => by cases h)⟩
      have htake : ∀ c ∈ s.take 16, IsHexDigit c := fun c hc => hs.2 c (List.mem_of_mem_take hc)
      have hdrop : ∀ c ∈ s.drop 16, IsHexDigit c := fun c hc => hs.2 c (List.mem_of_mem_drop hc)
      rw [toString, hexWord_accumulate (by simp [hs.1]) htake,
        hexWord_accumulate (by simp [hs.1]) hdrop, ← List.map_append, List.take_append_drop]
    · rw [if_neg hs]
      exact ⟨⟨(fun h => by cases h), fun h => absurd h hs⟩, (fun h => by cases h), fun _ => rfl⟩

end TransferId

end TransferFabric
