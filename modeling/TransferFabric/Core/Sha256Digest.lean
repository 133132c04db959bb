import Mathlib.Data.List.GetD
import TransferFabric.Core.Integrity
import TransferFabric.Foundation.Fips180

/-!
The digest against FIPS 180-4. The tables of the source are the standard's
roots of primes, one round and one schedule step are the standard's, and a
block of bytes is compressed as its bits are. The buffered updates keep the
whole blocks of what they were given and the rest of it, wherever the pieces
were cut; the padding loop ends in a block the standard's padding ends in.

The length field wraps at `2 ^ 61` bytes, and nothing is claimed from there on.
-/

namespace TransferFabric

open Blocks

namespace Sha256

/-! Constants. -/

def firstPrimes : List Nat :=
  [2, 3, 5, 7, 11, 13, 17, 19, 23, 29, 31, 37, 41, 43, 47, 53, 59, 61, 67, 71, 73, 79, 83, 89, 97,
   101, 103, 107, 109, 113, 127, 131, 137, 139, 149, 151, 157, 163, 167, 173, 179, 181, 191, 193,
   197, 199, 211, 223, 227, 229, 233, 239, 241, 251, 257, 263, 269, 271, 277, 281, 283, 293, 307,
   311]

theorem firstPrimes_eq : Fips180.primes = firstPrimes := by decide +kernel

/-- The word continues a root of `p` after its integer part. -/
def ContinuesRoot (k p i : Nat) (w : UInt32) : Prop :=
  (i * 2 ^ 32 + w.toNat) ^ k ≤ p * 2 ^ (32 * k) ∧ p * 2 ^ (32 * k) < (i * 2 ^ 32 + w.toNat + 1) ^ k

instance (k p i : Nat) (w : UInt32) : Decidable (ContinuesRoot k p i w) :=
  inferInstanceAs (Decidable (_ ∧ _))

theorem toBitVec_eq_rootBits {k t i : Nat} {w : UInt32} (hk : k ≠ 0)
    (h : ContinuesRoot k (firstPrimes.getD t 0) i w) : w.toBitVec = Fips180.rootBits k t := by
  rw [Fips180.rootBits, firstPrimes_eq, Fips180.fractionBits_root hk h.1 h.2]
  apply BitVec.eq_of_toNat_eq
  rw [BitVec.toNat_ofNat, UInt32.toNat_toBitVec]
  have := w.toNat_lt
  omega

theorem roundConstants_eq {t : Nat} (ht : t < 64) :
    (roundConstants.getD t 0).toBitVec = Fips180.K t := by
  have hall : ∀ t < 64, ∃ i ∈ List.range 8,
      ContinuesRoot 3 (firstPrimes.getD t 0) i (roundConstants.getD t 0) := by decide +kernel
  obtain ⟨i, -, hroot⟩ := hall t ht
  exact toBitVec_eq_rootBits (by decide) hroot

/-- The eight words of the state. -/
def vars (state : List UInt32) : Fips180.Vars := .ofFn fun i => (state.getD i 0).toBitVec

theorem vars_initial : vars initial.state = Fips180.initialHash := by
  have hall : ∀ t < 8, ∃ i ∈ List.range 8,
      ContinuesRoot 2 (firstPrimes.getD t 0) i (initial.state.getD t 0) := by decide +kernel
  refine Fips180.Vars.ofFn_congr fun t ht => ?_
  obtain ⟨i, -, hroot⟩ := hall t ht
  exact toBitVec_eq_rootBits (by decide) hroot

/-! Compression. -/

theorem rotr_toBitVec (x n : UInt32) (hpos : 0 < n.toNat) (hlt : n.toNat < 32) :
    (rotr x n).toBitVec = x.toBitVec.rotateRight n.toNat := by
  have hright : (n.toBitVec % 32).toNat = n.toNat := by
    rw [BitVec.toNat_umod, UInt32.toNat_toBitVec]
    exact Nat.mod_eq_of_lt hlt
  have hleft : ((32 - n).toBitVec % 32).toNat = 32 - n.toNat := by
    have hsub : (32 - n).toNat = 32 - n.toNat :=
      UInt32.toNat_sub_of_le 32 n (UInt32.le_iff_toNat_le.mpr (Nat.le_of_lt hlt))
    rw [BitVec.toNat_umod, UInt32.toNat_toBitVec, hsub]
    exact Nat.mod_eq_of_lt (Nat.sub_lt (by decide) hpos)
  unfold rotr BitVec.rotateRight BitVec.rotateRightAux
  rw [UInt32.toBitVec_or, UInt32.toBitVec_shiftRight, UInt32.toBitVec_shiftLeft,
    BitVec.ushiftRight_eq', BitVec.shiftLeft_eq', hright, hleft, Nat.mod_eq_of_lt hlt]

def Working.vars (v : Working) : Fips180.Vars :=
  ⟨v.a.toBitVec, v.b.toBitVec, v.c.toBitVec, v.d.toBitVec, v.e.toBitVec, v.f.toBitVec,
    v.g.toBitVec, v.h.toBitVec⟩

theorem roundStep_vars {w : List UInt32} {M : Nat → Fips180.Word} {t : Nat} (ht : t < 64)
    (hw : (w.getD t 0).toBitVec = Fips180.W M t) (v : Working) :
    (roundStep w v t).vars = Fips180.round M v.vars t := by
  unfold roundStep Fips180.round Working.vars ch maj Fips180.bigSigma0 Fips180.bigSigma1
    Fips180.Ch Fips180.Maj
  simp (disch := decide) only [UInt32.toBitVec_add, UInt32.toBitVec_xor, UInt32.toBitVec_and,
    UInt32.toBitVec_not, rotr_toBitVec, UInt32.reduceToNat, hw, roundConstants_eq ht]

/-- The schedule as far as it has been built. -/
structure Scheduled (M : Nat → Fips180.Word) (n : Nat) (w : List UInt32) : Prop where
  length : w.length = n
  words : ∀ t < n, (w.getD t 0).toBitVec = Fips180.W M t

theorem Scheduled.step {M : Nat → Fips180.Word} {n : Nat} {w : List UInt32} (hn : 16 ≤ n)
    (h : Scheduled M n w) : Scheduled M (n + 1) (scheduleStep w n) := by
  have hlt : ¬ n < 16 := Nat.not_lt.mpr hn
  have hlength : (scheduleStep w n).length = n + 1 := by
    rw [scheduleStep, List.length_append, h.length, List.length_singleton]
  refine ⟨hlength, fun t ht => ?_⟩
  rcases Nat.lt_succ_iff_lt_or_eq.mp ht with hold | rfl
  · rw [← h.words t hold, scheduleStep, List.getD_append _ _ _ _ (h.length.symm ▸ hold)]
  · have hlast : (scheduleStep w t).getD t 0 = _ :=
      List.getD_append_right w _ 0 t (Nat.le_of_eq h.length)
    rw [hlast, h.length, Nat.sub_self, List.getD_cons_zero, Fips180.W_of_ge hlt,
      ← h.words _ (by omega), ← h.words _ (by omega), ← h.words _ (by omega),
      ← h.words _ (by omega)]
    have hshift : ∀ x : Fips180.Word, x >>> (UInt32.toBitVec 3 % 32) = x >>> 3 ∧
        x >>> (UInt32.toBitVec 10 % 32) = x >>> 10 := fun _ => ⟨rfl, rfl⟩
    unfold Fips180.smallSigma0 Fips180.smallSigma1
    simp (disch := decide) only [UInt32.toBitVec_add, UInt32.toBitVec_xor, rotr_toBitVec,
      UInt32.reduceToNat, UInt32.toBitVec_shiftRight, hshift]
    ac_rfl

theorem schedule_words (p : List Byte) {t : Nat} (ht : t < 64) :
    ((schedule p).getD t 0).toBitVec = Fips180.W (fun j => (blockWord p j).toBitVec) t := by
  have hstart : Scheduled (fun j => (blockWord p j).toBitVec) 16
      ((List.range 16).map (blockWord p)) := by
    refine ⟨by simp, fun t ht => ?_⟩
    rw [Fips180.W_of_lt ht]
    simp [ht]
  have hrun : ∀ k, Scheduled (fun j => (blockWord p j).toBitVec) (16 + k)
      ((List.range' 16 k).foldl scheduleStep ((List.range 16).map (blockWord p))) := by
    intro k
    induction k with
    | zero => exact hstart
    | succ k ih =>
        rw [List.range'_1_concat, List.foldl_append]
        exact ih.step (Nat.le_add_right 16 k)
  exact (hrun 48).words t ht

theorem rounds_vars (p : List Byte) (v : Working) {n : Nat} (hn : n ≤ 64) :
    ((List.range n).foldl (roundStep (schedule p)) v).vars =
      (List.range n).foldl (Fips180.round fun j => (blockWord p j).toBitVec) v.vars := by
  induction n with
  | zero => rfl
  | succ n ih =>
      rw [List.range_succ, List.foldl_append, List.foldl_append, ← ih (by omega)]
      exact roundStep_vars hn (schedule_words p hn) _

theorem compress_vars (state : List UInt32) (p : List Byte) :
    vars (compress state p) =
      Fips180.compress (vars state) fun j => (blockWord p j).toBitVec := by
  have hrounds := rounds_vars p ⟨state.getD 0 0, state.getD 1 0, state.getD 2 0, state.getD 3 0,
    state.getD 4 0, state.getD 5 0, state.getD 6 0, state.getD 7 0⟩ (Nat.le_refl 64)
  have hvars : vars state = Working.vars ⟨state.getD 0 0, state.getD 1 0, state.getD 2 0,
    state.getD 3 0, state.getD 4 0, state.getD 5 0, state.getD 6 0, state.getD 7 0⟩ := rfl
  rw [Fips180.compress, hvars, ← hrounds, Fips180.Vars.add_eq]
  unfold vars compress Fips180.Vars.ofFn Working.vars
  simp only [List.getD_cons_zero, List.getD_cons_succ, UInt32.toBitVec_add, BitVec.add_comm]

/-! Blocks of bytes and their bits. -/

/-- Four bytes, most significant first. -/
theorem toNat_bigEndian (a b c d : Byte) :
    ((a.toUInt32 <<< 24) ||| (b.toUInt32 <<< 16) ||| (c.toUInt32 <<< 8) ||| d.toUInt32).toNat =
      ((a.toNat * 2 ^ 8 + b.toNat) * 2 ^ 8 + c.toNat) * 2 ^ 8 + d.toNat := by
  have hb := b.toNat_lt
  have hc := c.toNat_lt
  have hd := d.toNat_lt
  have hshift : ∀ (x : Byte) (k : UInt32), k.toNat ≤ 24 →
      (x.toUInt32 <<< k).toNat = x.toNat * 2 ^ k.toNat := by
    intro x k hk
    have hx : x.toNat * 2 ^ k.toNat < 2 ^ 8 * 2 ^ 24 :=
      Nat.mul_lt_mul_of_lt_of_le x.toNat_lt (Nat.pow_le_pow_right (by decide) hk) (by decide)
    rw [UInt32.toNat_shiftLeft, UInt8.toNat_toUInt32, Nat.mod_eq_of_lt (by omega : k.toNat < 32),
      Nat.shiftLeft_eq]
    exact Nat.mod_eq_of_lt hx
  have hor : ∀ x y k : Nat, y < 2 ^ k → x * 2 ^ k ||| y = x * 2 ^ k + y := by
    intro x y k hy
    rw [← Nat.shiftLeft_eq, Nat.shiftLeft_add_eq_or_of_lt hy]
  rw [UInt32.toNat_or, UInt32.toNat_or, UInt32.toNat_or, hshift a 24 (by decide),
    hshift b 16 (by decide), hshift c 8 (by decide), UInt8.toNat_toUInt32,
    show (24 : UInt32).toNat = 24 from rfl, show (16 : UInt32).toNat = 16 from rfl,
    show (8 : UInt32).toNat = 8 from rfl, hor _ _ 24 (by omega),
    show a.toNat * 2 ^ 24 + b.toNat * 2 ^ 16 = (a.toNat * 2 ^ 8 + b.toNat) * 2 ^ 16 by ring,
    hor _ _ 16 (by omega),
    show (a.toNat * 2 ^ 8 + b.toNat) * 2 ^ 16 + c.toNat * 2 ^ 8 =
      ((a.toNat * 2 ^ 8 + b.toNat) * 2 ^ 8 + c.toNat) * 2 ^ 8 by ring,
    hor _ _ 8 hd]

theorem take_four {p : List Byte} {a : Nat} (h : a + 4 ≤ p.length) :
    (p.drop a).take 4 = [p.getD a 0, p.getD (a + 1) 0, p.getD (a + 2) 0, p.getD (a + 3) 0] := by
  have hget : ∀ k, p.getD (a + k) 0 = (p.drop a).getD k 0 := by
    intro k
    rw [List.getD_eq_getElem?_getD, List.getD_eq_getElem?_getD, List.getElem?_drop]
  have hlen : 4 ≤ (p.drop a).length := by
    rw [List.length_drop]
    omega
  rw [hget 1, hget 2, hget 3, show p.getD a 0 = _ from hget 0]
  generalize p.drop a = q at hlen
  rcases q with _ | ⟨w, _ | ⟨x, _ | ⟨y, _ | ⟨z, rest⟩⟩⟩⟩
  · cases hlen
  · exact absurd hlen (by simp)
  · exact absurd hlen (by simp)
  · exact absurd hlen (by simp)
  · rfl

theorem value_four (a b c d : Byte) :
    Bits.value (Bits.ofBytes [a, b, c, d]) =
      ((a.toNat * 2 ^ 8 + b.toNat) * 2 ^ 8 + c.toNat) * 2 ^ 8 + d.toNat := by
  have ha := a.toNat_lt
  have hb := b.toNat_lt
  have hc := c.toNat_lt
  have hd := d.toNat_lt
  simp only [Bits.ofBytes_cons, Bits.ofBytes_nil, List.append_nil, Bits.value_append,
    Bits.value_ofNat, List.length_append, Bits.length_ofNat]
  omega

theorem blockWord_bits {p : List Byte} {j : Nat} (h : j * 4 + 4 ≤ p.length) :
    (blockWord p j).toBitVec =
      BitVec.ofNat 32 (Bits.value (Bits.ofBytes ((p.drop (j * 4)).take 4))) := by
  rw [take_four h, value_four, ← toNat_bigEndian]
  apply BitVec.eq_of_toNat_eq
  rw [BitVec.toNat_ofNat]
  exact (Nat.mod_eq_of_lt (blockWord p j).toNat_lt).symm

theorem word_block {l : List Byte} {i j : Nat} (hi : 64 * i + 64 ≤ l.length) (hj : j < 16) :
    Fips180.word (Bits.ofBytes l) (16 * i + j) = (blockWord (block 64 l i) j).toBitVec := by
  have hblock : (block 64 l i).length = 64 := by
    rw [block, List.length_take, List.length_drop]
    omega
  have hsame : ((block 64 l i).drop (j * 4)).take 4 = (l.drop (4 * (16 * i + j))).take 4 := by
    rw [block, List.drop_take, List.drop_drop, List.take_take, Nat.min_eq_left (by omega)]
    congr 2
    omega
  rw [blockWord_bits (by omega), hsame, Fips180.word, ← Bits.take_ofBytes, ← Bits.drop_ofBytes,
    show 32 * (16 * i + j) = 8 * (4 * (16 * i + j)) by omega]

/-- The first `k` blocks of a byte string, compressed. -/
theorem vars_blocks {l : List Byte} {k : Nat} (hk : 64 * k ≤ l.length) :
    vars (((List.range k).map (block 64 l)).foldl compress initial.state) =
      Fips180.hash (Bits.ofBytes l) k := by
  induction k with
  | zero => exact vars_initial
  | succ k ih =>
      rw [List.range_succ, List.map_append, List.foldl_append, List.map_singleton, List.foldl_cons,
        List.foldl_nil, compress_vars, ih (by omega), Fips180.hash]
      refine Fips180.compress_congr _ fun j hj => ?_
      exact (word_block (by omega) hj).symm

/-- The byte of a word at a shift. -/
theorem byteAt_bits (w k : UInt32) (hk : k.toNat < 32) :
    Bits.ofNat 8 ((w >>> k) &&& 0xFF).toUInt8.toNat = Bits.ofNat 8 (w.toNat / 2 ^ k.toNat) := by
  rw [UInt32.toNat_toUInt8, UInt32.toNat_and, UInt32.toNat_shiftRight, Nat.mod_eq_of_lt hk,
    Nat.shiftRight_eq_div_pow, show (0xFF : UInt32).toNat = 2 ^ 8 - 1 from rfl,
    Nat.and_two_pow_sub_one_eq_mod, Bits.ofNat_mod, Bits.ofNat_mod]

theorem word_bits (w : UInt32) :
    Bits.ofBytes [((w >>> 24) &&& 0xFF).toUInt8, ((w >>> 16) &&& 0xFF).toUInt8,
      ((w >>> 8) &&& 0xFF).toUInt8, (w &&& 0xFF).toUInt8] = Bits.ofNat 32 w.toNat := by
  have hlast : w &&& 0xFF = (w >>> (0 : UInt32)) &&& 0xFF := by rw [UInt32.shiftRight_zero]
  rw [hlast, Bits.ofBytes_cons, Bits.ofBytes_cons, Bits.ofBytes_cons, Bits.ofBytes_cons,
    byteAt_bits w 24 (by decide), byteAt_bits w 16 (by decide), byteAt_bits w 8 (by decide),
    byteAt_bits w 0 (by decide)]
  exact (Bits.ofNat_bytes 4 w.toNat).symm

theorem stateBytes_bits (state : List UInt32) :
    Bits.ofBytes (stateBytes state) = (vars state).bits := by
  have hwords : Bits.ofBytes (stateBytes state) =
      (List.range 8).flatMap fun k => Bits.ofNat 32 (state.getD k 0).toNat := by
    rw [stateBytes, Bits.ofBytes, List.flatMap_assoc]
    exact congrArg List.flatten (List.map_congr_left fun k _ => word_bits (state.getD k 0))
  rw [hwords, show List.range 8 = [0, 1, 2, 3, 4, 5, 6, 7] from rfl]
  simp only [Fips180.Vars.bits, vars, Fips180.Vars.ofFn, List.flatMap_cons, List.flatMap_nil,
    UInt32.toNat_toBitVec]

theorem lengthBytes_bits (n : UInt64) : Bits.ofBytes (lengthBytes n) = Bits.ofNat 64 n.toNat := by
  have hbyte : ∀ k < 8, Bits.ofNat 8 ((n >>> UInt64.ofNat (56 - 8 * k)) &&& 0xFF).toUInt8.toNat =
      Bits.ofNat 8 (n.toNat / 2 ^ (8 * (8 - 1 - k))) := by
    intro k hk
    have hshift : (UInt64.ofNat (56 - 8 * k)).toNat % 64 = 8 * (8 - 1 - k) := by
      rw [UInt64.toNat_ofNat']
      omega
    rw [UInt64.toNat_toUInt8, UInt64.toNat_and, UInt64.toNat_shiftRight, hshift,
      Nat.shiftRight_eq_div_pow, show (0xFF : UInt64).toNat = 2 ^ 8 - 1 from rfl,
      Nat.and_two_pow_sub_one_eq_mod, Bits.ofNat_mod, Bits.ofNat_mod]
  rw [show 64 = 8 * 8 from rfl, Bits.ofNat_bytes, Bits.ofBytes, lengthBytes, List.flatMap_map]
  refine congrArg List.flatten (List.map_congr_left fun k hk => ?_)
  exact hbyte k (List.mem_range.mp hk)

/-! Updates. -/

/-- What the pieces so far amount to: their whole blocks compressed in order, the rest in the
buffer, and their length. -/
structure Absorbed (l : List Byte) (s : Sha256) : Prop where
  state : s.state = (whole 64 l).foldl compress initial.state
  buffer : s.buffer = rest 64 l
  total : s.totalLen = UInt64.ofNat l.length

variable {l : List Byte} {s : Sha256}

theorem absorbed_initial : Absorbed [] initial := ⟨rfl, rfl, rfl⟩

theorem Absorbed.length_buffer (h : Absorbed l s) : s.buffer.length = l.length % 64 := by
  rw [h.buffer, length_rest]

theorem Absorbed.buffer_lt (h : Absorbed l s) : s.buffer.length < 64 := by
  rw [h.length_buffer]
  exact Nat.mod_lt _ (by decide)

theorem absorb_blocks (b : Byte) (hstate : s.state = (whole 64 l).foldl compress initial.state)
    (hbuffer : s.buffer = rest 64 l) :
    (s.absorb b).state = (whole 64 (l ++ [b])).foldl compress initial.state ∧
      (s.absorb b).buffer = rest 64 (l ++ [b]) := by
  have hlt : (rest 64 l).length < 64 := by
    rw [length_rest]
    exact Nat.mod_lt _ (by decide)
  unfold absorb
  split
  · rename_i hfull
    rw [hbuffer, List.length_append, List.length_singleton] at hfull
    obtain ⟨hwhole, hrest⟩ := push_full b hfull
    rw [hwhole, hrest, List.foldl_append, ← hstate, hbuffer]
    exact ⟨rfl, rfl⟩
  · rename_i hpart
    rw [hbuffer, List.length_append, List.length_singleton] at hpart
    obtain ⟨hwhole, hrest⟩ := push_part b (Nat.lt_of_le_of_ne hlt hpart)
    rw [hwhole, hrest, ← hbuffer]
    exact ⟨hstate, rfl⟩

theorem Absorbed.update (h : Absorbed l s) (data : List Byte) :
    Absorbed (l ++ data) (s.update data) := by
  have hfold : ∀ (data l : List Byte) (s : Sha256),
      s.state = (whole 64 l).foldl compress initial.state → s.buffer = rest 64 l →
      (data.foldl absorb s).state = (whole 64 (l ++ data)).foldl compress initial.state ∧
        (data.foldl absorb s).buffer = rest 64 (l ++ data) := by
    intro data
    induction data with
    | nil =>
        intro l s hstate hbuffer
        rw [List.append_nil]
        exact ⟨hstate, hbuffer⟩
    | cons b data ih =>
        intro l s hstate hbuffer
        obtain ⟨hstate, hbuffer⟩ := absorb_blocks b hstate hbuffer
        rw [List.append_cons]
        exact ih _ _ hstate hbuffer
  obtain ⟨hstate, hbuffer⟩ := hfold data l s h.state h.buffer
  rw [update_eq_absorb s data h.buffer_lt]
  refine ⟨hstate, hbuffer, ?_⟩
  rw [h.total, List.length_append, UInt64.ofNat_add]

theorem Absorbed.updates (h : Absorbed l s) (pieces : List (List Byte)) :
    Absorbed (l ++ pieces.flatten) (pieces.foldl Sha256.update s) := by
  induction pieces generalizing l s with
  | nil =>
      rw [List.flatten_nil, List.append_nil]
      exact h
  | cons data pieces ih =>
      rw [List.flatten_cons, ← List.append_assoc]
      exact ih (h.update data)

/-! Padding. -/

/-- The padding loop adds the zeros that are missing to the eight last bytes of a block. -/
theorem Absorbed.padZeros (h : Absorbed l s) {k fuel : Nat} (hk : k < 64)
    (hend : (l.length + k) % 64 = 56) (hfuel : k ≤ fuel) :
    Absorbed (l ++ List.replicate k 0) (padZeros fuel s) := by
  induction k generalizing l s fuel with
  | zero =>
      have hstop : ¬ s.buffer.length ≠ 56 := fun hne => hne (h.length_buffer.trans hend)
      have hdone : Sha256.padZeros fuel s = s := by
        cases fuel with
        | zero => rfl
        | succ fuel => rw [Sha256.padZeros, if_neg hstop]
      rw [hdone, List.replicate_zero, List.append_nil]
      exact h
  | succ k ih =>
      obtain ⟨fuel, rfl⟩ : ∃ n, fuel = n + 1 := ⟨fuel - 1, by omega⟩
      have hgo : s.buffer.length ≠ 56 := by
        rw [h.length_buffer]
        omega
      rw [Sha256.padZeros, if_pos hgo, List.replicate_succ, List.append_cons]
      refine ih (h.update [0]) (by omega) ?_ (by omega)
      rw [List.length_append, List.length_singleton]
      omega

theorem padZeros_more {n : Nat} (m : Nat) (h : (padZeros n s).buffer.length = 56) :
    padZeros (n + m) s = padZeros n s := by
  induction n generalizing s with
  | zero =>
      cases m with
      | zero => rfl
      | succ m =>
          have hstop : ¬ s.buffer.length ≠ 56 := not_not.mpr h
          show padZeros (0 + (m + 1)) s = s
          rw [Nat.zero_add, padZeros, if_neg hstop]
  | succ n ih =>
      rw [Nat.succ_add, padZeros, padZeros]
      split
      · rename_i hgo
        rw [padZeros, if_pos hgo] at h
        exact ih h
      · rfl

/-- The number of zero bytes between the marker and the length. -/
def zeroBytes (n : Nat) : Nat := (119 - n % 64) % 64

def padding (n : Nat) : List Byte :=
  [0x80] ++ List.replicate (zeroBytes n) 0 ++ lengthBytes (UInt64.ofNat n * 8)

theorem Absorbed.padded (h : Absorbed l s) {fuel : Nat} (hfuel : 64 ≤ fuel) :
    Absorbed (l ++ [0x80] ++ List.replicate (zeroBytes l.length) 0)
      (Sha256.padZeros fuel (s.update [0x80])) := by
  have hlt : zeroBytes l.length < 64 := Nat.mod_lt _ (by decide)
  refine (h.update [0x80]).padZeros hlt ?_ (by omega)
  rw [List.length_append, List.length_singleton, zeroBytes]
  omega

/-- The loop ends, with room for the length, and more time does not change its end. -/
theorem Absorbed.padding_ends (h : Absorbed l s) {fuel : Nat} (hfuel : 64 ≤ fuel) :
    (Sha256.padZeros fuel (s.update [0x80])).buffer.length = 56 ∧
      Sha256.padZeros fuel (s.update [0x80]) = Sha256.padZeros 64 (s.update [0x80]) := by
  have hend : (Sha256.padZeros 64 (s.update [0x80])).buffer.length = 56 := by
    rw [(h.padded (Nat.le_refl 64)).length_buffer, List.length_append, List.length_append,
      List.length_singleton, List.length_replicate, zeroBytes]
    omega
  obtain ⟨m, rfl⟩ := Nat.exists_eq_add_of_le hfuel
  have hmore := padZeros_more m hend
  exact ⟨by rw [hmore, hend], hmore⟩

theorem Absorbed.digest (h : Absorbed l s) :
    s.digest = stateBytes ((whole 64 (l ++ padding l.length)).foldl compress initial.state) := by
  have hpadded := (h.padded (Nat.le_refl 64)).update (lengthBytes (s.totalLen * 8))
  show stateBytes ((Sha256.padZeros 64 (s.update [0x80])).update
    (lengthBytes (s.totalLen * 8))).state = _
  rw [hpadded.state, h.total, padding]
  simp only [List.append_assoc]

/-- The padding is the standard's. -/
theorem pad_bits (h : l.length < 2 ^ 61) :
    Fips180.pad (Bits.ofBytes l) = Bits.ofBytes (l ++ padding l.length) := by
  have hzeros : Fips180.zeros (Bits.ofBytes l).length = 7 + 8 * zeroBytes l.length := by
    refine Fips180.zeros_eq ?_ ?_
    · rw [Bits.length_ofBytes, zeroBytes]
      omega
    · rw [zeroBytes]
      omega
  have hlength : (UInt64.ofNat l.length * 8).toNat = (Bits.ofBytes l).length := by
    rw [UInt64.toNat_mul, UInt64.toNat_ofNat', Bits.length_ofBytes]
    show l.length % 2 ^ 64 * 8 % 2 ^ 64 = _
    omega
  rw [Fips180.pad, hzeros, padding, Bits.ofBytes_append, Bits.ofBytes_append, Bits.ofBytes_append,
    Bits.ofBytes_replicate_zero, lengthBytes_bits, hlength, ← List.replicate_append_replicate]
  simp only [List.append_assoc]
  rfl

theorem Absorbed.digest_bits (h : Absorbed l s) (hl : l.length < 2 ^ 61) :
    Bits.ofBytes s.digest = Fips180.sha256 (Bits.ofBytes l) := by
  have hlen : (Bits.ofBytes (l ++ padding l.length)).length / 512 =
      (l ++ padding l.length).length / 64 := by
    rw [Bits.length_ofBytes]
    omega
  rw [h.digest, stateBytes_bits, Fips180.sha256, pad_bits hl, hlen, whole,
    vars_blocks (Nat.mul_div_le _ 64)]

def reset (_ : Sha256) : Sha256 := initial

/-- However a message of less than `2 ^ 61` bytes is cut into updates after a reset, the digest
is the standard's. Before it the whole blocks have been compressed, each once and in order, and
the rest is buffered; the padding loop ends in a block that leaves room for the length. -/
theorem digest_correct (s₀ : Sha256) (pieces : List (List Byte))
    (hlen : pieces.flatten.length < 2 ^ 61) :
    Bits.ofBytes (pieces.foldl update s₀.reset).digest =
        Fips180.sha256 (Bits.ofBytes pieces.flatten) ∧
      (pieces.foldl update s₀.reset).buffer.length < 64 ∧
      (∃ blocks : List (List Byte), (∀ b ∈ blocks, b.length = 64) ∧
        pieces.flatten = blocks.flatten ++ (pieces.foldl update s₀.reset).buffer ∧
        (pieces.foldl update s₀.reset).state = blocks.foldl compress initial.state) ∧
      ∀ fuel ≥ 64,
        (padZeros fuel ((pieces.foldl update s₀.reset).update [0x80])).buffer.length = 56 ∧
        padZeros fuel ((pieces.foldl update s₀.reset).update [0x80]) =
          padZeros 64 ((pieces.foldl update s₀.reset).update [0x80]) := by
  have h : Absorbed pieces.flatten (pieces.foldl update s₀.reset) :=
    absorbed_initial.updates pieces
  refine ⟨h.digest_bits hlen, h.buffer_lt, ?_, fun fuel hfuel => h.padding_ends hfuel⟩
  refine ⟨whole 64 pieces.flatten, fun b hb => length_of_mem_whole hb, ?_, h.state⟩
  rw [h.buffer, flatten_whole_append_rest]

/-- The message `abc`, in three pieces. -/
theorem digest_abc :
    Fips180.sha256 (Bits.ofBytes [0x61, 0x62, 0x63]) = Bits.ofBytes
      [0xba, 0x78, 0x16, 0xbf, 0x8f, 0x01, 0xcf, 0xea, 0x41, 0x41, 0x40, 0xde, 0x5d, 0xae, 0x22, 0x23,
       0xb0, 0x03, 0x61, 0xa3, 0x96, 0x17, 0x7a, 0x9c, 0xb4, 0x10, 0xff, 0x61, 0xf2, 0x00, 0x15,
       0xad] := by
  have hdigest : ([[0x61], [], [0x62, 0x63]].foldl update initial.reset).digest =
      [0xba, 0x78, 0x16, 0xbf, 0x8f, 0x01, 0xcf, 0xea, 0x41, 0x41, 0x40, 0xde, 0x5d, 0xae, 0x22, 0x23,
       0xb0, 0x03, 0x61, 0xa3, 0x96, 0x17, 0x7a, 0x9c, 0xb4, 0x10, 0xff, 0x61, 0xf2, 0x00, 0x15,
       0xad] := by decide +kernel
  rw [← hdigest]
  exact (digest_correct initial [[0x61], [], [0x62, 0x63]] (by decide)).1.symm

end Sha256

end TransferFabric
