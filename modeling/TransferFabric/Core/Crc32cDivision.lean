import TransferFabric.Core.Integrity
import TransferFabric.Foundation.Bits
import TransferFabric.Foundation.Crc

/-!
The table-driven CRC-32C against its definition. A byte that goes through the
table is eight bits that go through the division one at a time, so an update is
the serial division of the bits of its bytes, least significant bit first, and
its value the remainder. A burst of up to four bytes enters the register
without loss and stays there.
-/

namespace TransferFabric

open Polynomial

namespace Crc32c

/-- The generator without its leading term. -/
def generator : BitVec 32 := 0x1EDC6F41#32

/-- The bits of a byte string, each byte's least significant bit first. -/
def bits (data : List Byte) : List Bool := data.flatMap fun b => (Bits.ofNat 8 b.toNat).reverse

theorem reverse_generator : generator.reverse = 0x82F63B78#32 := by decide +kernel

theorem generator_constant : generator.reverse.getLsbD (32 - 1) = true := by decide +kernel

theorem bits_cons (b : Byte) (data : List Byte) :
    bits (b :: data) = (Bits.ofNat 8 b.toNat).reverse ++ bits data := rfl

theorem bits_append (a b : List Byte) : bits (a ++ b) = bits a ++ bits b := List.flatMap_append

theorem length_bits (data : List Byte) : (bits data).length = 8 * data.length := by
  induction data with
  | nil => rfl
  | cons b data ih =>
      rw [bits_cons, List.length_append, List.length_reverse, Bits.length_ofNat, ih,
        List.length_cons]
      omega

theorem bits_injective {a b : List Byte} (hlen : a.length = b.length) (h : bits a = bits b) :
    a = b := by
  induction a generalizing b with
  | nil => exact (List.eq_nil_of_length_eq_zero hlen.symm).symm
  | cons x a ih =>
      cases b with
      | nil => cases hlen
      | cons y b =>
          rw [bits_cons, bits_cons] at h
          obtain ⟨hhead, htail⟩ := List.append_inj h (by simp)
          have hvalue := congrArg Bits.value (List.reverse_inj.mp hhead)
          rw [Bits.value_ofNat, Bits.value_ofNat, Nat.mod_eq_of_lt x.toNat_lt,
            Nat.mod_eq_of_lt y.toNat_lt] at hvalue
          rw [UInt8.toNat_inj.mp hvalue, ih (Nat.succ.inj hlen) htail]

/-! One byte. -/

theorem toBitVec_tableStep (c : UInt32) :
    (tableStep c).toBitVec = Crc.step generator.reverse c.toBitVec := by
  have hlow : (c &&& 1).toBitVec = BitVec.setWidth 32 (BitVec.ofBool (c.toBitVec.getLsbD 0)) := by
    rw [UInt32.toBitVec_and]
    exact BitVec.and_one_eq_setWidth_ofBool_getLsbD
  have hshift : (c >>> 1).toBitVec = c.toBitVec >>> 1 := UInt32.toBitVec_shiftRight c 1
  unfold tableStep Crc.step
  rw [reverse_generator]
  cases hbit : c.toBitVec.getLsbD 0 with
  | false =>
      rw [hbit] at hlow
      have hzero : c &&& 1 = 0 := UInt32.toBitVec_inj.mp hlow
      rw [if_pos hzero, if_neg Bool.false_ne_true, hshift]
  | true =>
      rw [hbit] at hlow
      have hone : ¬ c &&& 1 = 0 := fun hzero => by
        rw [hzero] at hlow
        exact absurd hlow (by decide)
      rw [if_neg hone, if_pos rfl, UInt32.toBitVec_xor, hshift, BitVec.xor_comm]
      rfl

theorem toBitVec_table (i : UInt32) :
    (table i).toBitVec = Crc.steps generator.reverse 8 i.toBitVec := by
  unfold table
  simp only [toBitVec_tableStep, Crc.steps]

theorem word_byte (b : Byte) :
    (Crc.word (Bits.ofNat 8 b.toNat).reverse : BitVec 32) = b.toUInt32.toBitVec := by
  have hall : ∀ n < 256, (Crc.word (Bits.ofNat 8 n).reverse : BitVec 32) = BitVec.ofNat 32 n := by
    decide +kernel
  rw [hall _ b.toNat_lt]
  apply BitVec.eq_of_toNat_eq
  rw [BitVec.toNat_ofNat, UInt32.toNat_toBitVec, UInt8.toNat_toUInt32]
  have := b.toNat_lt
  omega

/-- A register is its low byte and the other bytes moved up. -/
theorem split_byte (x : BitVec 32) : x = (x &&& 0xFF#32) ^^^ ((x >>> 8) <<< 8) := by
  have hmask : ∀ i < 32, (0xFF#32).getLsbD i = decide (i < 8) := by decide
  apply BitVec.eq_of_getLsbD_eq
  intro i hi
  rw [BitVec.getLsbD_xor, BitVec.getLsbD_and, hmask i hi, BitVec.getLsbD_shiftLeft,
    BitVec.getLsbD_ushiftRight]
  by_cases hlow : i < 8
  · simp [hlow]
  · simp [hlow, hi, show 8 + (i - 8) = i by omega]

/-- Eight steps are those of the low byte, with the other bytes moved down. -/
theorem steps_eight (x : BitVec 32) :
    Crc.steps generator.reverse 8 x =
      Crc.steps generator.reverse 8 (x &&& 0xFF#32) ^^^ (x >>> 8) := by
  have htop : ∀ i, 32 ≤ i + 8 → (x >>> 8).getLsbD i = false := by
    intro i hi
    rw [BitVec.getLsbD_ushiftRight]
    exact BitVec.getLsbD_of_ge _ _ (by omega)
  have hsplit := congrArg (Crc.steps generator.reverse 8) (split_byte x)
  rwa [Crc.steps_xor, Crc.steps_shiftLeft _ 8 htop] at hsplit

theorem toBitVec_updateByte (c : UInt32) (b : Byte) :
    (updateByte c b).toBitVec =
      Crc.serial generator.reverse c.toBitVec (Bits.ofNat 8 b.toNat).reverse := by
  have hhigh : b.toUInt32.toBitVec >>> 8 = 0#32 := by
    apply BitVec.eq_of_toNat_eq
    rw [BitVec.toNat_ushiftRight, UInt32.toNat_toBitVec, UInt8.toNat_toUInt32,
      Nat.shiftRight_eq_div_pow]
    exact Nat.div_eq_of_lt b.toNat_lt
  rw [Crc.serial_eq_steps _ _ _ (by simp), word_byte, List.length_reverse, Bits.length_ofNat,
    steps_eight, BitVec.ushiftRight_xor_distrib, hhigh, BitVec.xor_zero, updateByte,
    UInt32.toBitVec_xor, toBitVec_table, UInt32.toBitVec_and, UInt32.toBitVec_xor,
    UInt32.toBitVec_shiftRight]
  rfl

theorem toBitVec_update (c : UInt32) (data : List Byte) :
    (update c data).toBitVec = Crc.serial generator.reverse c.toBitVec (bits data) := by
  induction data generalizing c with
  | nil => rfl
  | cons b data ih =>
      rw [bits_cons, Crc.serial_append, ← toBitVec_updateByte]
      exact ih _

theorem updates_flatten (c : UInt32) (pieces : List (List Byte)) :
    pieces.foldl update c = update c pieces.flatten := by
  induction pieces generalizing c with
  | nil => rfl
  | cons data pieces ih => rw [List.foldl_cons, ih, List.flatten_cons, update_append]

theorem toBitVec_value (c : UInt32) : (value c).toBitVec = c.toBitVec ^^^ BitVec.allOnes 32 := by
  rw [value, UInt32.toBitVec_not, BitVec.xor_allOnes]

/-- However the bytes are cut into updates, the value is that of the bit-serial division, and
it is the remainder: the register starts with ones, and ones are added to it at the end. -/
theorem value_remainder (pieces : List (List Byte)) :
    (value (pieces.foldl update initial)).toBitVec =
        Crc.serial generator.reverse (BitVec.allOnes 32) (bits pieces.flatten) ^^^
          BitVec.allOnes 32 ∧
      Crc.poly (value (pieces.foldl update initial)).toBitVec =
        (X ^ (8 * pieces.flatten.length) * Crc.poly (BitVec.allOnes 32) +
            X ^ 32 * Crc.message (bits pieces.flatten)) %ₘ (X ^ 32 + Crc.plain generator) +
          Crc.poly (BitVec.allOnes 32) := by
  have hserial : (value (pieces.foldl update initial)).toBitVec =
      Crc.serial generator.reverse (BitVec.allOnes 32) (bits pieces.flatten) ^^^
        BitVec.allOnes 32 := by
    rw [toBitVec_value, updates_flatten, toBitVec_update]
    rfl
  refine ⟨hserial, ?_⟩
  rw [hserial, Crc.poly_xor, Crc.poly_serial _ (by decide), Crc.poly_reverse, length_bits]

/-! Bursts. -/

/-- Data that differs in up to four bytes in a row leaves different registers. -/
theorem update_burst {c : UInt32} {x y post : List Byte} (hlen : x.length = y.length)
    (hshort : x.length ≤ 4) (h : update c (x ++ post) = update c (y ++ post)) : x = y := by
  have hbits := congrArg UInt32.toBitVec h
  rw [toBitVec_update, toBitVec_update, bits_append, bits_append, Crc.serial_append,
    Crc.serial_append] at hbits
  have hfirst := Crc.serial_injective generator_constant hbits
  rw [Crc.serial_eq_iff generator_constant (by rw [length_bits, length_bits, hlen])
    (by rw [length_bits]; omega)] at hfirst
  exact bits_injective hlen hfirst

end Crc32c

end TransferFabric
