import Brasa.Buffer.Crc
import Brasa.Lib.Lfsr

/-!
# Brasa.Buffer.Bitwise

The CRC-32 as it is defined, **one bit at a time**: a register of 32 bits that
shifts towards its low end with the polynomial as feedback. Both functions of
`CRC.cpp` compute it, and it detects every burst of up to 32 bits.
-/

namespace Brasa.Buffer

open Brasa.Lib

/-- The polynomial of CRC-32, reflected. -/
def polynomial : UInt32 := 0xedb88320

/-- One bit of the message goes into the register. -/
def crcBit (crc : UInt32) (bit : Bool) : UInt32 :=
  if (crc &&& 1 == 1) != bit then (crc >>> 1) ^^^ polynomial else crc >>> 1

/-- The bits of a byte, the least significant one first. -/
def byteBits (byte : UInt8) : List Bool := (List.range 8).map byte.toBitVec.getLsbD

/-- The bits of a buffer: bit `j` of byte `i` has the position `8 * i + j`. -/
def bufBits (buf : List UInt8) : List Bool := buf.flatMap byteBits

/-- The CRC-32 of a buffer, bit by bit. -/
def crc32Bitwise (buf : List UInt8) : UInt32 := ~~~(bufBits buf).foldl crcBit 0xffffffff

/-- The bytes of a 64-bit value, the least significant one first. -/
def littleEndian (value : UInt64) : List UInt8 :=
  (List.range 8).map fun i => (value >>> (8 * i).toUInt64).toUInt8

@[simp] theorem byteBits_length (byte : UInt8) : (byteBits byte).length = 8 := rfl

/-! ### The register -/

theorem low_bit (crc : UInt32) : (crc &&& 1 == 1) = crc.toBitVec.getLsbD 0 := by
  have hlow : (crc &&& 1).toBitVec = Lfsr.bit 32 (crc.toBitVec.getLsbD 0) := by
    rw [UInt32.toBitVec_and]
    exact BitVec.and_one_eq_setWidth_ofBool_getLsbD
  rw [Bool.eq_iff_iff, beq_iff_eq, ← UInt32.toBitVec_inj, hlow]
  cases crc.toBitVec.getLsbD 0 <;> decide

theorem crcBit_toBitVec (crc : UInt32) (bit : Bool) :
    (crcBit crc bit).toBitVec = Lfsr.feed polynomial.toBitVec crc.toBitVec bit := by
  have hout : ((crc &&& 1 == 1) != bit)
      = (crc.toBitVec ^^^ Lfsr.bit 32 bit).getLsbD 0 := by
    rw [low_bit, BitVec.getLsbD_xor, Lfsr.getLsbD_bit]
    rfl
  have hmove : (crc.toBitVec ^^^ Lfsr.bit 32 bit) >>> 1 = crc.toBitVec >>> 1 := by
    rw [BitVec.ushiftRight_xor_distrib]
    cases bit <;> exact BitVec.xor_zero
  rw [crcBit, Lfsr.feed, Lfsr.shift, hmove, hout]
  cases (crc.toBitVec ^^^ Lfsr.bit 32 bit).getLsbD 0 with
  | false => exact BitVec.xor_zero.symm
  | true => rfl

theorem foldl_crcBit_toBitVec (bits : List Bool) (crc : UInt32) :
    (bits.foldl crcBit crc).toBitVec = Lfsr.absorb polynomial.toBitVec crc.toBitVec bits := by
  induction bits generalizing crc with
  | nil => rfl
  | cons bit bits ih => rw [List.foldl_cons, ih, crcBit_toBitVec, Lfsr.absorb_cons]

/-! ### The table -/

theorem testBit_0xff (i : ℕ) : Nat.testBit 0xff i = decide (i < 8) := by
  rw [show 0xff = 2 ^ 8 - 1 from rfl, Nat.testBit_two_pow_sub_one]

/-- Every entry of the table is its index after eight shifts. -/
theorem crcTable_toList : crcTable.toList.map UInt32.toBitVec
    = (List.range 256).map fun i =>
      (Lfsr.shift polynomial.toBitVec)^[8] (BitVec.ofNat 32 i) := by
  decide +kernel

theorem crcTable_getD {i : ℕ} (h : i < 256) : (crcTable.getD i 0).toBitVec
    = (Lfsr.shift polynomial.toBitVec)^[8] (BitVec.ofNat 32 i) := by
  have hentry : (crcTable.toList.map UInt32.toBitVec)[i]?
      = some ((Lfsr.shift polynomial.toBitVec)^[8] (BitVec.ofNat 32 i)) := by
    rw [crcTable_toList, List.getElem?_map, List.getElem?_range h, Option.map_some]
  rw [List.getElem?_map, Array.getElem?_toList, Option.map_eq_some_iff] at hentry
  obtain ⟨entry, hget, hentry⟩ := hentry
  rw [Array.getD_eq_getD_getElem?, hget, ← hentry, Option.getD_some]

theorem word_byteBits (byte : UInt8) :
    Lfsr.word 32 (byteBits byte) = byte.toUInt32.toBitVec := by
  apply BitVec.eq_of_getLsbD_eq
  intro i hi
  rw [Lfsr.getLsbD_word, UInt8.toBitVec_toUInt32, BitVec.getLsbD_setWidth, byteBits,
    List.getD_eq_getElem?_getD, List.getElem?_map]
  by_cases h : i < 8
  · simp [h]
  · simp [h, BitVec.getLsbD_of_ge byte.toBitVec i (by omega)]

theorem getLsbD_0xff (i : ℕ) : (0xff#32).getLsbD i = decide (i < 8) := by
  rw [BitVec.getLsbD_ofNat, testBit_0xff]
  by_cases h : i < 8
  · simp [h, Nat.lt_trans h (by decide : 8 < 32)]
  · simp [h]

/-- Eight shifts of a register: the entry of the table for its low byte, and its other
bytes moved down. -/
theorem shifts_eight (crc : UInt32) :
    (Lfsr.shift polynomial.toBitVec)^[8] crc.toBitVec
      = (crcTable.getD (crc &&& 0xff).toNat 0).toBitVec ^^^ (crc.toBitVec >>> 8) := by
  have hindex : (crc &&& 0xff).toNat < 256 := by
    rw [UInt32.toNat_and]
    exact Nat.lt_of_le_of_lt Nat.and_le_right (by decide)
  have hlow : BitVec.ofNat 32 (crc &&& 0xff).toNat = crc.toBitVec &&& 0xff#32 := by
    rw [UInt32.toNat, BitVec.ofNat_toNat, BitVec.setWidth_eq]
    rfl
  rw [crcTable_getD hindex, hlow]
  apply Lfsr.shifts_split
  · intro i hi
    rw [BitVec.getLsbD_and, getLsbD_0xff, decide_eq_true hi, Bool.and_true]
  · apply BitVec.eq_of_getLsbD_eq
    intro i hi
    rw [BitVec.getLsbD_ushiftRight, BitVec.getLsbD_and, getLsbD_0xff,
      decide_eq_false (show ¬8 + i < 8 by omega), Bool.and_false, BitVec.getLsbD_zero]

/-- `DO1` puts the eight bits of the byte into the register. -/
theorem do1_toBitVec (crc : UInt32) (byte : UInt8) :
    (do1 crc byte).toBitVec
      = Lfsr.absorb polynomial.toBitVec crc.toBitVec (byteBits byte) := by
  have hhigh : byte.toUInt32.toBitVec >>> 8 = 0#32 := by
    apply BitVec.eq_of_getLsbD_eq
    intro i hi
    simp
  rw [Lfsr.absorb_eq_shifts (by rw [byteBits_length]; decide), word_byteBits, byteBits_length,
    ← UInt32.toBitVec_xor, shifts_eight, UInt32.toBitVec_xor crc, BitVec.ushiftRight_xor_distrib,
    hhigh, BitVec.xor_zero]
  rfl

/-! ### The loops -/

theorem crcLoop_eq_foldl (buf : List UInt8) (crc : UInt32) :
    crcLoop crc buf = buf.foldl do1 crc := by
  induction crc, buf using crcLoop.induct with
  | case1 crc b₀ b₁ b₂ b₃ b₄ b₅ b₆ b₇ rest ih =>
    rw [crcLoop, ih]
    simp only [do8, do4, do2, List.foldl_cons]
  | case2 crc tail h => rw [crcLoop]; exact h

theorem crcLoop_toBitVec (buf : List UInt8) (crc : UInt32) :
    (crcLoop crc buf).toBitVec
      = Lfsr.absorb polynomial.toBitVec crc.toBitVec (bufBits buf) := by
  rw [crcLoop_eq_foldl]
  induction buf generalizing crc with
  | nil => rfl
  | cons byte buf ih =>
    rw [List.foldl_cons, ih, do1_toBitVec, bufBits, bufBits, List.flatMap_cons, Lfsr.absorb_append]

theorem crcLoop_bitwise (buf : List UInt8) (crc : UInt32) :
    crcLoop crc buf = (bufBits buf).foldl crcBit crc := by
  rw [← UInt32.toBitVec_inj, crcLoop_toBitVec, foldl_crcBit_toBitVec]

theorem xor_allOnes (crc : UInt32) : crc ^^^ 0xffffffff = ~~~crc := by
  rw [← UInt32.toBitVec_inj, UInt32.toBitVec_xor, UInt32.toBitVec_not]
  exact BitVec.xor_allOnes

/-! ### The unrolled copy -/

/-- A line of the unrolled function is `DO1` of the low byte of what is left of the
value. -/
theorem crcValueStep_eq (crc : UInt32) (value : UInt64) :
    crcValueStep crc value = (do1 crc value.toUInt8, value >>> 8) := by
  have hindex : ((crc.toUInt64 ^^^ (value &&& 0xff)) &&& 0xff).toNat
      = ((crc ^^^ value.toUInt8.toUInt32) &&& 0xff).toNat := by
    apply Nat.eq_of_testBit_eq
    intro i
    simp only [UInt64.toNat_and, UInt32.toNat_and, UInt64.toNat_xor, UInt32.toNat_xor,
      UInt32.toNat_toUInt64, UInt8.toNat_toUInt32, UInt64.toNat_toUInt8, UInt64.reduceToNat,
      UInt32.reduceToNat, Nat.testBit_and, Nat.testBit_xor, Nat.testBit_mod_two_pow, testBit_0xff]
    by_cases h : i < 8 <;> simp [h]
  rw [crcValueStep, do1, hindex]

theorem crc32Value_eq (value : UInt64) : crc32Value value = crc32 (littleEndian value) := by
  simp only [crc32Value, crcValueStep_eq, littleEndian, List.range, List.range.loop, List.map]
  rfl

/-- **Both functions compute the CRC-32 as it is defined, bit by bit.** -/
theorem crc32_bitwise :
    (∀ buf : List UInt8, crc32 buf = crc32Bitwise buf) ∧
      ∀ value : UInt64, crc32Value value = crc32 (littleEndian value) := by
  refine ⟨fun buf => ?_, crc32Value_eq⟩
  rw [crc32, crcLoop_bitwise, xor_allOnes, crc32Bitwise]

example : crc32 [0x31, 0x32, 0x33, 0x34, 0x35, 0x36, 0x37, 0x38, 0x39] = 0xcbf43926 := by
  decide +kernel

/-! ### Bursts -/

/-- Bit `j` of byte `i`. -/
def bitAt (buf : List UInt8) (i j : ℕ) : Bool := (buf.getD i 0).toBitVec.getLsbD j

/-- All bits in which two buffers of one length differ lie within the 32 positions from
`s` on. -/
def Burst (a b : List UInt8) (s : ℕ) : Prop :=
  ∀ i < a.length, ∀ j < 8, bitAt a i j ≠ bitAt b i j → s ≤ 8 * i + j ∧ 8 * i + j < s + 32

instance (a b : List UInt8) (s : ℕ) : Decidable (Burst a b s) :=
  inferInstanceAs (Decidable (∀ i < a.length, ∀ j < 8, _ → _))

theorem bitAt_eq {buf : List UInt8} {i : ℕ} {byte : UInt8} (h : buf[i]? = some byte) (j : ℕ) :
    bitAt buf i j = byte.toBitVec.getLsbD j := by
  rw [bitAt, List.getD_eq_getElem?_getD, h, Option.getD_some]

theorem bufBits_getElem? (buf : List UInt8) (i : ℕ) {j : ℕ} (hj : j < 8) :
    (bufBits buf)[8 * i + j]? = buf[i]?.map fun byte => byte.toBitVec.getLsbD j := by
  induction buf generalizing i with
  | nil => rfl
  | cons byte buf ih =>
    rw [bufBits, List.flatMap_cons]
    cases i with
    | zero =>
      rw [List.getElem?_append_left (by rw [byteBits_length]; omega), byteBits, List.getElem?_map,
        List.getElem?_range (by omega)]
      simp
    | succ i =>
      rw [List.getElem?_append_right (by rw [byteBits_length]; omega), byteBits_length,
        show 8 * (i + 1) + j - 8 = 8 * i + j by omega, List.getElem?_cons_succ]
      exact ih i

theorem bufBits_length (buf : List UInt8) : (bufBits buf).length = 8 * buf.length := by
  induction buf with
  | nil => rfl
  | cons byte buf ih =>
    rw [bufBits, List.flatMap_cons, List.length_append, byteBits_length, List.length_cons]
    rw [bufBits] at ih
    omega

theorem bufBits_injective : Function.Injective bufBits := by
  intro a b h
  apply List.ext_getElem?
  intro i
  have hbit (j : ℕ) (hj : j < 8) : a[i]?.map (fun byte => byte.toBitVec.getLsbD j)
      = b[i]?.map fun byte => byte.toBitVec.getLsbD j := by
    rw [← bufBits_getElem? a i hj, ← bufBits_getElem? b i hj, h]
  cases ha : a[i]? with
  | none =>
    cases hb : b[i]? with
    | none => rfl
    | some y => simpa [ha, hb] using hbit 0 (by omega)
  | some x =>
    cases hb : b[i]? with
    | none => simpa [ha, hb] using hbit 0 (by omega)
    | some y =>
      have hxy : x.toBitVec = y.toBitVec := by
        apply BitVec.eq_of_getLsbD_eq
        intro j hj
        simpa [ha, hb] using hbit j hj
      rw [UInt8.toBitVec_inj.mp hxy]

/-- The polynomial feeds back into the bit that a shift frees. -/
theorem polynomial_top : polynomial.toBitVec.getLsbD 31 = true := by decide

theorem crc32_ne_of_burst {a b : List UInt8} {s : ℕ} (hlength : a.length = b.length)
    (hne : a ≠ b) (hburst : Burst a b s) : crc32 a ≠ crc32 b := by
  have hbits : ∀ q, (bufBits a)[q]? ≠ (bufBits b)[q]? → s ≤ q ∧ q < s + 32 := by
    intro q hq
    -- position `q` is bit `q % 8` of byte `q / 8`, which both buffers have or lack
    have hpos : q = 8 * (q / 8) + q % 8 := (Nat.div_add_mod q 8).symm
    have hj : q % 8 < 8 := Nat.mod_lt q (by decide)
    rw [hpos, bufBits_getElem? a _ hj, bufBits_getElem? b _ hj] at hq
    rw [hpos]
    cases ha : a[q / 8]? with
    | none =>
      have hb : b[q / 8]? = none := by rw [List.getElem?_eq_none_iff] at ha ⊢; omega
      exact absurd (by rw [ha, hb]) hq
    | some x =>
      have hlt := (List.getElem?_eq_some_iff.mp ha).1
      have hb : b[q / 8]? = some b[q / 8] := List.getElem?_eq_getElem (hlength ▸ hlt)
      refine hburst _ hlt _ hj fun h => hq ?_
      rw [bitAt_eq ha, bitAt_eq hb] at h
      rw [ha, hb, Option.map_some, Option.map_some, h]
  have hregister := Lfsr.absorb_burst (x := (0xffffffff : UInt32).toBitVec) polynomial_top
    (by rw [bufBits_length, bufBits_length, hlength]) (bufBits_injective.ne hne) hbits
  intro h
  rw [crc32, crc32, ← UInt32.toBitVec_inj, UInt32.toBitVec_xor, UInt32.toBitVec_xor,
    BitVec.xor_left_inj, crcLoop_toBitVec, crcLoop_toBitVec] at h
  exact hregister h

theorem littleEndian_length (value : UInt64) : (littleEndian value).length = 8 := rfl

/-- Bit `j` of byte `i` of a value is its bit `8 * i + j`. -/
theorem littleEndian_bit {value : UInt64} {i j : ℕ} (hi : i < 8) (hj : j < 8) :
    bitAt (littleEndian value) i j = value.toBitVec.getLsbD (8 * i + j) := by
  have hget : (littleEndian value)[i]? = some (value >>> (8 * i).toUInt64).toUInt8 := by
    rw [littleEndian, List.getElem?_map, List.getElem?_range hi, Option.map_some]
  rw [bitAt_eq hget]
  simp [hj, Nat.mod_eq_of_lt (show 8 * i < 64 by omega)]

theorem littleEndian_injective : Function.Injective littleEndian := by
  intro a b h
  rw [← UInt64.toBitVec_inj]
  apply BitVec.eq_of_getLsbD_eq
  intro k hk
  have hi : k / 8 < 8 := by omega
  have hj : k % 8 < 8 := Nat.mod_lt k (by decide)
  rw [← Nat.div_add_mod k 8, ← littleEndian_bit hi hj, h, littleEndian_bit hi hj]

theorem crc32Value_ne_of_burst {a b : UInt64} {s : ℕ} (hne : a ≠ b)
    (hburst : ∀ k < 64, (a ^^^ b).toBitVec.getLsbD k = true → s ≤ k ∧ k < s + 32) :
    crc32Value a ≠ crc32Value b := by
  have hbytes : Burst (littleEndian a) (littleEndian b) s := by
    intro i hi j hj hbit
    rw [littleEndian_length] at hi
    rw [littleEndian_bit hi hj, littleEndian_bit hi hj] at hbit
    apply hburst (8 * i + j) (by omega)
    rw [UInt64.toBitVec_xor, BitVec.getLsbD_xor, Bool.xor_iff_ne]
    exact hbit
  rw [crc32Value_eq, crc32Value_eq]
  exact crc32_ne_of_burst (by rw [littleEndian_length, littleEndian_length])
    (littleEndian_injective.ne hne) hbytes

/-- **The CRC-32 detects every burst of at most 32 bits.** -/
theorem crc32_burst :
    (∀ (a b : List UInt8) (s : ℕ), a.length = b.length → a ≠ b → Burst a b s →
      crc32 a ≠ crc32 b) ∧
    ∀ (a b : UInt64) (s : ℕ), a ≠ b →
      (∀ k < 64, (a ^^^ b).toBitVec.getLsbD k = true → s ≤ k ∧ k < s + 32) →
      crc32Value a ≠ crc32Value b :=
  ⟨fun _ _ _ hlength hne hburst => crc32_ne_of_burst hlength hne hburst,
    fun _ _ _ hne hburst => crc32Value_ne_of_burst hne hburst⟩

/-- A burst over five bytes, from the last bit of the first to the last but one of the
fifth. -/
theorem crc32_burst_five_bytes :
    crc32 [0x00, 0x00, 0x00, 0x00, 0x00] ≠ crc32 [0x80, 0xff, 0xff, 0xff, 0x7f] ∧
      crc32Value 0 ≠ crc32Value 0x7fffffff80 :=
  ⟨crc32_burst.1 _ _ 7 rfl (by decide) (by decide), crc32_burst.2 _ _ 7 (by decide) (by decide)⟩

end Brasa.Buffer
