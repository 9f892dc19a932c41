import Brasa.Buffer.Bitwise
import Brasa.Lib.Period
import Brasa.Lib.Remainder
import Mathlib.Tactic.NormNum.Prime

/-!
# Brasa.Buffer.Detect

Which changes the CRC-32 **detects**, exactly. It is the remainder of the message by the
generator, so a change goes unnoticed if and only if the generator divides it
(`crc32_remainder`); and for two flipped bits that is the case if and only if their distance
is a multiple of the period of the register, which is the longest that a register of 32 bits
can have (`crc32_two_bits`).
-/

namespace Brasa.Buffer

open Brasa.Lib Polynomial

/-! ### The period of the register -/

/-- The period of the polynomial of CRC-32, in bits. -/
def period : ℕ := 2 ^ 32 - 1

theorem shifts_period :
    (Lfsr.shift polynomial.toBitVec)^[period] (Lfsr.oneWord 32) = Lfsr.oneWord 32 := by
  rw [← Lfsr.power_eq_shifts (k := 32) (by decide)]
  decide +kernel

theorem prime_dvd_period {q : ℕ} (hq : q.Prime) (h : q ∣ period) :
    q ∈ [3, 5, 17, 257, 65537] := by
  have hperiod : period = 3 * 5 * 17 * 257 * 65537 := rfl
  have hmem {r : ℕ} (hr : r.Prime) (hqr : q ∣ r) : q = r :=
    (Nat.prime_dvd_prime_iff_eq hq hr).mp hqr
  rw [hperiod, hq.dvd_mul, hq.dvd_mul, hq.dvd_mul, hq.dvd_mul] at h
  rcases h with (((h | h) | h) | h) | h
  · simp [hmem (by norm_num) h]
  · simp [hmem (by norm_num) h]
  · simp [hmem (by norm_num) h]
  · simp [hmem (by norm_num) h]
  · simp [hmem (by norm_num) h]

theorem shifts_quotient {q : ℕ} (hq : q.Prime) (h : q ∣ period) :
    (Lfsr.shift polynomial.toBitVec)^[period / q] (Lfsr.oneWord 32) ≠ Lfsr.oneWord 32 := by
  have hpower : ∀ r ∈ [3, 5, 17, 257, 65537],
      Lfsr.power polynomial.toBitVec 32 (period / r) ≠ Lfsr.oneWord 32 := by decide +kernel
  have hlt : period / q < 2 ^ 32 :=
    Nat.lt_of_le_of_lt (Nat.div_le_self _ _) (by decide)
  rw [← Lfsr.power_eq_shifts hlt]
  exact hpower q (prime_dvd_period hq h)

/-- The register has the period `2 ^ 32 - 1`: it goes through all its words but the clear
one. -/
theorem shifts_one_iff {n : ℕ} :
    (Lfsr.shift polynomial.toBitVec)^[n] (Lfsr.oneWord 32) = Lfsr.oneWord 32 ↔ period ∣ n :=
  Lfsr.shifts_one_iff_dvd shifts_period fun _ hq h => shifts_quotient hq h

/-! ### Two flipped bits -/

/-- Two buffers of one length differ in the bits `q` and `r` and in no other one. -/
def TwoBits (a b : List UInt8) (q r : ℕ) : Prop :=
  ∀ i < a.length, ∀ j < 8, bitAt a i j ≠ bitAt b i j ↔ 8 * i + j = q ∨ 8 * i + j = r

instance (a b : List UInt8) (q r : ℕ) : Decidable (TwoBits a b q r) :=
  inferInstanceAs (Decidable (∀ i < a.length, ∀ j < 8, _ ↔ _))

/-- The bits in which two buffers differ, by position. -/
theorem bufBits_ne_iff {a b : List UInt8} (hlength : a.length = b.length) (k : ℕ) :
    (bufBits a)[k]? ≠ (bufBits b)[k]?
      ↔ k / 8 < a.length ∧ bitAt a (k / 8) (k % 8) ≠ bitAt b (k / 8) (k % 8) := by
  have hj : k % 8 < 8 := Nat.mod_lt k (by decide)
  conv_lhs => rw [← Nat.div_add_mod k 8, bufBits_getElem? a _ hj, bufBits_getElem? b _ hj]
  cases ha : a[k / 8]? with
  | none =>
    have hb : b[k / 8]? = none := by rw [List.getElem?_eq_none_iff] at ha ⊢; omega
    rw [List.getElem?_eq_none_iff] at ha
    simp [hb, show ¬k / 8 < a.length by omega]
  | some x =>
    have hlt := (List.getElem?_eq_some_iff.mp ha).1
    have hb : b[k / 8]? = some b[k / 8] := List.getElem?_eq_getElem (hlength ▸ hlt)
    rw [bitAt_eq ha, bitAt_eq hb, hb, Option.map_some, Option.map_some, ne_eq, Option.some_inj]
    exact (and_iff_right hlt).symm

/-- Two buffers have the same CRC if they leave the register the same. -/
theorem crc32_eq_iff (a b : List UInt8) : crc32 a = crc32 b ↔
    Lfsr.absorb polynomial.toBitVec (0xffffffff : UInt32).toBitVec (bufBits a)
      = Lfsr.absorb polynomial.toBitVec (0xffffffff : UInt32).toBitVec (bufBits b) := by
  rw [crc32, crc32, ← UInt32.toBitVec_inj, UInt32.toBitVec_xor, UInt32.toBitVec_xor,
    BitVec.xor_left_inj, crcLoop_toBitVec, crcLoop_toBitVec]

theorem crc32_eq_iff_of_twoBits {a b : List UInt8} {q r : ℕ} (hlength : a.length = b.length)
    (hqr : q < r) (hr : r < 8 * a.length) (hbits : TwoBits a b q r) :
    crc32 a = crc32 b ↔ period ∣ r - q := by
  rw [crc32_eq_iff, ← shifts_one_iff]
  refine Lfsr.absorb_two polynomial_top (by rw [bufBits_length, bufBits_length, hlength]) hqr
    (by rw [bufBits_length]; exact hr) fun k => ?_
  rw [bufBits_ne_iff hlength]
  constructor
  · rintro ⟨hk, hne⟩
    rw [← Nat.div_add_mod k 8]
    exact (hbits _ hk _ (Nat.mod_lt k (by decide))).mp hne
  · intro hk
    have hlt : k / 8 < a.length := by omega
    refine ⟨hlt, (hbits _ hlt _ (Nat.mod_lt k (by decide))).mpr ?_⟩
    rwa [Nat.div_add_mod k 8]

/-- **Two flipped bits leave the CRC-32 of a buffer unchanged if and only if their distance
is a multiple of `2 ^ 32 - 1`**; so those of a 64-bit value never do. -/
theorem crc32_two_bits :
    (∀ (a b : List UInt8) (q r : ℕ), a.length = b.length → q < r → r < 8 * a.length →
      TwoBits a b q r → (crc32 a = crc32 b ↔ 2 ^ 32 - 1 ∣ r - q)) ∧
    ∀ (a b : UInt64) (q r : ℕ), q < r → r < 64 →
      (∀ k < 64, (a ^^^ b).toBitVec.getLsbD k = true ↔ k = q ∨ k = r) →
      crc32Value a ≠ crc32Value b := by
  refine ⟨fun a b q r hlength hqr hr hbits => crc32_eq_iff_of_twoBits hlength hqr hr hbits, ?_⟩
  intro a b q r hqr hr hbits hcrc
  rw [crc32Value_eq, crc32Value_eq] at hcrc
  have htwo : TwoBits (littleEndian a) (littleEndian b) q r := by
    intro i hi j hj
    rw [littleEndian_length] at hi
    rw [littleEndian_bit hi hj, littleEndian_bit hi hj, ← hbits (8 * i + j) (by omega),
      UInt64.toBitVec_xor, BitVec.getLsbD_xor, Bool.xor_iff_ne]
  have hdvd := (crc32_eq_iff_of_twoBits (by rw [littleEndian_length, littleEndian_length]) hqr
    (by rw [littleEndian_length]; omega) htwo).mp hcrc
  have hle := Nat.le_of_dvd (by omega) hdvd
  have hperiod : period = 4294967295 := rfl
  omega

/-- Two bits that lie further apart than a burst of 32 bits reaches. -/
theorem crc32_two_bits_apart :
    crc32 [0x31, 0x32, 0x33, 0x34, 0x35, 0x36, 0x37, 0x38]
        ≠ crc32 [0x33, 0x32, 0x33, 0x34, 0x35, 0x36, 0x77, 0x38] ∧
      crc32Value 0 ≠ crc32Value 0x8000000000000001 := by
  refine ⟨fun h => ?_, crc32_two_bits.2 _ _ 0 63 (by decide) (by decide) (by decide +kernel)⟩
  have hdvd := (crc32_two_bits.1 _ _ 1 54 (by decide) (by decide) (by decide) (by decide)).mp h
  exact absurd hdvd (by decide)

/-! ### The remainder -/

/-- The generator of CRC-32, a polynomial over the field of two elements. -/
noncomputable def generator : (ZMod 2)[X] :=
  X ^ 32 + X ^ 26 + X ^ 23 + X ^ 22 + X ^ 16 + X ^ 12 + X ^ 11 + X ^ 10 + X ^ 8 + X ^ 7 + X ^ 5
    + X ^ 4 + X ^ 2 + X + 1

/-- The bits of a buffer as coefficients, the one of the first position with the highest
power. -/
noncomputable def message (buf : List UInt8) : (ZMod 2)[X] :=
  ∑ k ∈ Finset.range (8 * buf.length),
    C (Lfsr.coefficient (bitAt buf (k / 8) (k % 8))) * X ^ (8 * buf.length - 1 - k)

/-- The bits of a 64-bit value as coefficients, the lowest one with the highest power. -/
noncomputable def valueMessage (value : UInt64) : (ZMod 2)[X] :=
  ∑ k ∈ Finset.range 64, C (Lfsr.coefficient (value.toBitVec.getLsbD k)) * X ^ (63 - k)

/-- The polynomial of a register with all bits set, as it is at the start. -/
noncomputable def ones : (ZMod 2)[X] := ∑ i ∈ Finset.range 32, X ^ i

theorem divisor_polynomial : Lfsr.divisor polynomial.toBitVec = generator := by
  ext i
  simp only [Lfsr.divisor, generator, coeff_add, Lfsr.coeff_toPoly, coeff_X_pow, coeff_X, coeff_one,
    @eq_comm _ 1 i]
  by_cases h : i ≤ 32
  · -- the coefficients that either side may have
    have hcoeff : ∀ i ≤ 32, ((if i = 32 then 1 else 0) + if i < 32
        then Lfsr.coefficient (polynomial.toBitVec.getLsbD (32 - 1 - i)) else 0 : ZMod 2)
        = if i ∈ [32, 26, 23, 22, 16, 12, 11, 10, 8, 7, 5, 4, 2, 1, 0] then 1 else 0 := by decide
    rw [hcoeff i h]
    interval_cases i <;> rfl
  · have hne (k : ℕ) (hk : k ≤ 32) : (i = k) = False := eq_false (by omega)
    simp (disch := decide) only [hne, if_false, if_neg (show ¬i < 32 by omega), add_zero]

theorem message_eq (buf : List UInt8) : message buf = Lfsr.dividend (bufBits buf) := by
  rw [Lfsr.dividend_eq_sum, bufBits_length, message]
  refine Finset.sum_congr rfl fun k hk => ?_
  have hlt : k / 8 < buf.length := by rw [Finset.mem_range] at hk; omega
  have hbit := bufBits_getElem? buf (k / 8) (Nat.mod_lt k (by decide : 0 < 8))
  have hget : buf[k / 8]? = some buf[k / 8] := List.getElem?_eq_getElem hlt
  rw [Nat.div_add_mod, hget] at hbit
  rw [bitAt_eq hget, List.getD_eq_getElem?_getD, hbit]
  rfl

theorem message_littleEndian (value : UInt64) :
    message (littleEndian value) = valueMessage value := by
  rw [message, valueMessage, littleEndian_length]
  refine Finset.sum_congr rfl fun k hk => ?_
  have hk64 : k < 64 := Finset.mem_range.mp hk
  rw [littleEndian_bit (by omega) (Nat.mod_lt k (by decide)), Nat.div_add_mod]

theorem toPoly_ones : Lfsr.toPoly (0xffffffff : UInt32).toBitVec = ones := by
  have hset : ∀ i < 32, (0xffffffff : UInt32).toBitVec.getLsbD (32 - 1 - i) = true := by decide
  ext i
  rw [Lfsr.coeff_toPoly, ones, finsetSum_coeff]
  simp only [coeff_X_pow, Finset.sum_ite_eq, Finset.mem_range]
  by_cases h : i < 32
  · rw [if_pos h, if_pos h, hset i h]
    rfl
  · rw [if_neg h, if_neg h]

theorem toPoly_crc32 (buf : List UInt8) : Lfsr.toPoly (crc32 buf).toBitVec
    = (X ^ (8 * buf.length) * ones + X ^ 32 * message buf) %ₘ generator + ones := by
  rw [crc32, UInt32.toBitVec_xor, Lfsr.toPoly_xor, crcLoop_toBitVec,
    Lfsr.toPoly_absorb (by decide), bufBits_length, toPoly_ones, message_eq, divisor_polynomial]

theorem crc32_eq_iff_dvd {a b : List UInt8} (h : a.length = b.length) :
    crc32 a = crc32 b ↔ generator ∣ message a - message b := by
  rw [crc32_eq_iff, Lfsr.absorb_eq_iff (by decide) polynomial_top
    (by rw [bufBits_length, bufBits_length, h]), divisor_polynomial, message_eq, message_eq]

/-- **Both functions compute the remainder of the message by the generator**, the first 32
bits and the remainder complemented, so that a change goes unnoticed if and only if the
generator divides it. -/
theorem crc32_remainder :
    (∀ buf : List UInt8, Lfsr.toPoly (crc32 buf).toBitVec
      = (X ^ (8 * buf.length) * ones + X ^ 32 * message buf) %ₘ generator + ones) ∧
    (∀ value : UInt64, Lfsr.toPoly (crc32Value value).toBitVec
      = (X ^ 64 * ones + X ^ 32 * valueMessage value) %ₘ generator + ones) ∧
    (∀ a b : List UInt8, a.length = b.length →
      (crc32 a = crc32 b ↔ generator ∣ message a - message b)) ∧
    ∀ a b : UInt64, crc32Value a = crc32Value b ↔ generator ∣ valueMessage a - valueMessage b := by
  refine ⟨toPoly_crc32, fun value => ?_, fun a b h => crc32_eq_iff_dvd h, fun a b => ?_⟩
  · rw [crc32Value_eq, toPoly_crc32, message_littleEndian, littleEndian_length]
  · have hlength : (littleEndian a).length = (littleEndian b).length := by
      rw [littleEndian_length, littleEndian_length]
    rw [crc32Value_eq, crc32Value_eq, crc32_eq_iff_dvd hlength, message_littleEndian,
      message_littleEndian]

/-- The generator itself as a change: the CRC of a buffer and of the buffer with the
generator added to it. -/
theorem crc32_remainder_generator :
    generator ∣ message [0x00, 0x00, 0x00, 0x00, 0x00] - message [0x41, 0x06, 0x71, 0xdb, 0x01] ∧
      ¬generator ∣ message [0x31, 0x32] - message [0x32, 0x31] :=
  ⟨(crc32_remainder.2.2.1 _ _ (by decide)).mp (by decide +kernel),
    fun h => absurd ((crc32_remainder.2.2.1 _ _ (by decide)).mpr h) (by decide +kernel)⟩

end Brasa.Buffer
