import Brasa.Lib.Lfsr
import Mathlib

/-!
# Brasa.Lib.Remainder

What a shift register with linear feedback is for: it divides polynomials over the field
of two elements. The input bits are the coefficients of the dividend, the highest first,
the feedback word is the divisor without its leading term, and the register holds **the
remainder** (`toPoly_absorb`), its constant term in the highest bit.

So two inputs of one length leave the same register exactly if the divisor divides their
difference (`absorb_eq_iff`).
-/

namespace Brasa.Lib.Lfsr

open Polynomial

variable {w : ℕ} {p x y : BitVec w}

/-- A bit as a coefficient. -/
def coefficient (b : Bool) : ZMod 2 := if b then 1 else 0

/-- The polynomial that a word stands for, the constant term in its highest bit. -/
noncomputable def toPoly (x : BitVec w) : (ZMod 2)[X] :=
  ofFn w fun i => coefficient (x.getLsbD (w - 1 - i))

/-- The polynomial that the input bits stand for, the first one with the highest power. -/
noncomputable def dividend : List Bool → (ZMod 2)[X]
  | [] => 0
  | b :: bits => C (coefficient b) * X ^ bits.length + dividend bits

/-- The divisor: the feedback word and its leading term. -/
noncomputable def divisor (p : BitVec w) : (ZMod 2)[X] := X ^ w + toPoly p

/-! ### Words as polynomials -/

theorem coefficient_xor (b c : Bool) : coefficient (b ^^ c) = coefficient b + coefficient c := by
  cases b <;> cases c <;> decide

theorem coefficient_injective : Function.Injective coefficient := by decide

theorem coeff_toPoly (x : BitVec w) (i : ℕ) :
    (toPoly x).coeff i = if i < w then coefficient (x.getLsbD (w - 1 - i)) else 0 := by
  by_cases h : i < w
  · rw [if_pos h, toPoly, ofFn_coeff_eq_val_of_lt _ h]
  · rw [if_neg h, toPoly, ofFn_coeff_eq_zero_of_ge _ (Nat.le_of_not_lt h)]

theorem toPoly_injective : Function.Injective (toPoly (w := w)) := by
  intro x y h
  apply BitVec.eq_of_getLsbD_eq
  intro i hi
  have hcoeff := congrArg (fun f => f.coeff (w - 1 - i)) h
  simp only [coeff_toPoly, if_pos (show w - 1 - i < w by omega),
    show w - 1 - (w - 1 - i) = i by omega] at hcoeff
  exact coefficient_injective hcoeff

theorem toPoly_xor (x y : BitVec w) : toPoly (x ^^^ y) = toPoly x + toPoly y := by
  ext i
  rw [coeff_add, coeff_toPoly, coeff_toPoly, coeff_toPoly]
  by_cases h : i < w
  · rw [if_pos h, if_pos h, if_pos h, BitVec.getLsbD_xor, coefficient_xor]
  · rw [if_neg h, if_neg h, if_neg h, add_zero]

theorem degree_toPoly_lt (x : BitVec w) : (toPoly x).degree < w := ofFn_degree_lt _

theorem divisor_monic (p : BitVec w) : (divisor p).Monic :=
  monic_X_pow_add (degree_toPoly_lt p)

theorem degree_divisor (p : BitVec w) : (divisor p).degree = w := by
  rw [divisor, degree_add_eq_left_of_degree_lt, degree_X_pow]
  rw [degree_X_pow]
  exact degree_toPoly_lt p

/-- A shift multiplies by the variable, and the feedback takes the divisor away where the
power would be too high. -/
theorem toPoly_shift (p x : BitVec w) : X * toPoly x
    = toPoly (shift p x) + C (coefficient (x.getLsbD 0)) * divisor p := by
  have hbit (j : ℕ) : coefficient ((shift p x).getLsbD j)
      = coefficient (x.getLsbD (1 + j))
        + coefficient (x.getLsbD 0) * coefficient (p.getLsbD j) := by
    rw [shift, BitVec.getLsbD_xor, coefficient_xor, BitVec.getLsbD_ushiftRight]
    cases x.getLsbD 0 with
    | false => simp [coefficient]
    | true => simp [coefficient]
  ext i
  rw [coeff_add, coeff_C_mul, divisor, coeff_add, coeff_X_pow, coeff_toPoly, coeff_toPoly, hbit]
  have htop : coefficient (x.getLsbD w) = 0 := by rw [BitVec.getLsbD_of_ge x w le_rfl]; rfl
  cases i with
  | zero =>
    rw [coeff_X_mul_zero]
    rcases Nat.eq_zero_or_pos w with rfl | hw
    · simp [coefficient]
    · rw [if_pos hw, if_pos hw, if_neg hw.ne, show 1 + (w - 1 - 0) = w by omega, htop, zero_add,
        zero_add, CharTwo.add_self_eq_zero]
  | succ i =>
    rw [coeff_X_mul, coeff_toPoly]
    rcases Nat.lt_trichotomy (i + 1) w with h | h | h
    · rw [if_pos (show i < w by omega), if_pos h, if_pos h, if_neg h.ne,
        show 1 + (w - 1 - (i + 1)) = w - 1 - i by omega, zero_add, add_assoc,
        CharTwo.add_self_eq_zero, add_zero]
    · rw [if_pos (show i < w by omega), if_neg h.not_lt, if_neg h.not_lt, if_pos h,
        show w - 1 - i = 0 by omega, zero_add, add_zero, mul_one]
    · rw [if_neg (show ¬i < w by omega), if_neg h.not_gt, if_neg h.not_gt, if_neg h.ne', add_zero,
        mul_zero, add_zero]

/-! ### The dividend -/

/-- Position `k` of `n` bits has the power of the bits behind it. -/
theorem dividend_eq_sum (bits : List Bool) : dividend bits
    = ∑ k ∈ Finset.range bits.length,
      C (coefficient (bits.getD k false)) * X ^ (bits.length - 1 - k) := by
  induction bits with
  | nil => rfl
  | cons b bits ih =>
    rw [dividend, ih, List.length_cons, Finset.sum_range_succ', add_comm]
    congr 1
    refine Finset.sum_congr rfl fun k hk => ?_
    rw [List.getD_cons_succ, show bits.length + 1 - 1 - (k + 1) = bits.length - 1 - k by omega]

/-! ### The remainder -/

/-- The residue of a word's polynomial by the divisor. -/
noncomputable def residue (p x : BitVec w) : AdjoinRoot (divisor p) :=
  AdjoinRoot.mk (divisor p) (toPoly x)

/-- A word is its own remainder. -/
theorem toPoly_modByMonic (p x : BitVec w) : toPoly x %ₘ divisor p = toPoly x :=
  (modByMonic_eq_self_iff (divisor_monic p)).mpr
    ((degree_toPoly_lt x).trans_eq (degree_divisor p).symm)

theorem residue_injective (p : BitVec w) : Function.Injective (residue p) := by
  intro x y h
  apply toPoly_injective
  rw [← toPoly_modByMonic p x, ← toPoly_modByMonic p y]
  exact modByMonic_eq_of_dvd_sub (divisor_monic p) (AdjoinRoot.mk_eq_mk.mp h)

theorem residue_xor (p x y : BitVec w) : residue p (x ^^^ y) = residue p x + residue p y := by
  rw [residue, toPoly_xor, map_add]
  rfl

theorem residue_shift (p x : BitVec w) :
    residue p (shift p x) = AdjoinRoot.root (divisor p) * residue p x := by
  have h := congrArg (AdjoinRoot.mk (divisor p)) (toPoly_shift p x)
  rw [map_mul, AdjoinRoot.mk_X, map_add, map_mul, AdjoinRoot.mk_self, mul_zero, add_zero] at h
  exact h.symm

theorem toPoly_bit (hw : 0 < w) (b : Bool) :
    toPoly (bit w b) = C (coefficient b) * X ^ (w - 1) := by
  ext i
  rw [coeff_toPoly, coeff_C_mul_X_pow, getLsbD_bit]
  rcases Nat.lt_trichotomy i (w - 1) with h | rfl | h
  · rw [if_pos (show i < w by omega), if_neg h.ne, decide_eq_false (show ¬w - 1 - i = 0 by omega),
      Bool.false_and, Bool.and_false]
    rfl
  · rw [if_pos (show w - 1 < w by omega), if_pos rfl, Nat.sub_self, decide_eq_true hw,
      Bool.true_and, decide_eq_true rfl, Bool.true_and]
  · rw [if_neg (show ¬i < w by omega), if_neg h.ne']

/-- An input bit goes in with the power `w`. -/
theorem residue_feed (hw : 0 < w) (p x : BitVec w) (b : Bool) : residue p (feed p x b)
    = AdjoinRoot.root (divisor p) * residue p x
      + AdjoinRoot.mk (divisor p) (C (coefficient b) * X ^ w) := by
  have hbit : X * toPoly (bit w b) = C (coefficient b) * X ^ w := by
    rw [toPoly_bit hw, mul_left_comm, ← pow_succ', Nat.sub_add_cancel hw]
  rw [feed, residue_shift, residue_xor, mul_add, residue, residue, ← hbit, map_mul,
    AdjoinRoot.mk_X]

theorem residue_absorb (hw : 0 < w) (p x : BitVec w) (bits : List Bool) :
    residue p (absorb p x bits)
      = AdjoinRoot.mk (divisor p) (X ^ bits.length * toPoly x + X ^ w * dividend bits) := by
  induction bits generalizing x with
  | nil => simp [dividend, residue]
  | cons b bits ih =>
    have hfeed := residue_feed hw p x b
    rw [absorb_cons, ih, map_add, map_mul, ← residue, hfeed, dividend, List.length_cons, residue]
    simp only [map_add, map_mul, map_pow, AdjoinRoot.mk_X]
    ring

/-- **The register holds the remainder** of what it held before and of the input, each
with its power. -/
theorem toPoly_absorb (hw : 0 < w) (p x : BitVec w) (bits : List Bool) : toPoly (absorb p x bits)
    = (X ^ bits.length * toPoly x + X ^ w * dividend bits) %ₘ divisor p := by
  rw [← toPoly_modByMonic p]
  exact modByMonic_eq_of_dvd_sub (divisor_monic p)
    (AdjoinRoot.mk_eq_mk.mp (residue_absorb hw p x bits))

theorem dividend_sub_const {bits cits : List Bool} (h : bits.length = cits.length)
    (x : BitVec w) : (X ^ bits.length * toPoly x + X ^ w * dividend bits)
      - (X ^ cits.length * toPoly x + X ^ w * dividend cits)
      = X ^ w * (dividend bits - dividend cits) := by
  rw [h]
  ring

/-- With feedback into the freed bit, the divisor has no factor in common with the
variable. -/
theorem divisor_isCoprime_X (hw : 0 < w) (hp : p.getLsbD (w - 1) = true) :
    IsCoprime (divisor p) X := by
  have hconst : (divisor p).coeff 0 = 1 := by
    rw [divisor, coeff_add, coeff_X_pow, if_neg hw.ne, coeff_toPoly, if_pos hw, Nat.sub_zero, hp,
      zero_add]
    rfl
  refine ⟨1, -(divisor p).divX, ?_⟩
  have hsplit := divX_mul_X_add (divisor p)
  rw [hconst, C_1] at hsplit
  linear_combination -hsplit

/-- **Error rule.** Two inputs of one length leave the same register exactly if the divisor
divides their difference. -/
theorem absorb_eq_iff (hw : 0 < w) (hp : p.getLsbD (w - 1) = true) {bits cits : List Bool}
    (h : bits.length = cits.length) :
    absorb p x bits = absorb p x cits ↔ divisor p ∣ dividend bits - dividend cits := by
  have hcoprime : IsCoprime (divisor p) (X ^ w) := (divisor_isCoprime_X hw hp).pow_right
  calc absorb p x bits = absorb p x cits
      ↔ residue p (absorb p x bits) = residue p (absorb p x cits) :=
        (residue_injective p).eq_iff.symm
    _ ↔ divisor p ∣ X ^ w * (dividend bits - dividend cits) := by
        rw [residue_absorb hw, residue_absorb hw, AdjoinRoot.mk_eq_mk, dividend_sub_const h]
    _ ↔ divisor p ∣ dividend bits - dividend cits :=
        ⟨hcoprime.dvd_of_dvd_mul_left, fun hdvd => hdvd.mul_left _⟩

end Brasa.Lib.Lfsr
