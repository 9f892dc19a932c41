import Brasa.Lib.Lfsr
import Mathlib.Data.Nat.Prime.Basic
import Mathlib.Dynamics.PeriodicPts.Defs

/-!
# Brasa.Lib.Period

The **period** of a shift register with linear feedback. Its words are the polynomials
over two elements modulo the feedback polynomial, the constant term in the highest bit,
and a shift multiplies by the variable. `product` is their product and `power` the powers of
the variable, which squaring computes; so the register after any number of shifts is
found without making them (`power_eq_shifts`), and with it the period
(`shifts_one_iff_dvd`).

The period decides which two flipped bits of an input go unnoticed: those whose distance
is a multiple of it (`absorb_two`).
-/

namespace Brasa.Lib.Lfsr

variable {w : ℕ} {p x y z : BitVec w}

/-- The constant polynomial one. -/
def oneWord (w : ℕ) : BitVec w := BitVec.twoPow w (w - 1)

/-- The first `n` terms of the product: every coefficient of `x`, the constant one first,
adds its shift of `y`. -/
def productTerms (p : BitVec w) : ℕ → BitVec w → BitVec w → BitVec w
  | 0, _, _ => 0
  | n + 1, x, y =>
    (if x.getLsbD (w - 1) then y else 0) ^^^ productTerms p n (x <<< 1) (shift p y)

/-- The product of two polynomials. -/
def product (p x y : BitVec w) : BitVec w := productTerms p w x y

/-- The power of the variable with the exponent `n`, of which `k` binary digits are read:
a square for each digit, and a shift where the digit is set. -/
def power (p : BitVec w) : ℕ → ℕ → BitVec w
  | 0, _ => oneWord w
  | k + 1, n =>
    if n % 2 = 1 then shift p (product p (power p k (n / 2)) (power p k (n / 2)))
    else product p (power p k (n / 2)) (power p k (n / 2))

/-! ### The product -/

theorem shift_zero : shift p 0 = 0 := by
  have h := shift_xor p 0 0
  rwa [BitVec.xor_self, BitVec.xor_self] at h

theorem shifts_zero (n : ℕ) : (shift p)^[n] 0 = 0 := Function.iterate_fixed shift_zero n

/-- A linear map that commutes with the shift goes through the product. -/
theorem map_productTerms {f : BitVec w → BitVec w} (hadd : ∀ x y, f (x ^^^ y) = f x ^^^ f y)
    (hshift : ∀ x, f (shift p x) = shift p (f x)) (n : ℕ) (x y : BitVec w) :
    f (productTerms p n x y) = productTerms p n x (f y) := by
  have hzero : f 0 = 0 := by
    have h := hadd 0 0
    rwa [BitVec.xor_self, BitVec.xor_self] at h
  induction n generalizing x y with
  | zero => exact hzero
  | succ n ih =>
    rw [productTerms, hadd, ih, hshift, productTerms]
    cases x.getLsbD (w - 1) with
    | false => rw [if_neg Bool.false_ne_true, if_neg Bool.false_ne_true, hzero]
    | true => rw [if_pos rfl, if_pos rfl]

theorem getLsbD_oneWord (i : ℕ) :
    (oneWord w).getLsbD i = (decide (i < w) && decide (i = w - 1)) := by
  rw [oneWord, BitVec.getLsbD_twoPow]
  by_cases h : w - 1 = i
  · subst h
    by_cases hw : w - 1 < w <;> simp [hw]
  · simp [h, Ne.symm h]

/-- The last `n` coefficients that the product reads are the high bits of `x` moved to the
end of the word. -/
theorem productTerms_oneWord {n : ℕ} (hn : n ≤ w) (x : BitVec w) :
    productTerms p n x (oneWord w >>> (w - n)) = x >>> (w - n) := by
  induction n generalizing x with
  | zero =>
    rw [productTerms, Nat.sub_zero]
    exact (BitVec.ushiftRight_eq_zero le_rfl).symm
  | succ n ih =>
    have hrest : productTerms p n (x <<< 1) (shift p (oneWord w >>> (w - (n + 1))))
        = (x <<< 1) >>> (w - n) := by
      cases n with
      | zero =>
        rw [productTerms, Nat.sub_zero]
        exact (BitVec.ushiftRight_eq_zero le_rfl).symm
      | succ n =>
        have hlow : (oneWord w >>> (w - (n + 1 + 1))).getLsbD 0 = false := by
          rw [BitVec.getLsbD_ushiftRight, getLsbD_oneWord,
            decide_eq_false (show ¬w - (n + 1 + 1) + 0 = w - 1 by omega), Bool.and_false]
        have hshift : shift p (oneWord w >>> (w - (n + 1 + 1))) = oneWord w >>> (w - (n + 1)) := by
          have hmove := shifts_of_clear (p := p) (n := 1) fun i hi => by
            rwa [Nat.lt_one_iff.mp hi]
          rw [← Function.iterate_one (shift p), hmove, ← BitVec.shiftRight_add,
            show w - (n + 1 + 1) + 1 = w - (n + 1) by omega]
        rw [hshift]
        exact ih (by omega) _
    rw [productTerms, hrest]
    apply BitVec.eq_of_getLsbD_eq
    intro i hi
    rw [BitVec.getLsbD_xor, BitVec.getLsbD_ushiftRight, BitVec.getLsbD_ushiftRight,
      BitVec.getLsbD_shiftLeft]
    -- bit `n` is the coefficient just read, the bits below it are still to come
    have htop : (if x.getLsbD (w - 1) then oneWord w >>> (w - (n + 1)) else 0).getLsbD i
        = (x.getLsbD (w - 1) && decide (i = n)) := by
      cases x.getLsbD (w - 1) with
      | false => rw [if_neg Bool.false_ne_true, Bool.false_and]; exact BitVec.getLsbD_zero
      | true =>
        rw [if_pos rfl, BitVec.getLsbD_ushiftRight, getLsbD_oneWord, Bool.true_and]
        by_cases h : i = n
        · simp [h, show w - (n + 1) + n = w - 1 by omega, show w - 1 < w by omega]
        · simp [h, show ¬w - (n + 1) + i = w - 1 by omega]
    rw [htop]
    rcases Nat.lt_trichotomy i n with h | rfl | h
    · simp [show ¬i = n by omega, show w - n + i < w by omega,
        show w - n + i - 1 = w - (n + 1) + i by omega, show ¬w - n + i < 1 by omega]
    · simp [show w - (i + 1) + i = w - 1 by omega, show ¬w - i + i < w by omega]
    · rw [BitVec.getLsbD_of_ge x (w - (n + 1) + i) (by omega)]
      simp [show ¬i = n by omega, show ¬w - n + i < w by omega]

theorem product_oneWord (x : BitVec w) : product p x (oneWord w) = x := by
  have h := productTerms_oneWord (p := p) le_rfl x
  rwa [Nat.sub_self, BitVec.ushiftRight_zero, BitVec.ushiftRight_zero] at h

/-- Such a map is the product with its value at one. -/
theorem eq_product_oneWord {f : BitVec w → BitVec w} (hadd : ∀ x y, f (x ^^^ y) = f x ^^^ f y)
    (hshift : ∀ x, f (shift p x) = shift p (f x)) (x : BitVec w) :
    f x = product p x (f (oneWord w)) := by
  conv_lhs => rw [← product_oneWord (p := p) x]
  exact map_productTerms hadd hshift w x (oneWord w)

theorem shifts_eq_product (n : ℕ) (x : BitVec w) :
    (shift p)^[n] x = product p x ((shift p)^[n] (oneWord w)) :=
  eq_product_oneWord (shifts_xor p n) (fun x => (Function.Commute.iterate_self (shift p) n).eq x) x

/-! ### Powers of the variable -/

/-- The power is the register after `n` shifts. -/
theorem power_eq_shifts {k n : ℕ} (h : n < 2 ^ k) : power p k n = (shift p)^[n] (oneWord w) := by
  induction k generalizing n with
  | zero =>
    have hn : n = 0 := by omega
    rw [power, hn]
    rfl
  | succ k ih =>
    have hhalf := ih (n := n / 2) (by rw [Nat.pow_succ] at h; omega)
    have hsquare : product p ((shift p)^[n / 2] (oneWord w)) ((shift p)^[n / 2] (oneWord w))
        = (shift p)^[n / 2 + n / 2] (oneWord w) := by
      rw [← shifts_eq_product, Function.iterate_add_apply]
    rw [power, hhalf, hsquare]
    by_cases hodd : n % 2 = 1
    · rw [if_pos hodd, ← Function.iterate_succ_apply' (shift p),
        show (n / 2 + n / 2).succ = n by omega]
    · rw [if_neg hodd, show n / 2 + n / 2 = n by omega]

/-- **Period rule.** A period none of whose quotients by a prime is a period is the least
one, and divides all the others. -/
theorem shifts_one_iff_dvd {N n : ℕ} (hN : (shift p)^[N] (oneWord w) = oneWord w)
    (hleast : ∀ q, q.Prime → q ∣ N → (shift p)^[N / q] (oneWord w) ≠ oneWord w) :
    (shift p)^[n] (oneWord w) = oneWord w ↔ N ∣ n := by
  have hdvd : Function.minimalPeriod (shift p) (oneWord w) ∣ N :=
    Function.IsPeriodicPt.minimalPeriod_dvd hN
  have heq : Function.minimalPeriod (shift p) (oneWord w) = N := by
    by_contra hne
    -- a proper divisor of `N` divides one of those quotients
    obtain ⟨m, hm⟩ := hdvd
    have hm1 : m ≠ 1 := by
      rintro rfl
      exact hne (by rw [hm, Nat.mul_one])
    obtain ⟨q, hq, k, rfl⟩ := Nat.exists_prime_and_dvd hm1
    refine hleast q hq ⟨Function.minimalPeriod (shift p) (oneWord w) * k, by rw [hm]; ac_rfl⟩ ?_
    have hquot : N / q = Function.minimalPeriod (shift p) (oneWord w) * k := by
      rw [hm, Nat.mul_left_comm, Nat.mul_div_cancel_left _ hq.pos]
    rw [hquot]
    exact Function.isPeriodicPt_iff_minimalPeriod_dvd.mpr (Nat.dvd_mul_right _ _)
  rw [← heq]
  exact Function.isPeriodicPt_iff_minimalPeriod_dvd

/-! ### Two flipped bits -/

/-- The difference of two registers takes in the difference of the inputs. -/
theorem absorb_xor {bits cits : List Bool} (h : bits.length = cits.length) (x y : BitVec w) :
    absorb p x bits ^^^ absorb p y cits = absorb p (x ^^^ y) (List.zipWith xor bits cits) := by
  induction bits generalizing cits x y with
  | nil =>
    rw [List.length_nil, eq_comm, List.length_eq_zero_iff] at h
    subst h
    rfl
  | cons b bits ih =>
    cases cits with
    | nil => exact absurd h (Nat.succ_ne_zero _)
    | cons c cits =>
      have hbit : bit w (b ^^ c) = bit w b ^^^ bit w c := by
        apply BitVec.eq_of_getLsbD_eq
        intro i hi
        rw [BitVec.getLsbD_xor, getLsbD_bit, getLsbD_bit, getLsbD_bit]
        cases decide (i < w) with
        | false => rfl
        | true => by_cases h0 : i = 0 <;> simp [h0]
      have hfeed : feed p x b ^^^ feed p y c = feed p (x ^^^ y) (b ^^ c) := by
        rw [feed, feed, feed, hbit, ← shift_xor]
        ac_rfl
      rw [absorb_cons, absorb_cons, ih (Nat.succ.inj h), List.zipWith_cons_cons, absorb_cons, hfeed]

/-- Clear input bits only shift the register. -/
theorem absorb_replicate_false (n : ℕ) (x : BitVec w) :
    absorb p x (List.replicate n false) = (shift p)^[n] x := by
  induction n generalizing x with
  | zero => rfl
  | succ n ih =>
    have hfeed : feed p x false = shift p x := by rw [feed, bit]; simp
    rw [List.replicate_succ, absorb_cons, ih, hfeed, Function.iterate_succ_apply]

/-- Bit 0 of the register is the last power of the variable. -/
theorem shifts_one_eq_bit (hw : 0 < w) : (shift p)^[w - 1] (oneWord w) = bit w true := by
  rw [shifts_of_clear fun i hi => by simp [getLsbD_oneWord, show ¬i = w - 1 by omega]]
  apply BitVec.eq_of_getLsbD_eq
  intro i hi
  rw [BitVec.getLsbD_ushiftRight, getLsbD_oneWord, getLsbD_bit]
  by_cases h : i = 0
  · simp [h, hw]
  · simp [h]

/-- A list with exactly two bits set. -/
theorem eq_of_two_set {bits : List Bool} {q r : ℕ} (hqr : q < r) (hr : r < bits.length)
    (hset : ∀ k, bits[k]? = some true ↔ k = q ∨ k = r) :
    bits = List.replicate q false ++ true :: (List.replicate (r - q - 1) false ++
      true :: List.replicate (bits.length - r - 1) false) := by
  apply List.ext_getElem (by simp; omega)
  intro k hk hk'
  have hbit : bits[k] = decide (k = q ∨ k = r) := by
    rw [Bool.eq_iff_iff, decide_eq_true_iff, ← hset, List.getElem?_eq_getElem hk, Option.some_inj]
  rw [hbit]
  by_cases hq : k < q
  · rw [List.getElem_append_left (by simpa using hq), List.getElem_replicate]
    exact decide_eq_false (by omega)
  · rw [List.getElem_append_right (by simpa using hq)]
    simp only [List.length_replicate, List.getElem_cons, List.getElem_append,
      List.getElem_replicate]
    grind

/-- **Two-bit rule.** Two inputs of one length that differ at the positions `q` and `r`
alone leave the same register exactly if so many shifts as lie between the two leave the
register one unchanged. -/
theorem absorb_two (hp : p.getLsbD (w - 1) = true) {bits cits : List Bool} {q r : ℕ}
    (hlength : bits.length = cits.length) (hqr : q < r) (hr : r < bits.length)
    (hdiff : ∀ k, bits[k]? ≠ cits[k]? ↔ k = q ∨ k = r) :
    absorb p x bits = absorb p x cits ↔ (shift p)^[r - q] (oneWord w) = oneWord w := by
  have hw : 0 < w := by
    rcases Nat.eq_zero_or_pos w with rfl | hw
    · rw [BitVec.of_length_zero (x := p)] at hp
      exact absurd hp (by decide)
    · exact hw
  have hinj (n : ℕ) : Function.Injective (shift p)^[n] := (shift_injective hp).iterate n
  have hxorLength : (List.zipWith xor bits cits).length = bits.length := by
    rw [List.length_zipWith, ← hlength, Nat.min_self]
  have hset : ∀ k, (List.zipWith xor bits cits)[k]? = some true ↔ k = q ∨ k = r := by
    intro k
    rw [← hdiff, List.getElem?_zipWith]
    cases hb : bits[k]? with
    | none =>
      have hc : cits[k]? = none := by rw [List.getElem?_eq_none_iff] at hb ⊢; omega
      simp [hc]
    | some b =>
      have hlt := (List.getElem?_eq_some_iff.mp hb).1
      rw [List.getElem?_eq_getElem (hlength ▸ hlt)]
      simp
  have hlist := eq_of_two_set hqr (by rw [hxorLength]; exact hr) hset
  have hfeed (y : BitVec w) : feed p y true = shift p (y ^^^ bit w true) := rfl
  have hxorZero (y : BitVec w) : y ^^^ 0 = y := BitVec.xor_zero
  have hclear (n : ℕ) (y : BitVec w) : (shift p)^[n] y = 0 ↔ y = 0 := by
    conv_lhs => rw [← shifts_zero (p := p) n]
    exact (hinj n).eq_iff
  calc absorb p x bits = absorb p x cits
      ↔ absorb p 0 (List.zipWith xor bits cits) = 0 := by
        rw [← BitVec.xor_eq_zero_iff, absorb_xor hlength, BitVec.xor_self]
        rfl
    _ ↔ (shift p)^[r - q - 1] (shift p (bit w true)) ^^^ bit w true = 0 := by
        rw [hlist, absorb_append, absorb_replicate_false, shifts_zero, absorb_cons, absorb_append,
          absorb_replicate_false, absorb_cons, absorb_replicate_false, hfeed, hfeed,
          ← Function.iterate_succ_apply, hclear, BitVec.xor_comm 0, hxorZero]
    _ ↔ (shift p)^[r - q] (bit w true) = bit w true := by
        rw [← Function.iterate_succ_apply, show (r - q - 1).succ = r - q by omega]
        exact BitVec.xor_eq_zero_iff
    _ ↔ (shift p)^[r - q] (oneWord w) = oneWord w := by
        rw [← shifts_one_eq_bit (p := p) hw, ← Function.iterate_add_apply, Nat.add_comm,
          Function.iterate_add_apply]
        exact (hinj (w - 1)).eq_iff

end Brasa.Lib.Lfsr
