import Mathlib.Data.List.Basic
import Mathlib.Logic.Function.Iterate

/-!
# Brasa.Lib.Lfsr

A shift register of `w` bits with **linear feedback**: it shifts towards bit 0, and
the feedback word `p` is added (exclusive or) whenever the bit shifted out is set.
Input bits are added to bit 0 just before the shift.

Everything rests on two facts about one shift: it is linear (`shift_xor`), and it is
injective when the feedback sets the bit that the shift frees (`shift_injective`).
They give

* `absorb_eq_shifts`: up to `w` input bits can be added to the register at once,
  before it shifts;
* `shifts_split`: the low bits of the register decide the feedback of the next
  shifts, the others only move down, which is what a table of feedback words uses;
* `absorb_burst`: inputs that differ within `w` consecutive bits only leave
  different registers.
-/

namespace Brasa.Lib.Lfsr

variable {w : ℕ} {p x y : BitVec w}

/-- One shift of the register. -/
def shift (p x : BitVec w) : BitVec w := (x >>> 1) ^^^ if x.getLsbD 0 then p else 0

/-- The word whose bit 0 is the given one and whose other bits are clear. -/
def bit (w : ℕ) (b : Bool) : BitVec w := (BitVec.ofBool b).setWidth w

/-- One input bit goes into the register. -/
def feed (p x : BitVec w) (b : Bool) : BitVec w := shift p (x ^^^ bit w b)

/-- All input bits go into the register, one after the other. -/
def absorb (p x : BitVec w) (bits : List Bool) : BitVec w := bits.foldl (feed p) x

/-- The input bits as a word, the first one at bit 0. -/
def word (w : ℕ) (bits : List Bool) : BitVec w := (BitVec.ofBoolListLE bits).setWidth w

@[simp] theorem absorb_nil : absorb p x [] = x := rfl

@[simp] theorem absorb_cons (b : Bool) (bits : List Bool) :
    absorb p x (b :: bits) = absorb p (feed p x b) bits := rfl

theorem absorb_append (bits cits : List Bool) :
    absorb p x (bits ++ cits) = absorb p (absorb p x bits) cits := List.foldl_append

theorem getLsbD_bit (b : Bool) (i : ℕ) :
    (bit w b).getLsbD i = (decide (i < w) && (i = 0 && b)) := by
  rw [bit, BitVec.getLsbD_setWidth, BitVec.getLsbD_ofBool]

theorem getLsbD_word (bits : List Bool) (i : ℕ) :
    (word w bits).getLsbD i = (decide (i < w) && bits.getD i false) := by
  rw [word, BitVec.getLsbD_setWidth, BitVec.getLsbD_ofBoolListLE]

/-! ### One shift -/

/-- The shift is linear. -/
theorem shift_xor (p x y : BitVec w) : shift p (x ^^^ y) = shift p x ^^^ shift p y := by
  have hfeedback : (if (x ^^^ y).getLsbD 0 then p else 0)
      = (if x.getLsbD 0 then p else 0) ^^^ (if y.getLsbD 0 then p else 0) := by
    rw [BitVec.getLsbD_xor]
    cases x.getLsbD 0 <;> cases y.getLsbD 0 <;> simp
  rw [shift, shift, shift, hfeedback, BitVec.ushiftRight_xor_distrib]
  ac_rfl

theorem shifts_xor (p : BitVec w) (n : ℕ) (x y : BitVec w) :
    (shift p)^[n] (x ^^^ y) = (shift p)^[n] x ^^^ (shift p)^[n] y := by
  induction n generalizing x y with
  | zero => rfl
  | succ n ih => rw [Function.iterate_succ_apply, shift_xor, ih]; rfl

/-- With feedback into the freed bit, only the clear register shifts to the clear
register. -/
theorem shift_eq_zero (hp : p.getLsbD (w - 1) = true) (h : shift p x = 0) : x = 0 := by
  have hw : 0 < w := by
    rcases Nat.eq_zero_or_pos w with rfl | hw
    · rw [BitVec.of_length_zero (x := p)] at hp
      exact absurd hp (by decide)
    · exact hw
  have hbit (i : ℕ) : (shift p x).getLsbD i = false := by rw [h]; exact BitVec.getLsbD_zero
  -- the freed bit shows whether the feedback was added
  have hlow : x.getLsbD 0 = false := by
    have htop := hbit (w - 1)
    cases hx : x.getLsbD 0 with
    | false => rfl
    | true => simp [shift, hx, hp, Nat.add_sub_cancel' hw] at htop
  apply BitVec.eq_of_getLsbD_eq
  intro i hi
  cases i with
  | zero => rw [hlow]; exact BitVec.getLsbD_zero.symm
  | succ i => simpa [shift, hlow, Nat.add_comm] using hbit i

theorem shift_injective (hp : p.getLsbD (w - 1) = true) : Function.Injective (shift p) := by
  intro x y h
  have hzero : shift p (x ^^^ y) = 0 := by rw [shift_xor, h, BitVec.xor_self]; rfl
  exact BitVec.xor_eq_zero_iff.mp (shift_eq_zero hp hzero)

/-- A register with a clear bit 0 only moves down. -/
theorem shift_shiftLeft (hy : y.getLsbD (w - 1) = false) : shift p (y <<< 1) = y := by
  have hlow : (y <<< 1).getLsbD 0 = false := by simp
  rw [shift, hlow]
  apply BitVec.eq_of_getLsbD_eq
  intro i hi
  by_cases htop : i = w - 1
  · rw [htop, hy]
    simp [Nat.add_sub_cancel' (Nat.lt_of_le_of_lt (Nat.zero_le i) hi)]
  · simp [show 1 + i < w by omega, BitVec.getLsbD_eq_getElem hi]

/-! ### Several shifts -/

/-- A register whose `n` low bits are clear only moves down for `n` shifts. -/
theorem shifts_of_clear {n : ℕ} (hx : ∀ i < n, x.getLsbD i = false) :
    (shift p)^[n] x = x >>> n := by
  induction n generalizing x with
  | zero => simp
  | succ n ih =>
    have hshift : shift p x = x >>> 1 := by rw [shift, hx 0 (Nat.succ_pos n)]; simp
    rw [Function.iterate_succ_apply, hshift, ih, ← BitVec.shiftRight_add, Nat.add_comm]
    intro i hi
    rw [BitVec.getLsbD_ushiftRight]
    exact hx (1 + i) (by omega)

/-- The feedback of the next `n` shifts comes from the `n` low bits `low` of the
register; the other bits move down. -/
theorem shifts_split {n : ℕ} {low : BitVec w} (hlow : ∀ i < n, low.getLsbD i = x.getLsbD i)
    (hhigh : low >>> n = 0#w) : (shift p)^[n] x = (shift p)^[n] low ^^^ (x >>> n) := by
  have hsplit : x = low ^^^ (x ^^^ low) := by
    rw [BitVec.xor_comm x low, ← BitVec.xor_assoc, BitVec.xor_self, BitVec.zero_xor]
  have hclear : (shift p)^[n] (x ^^^ low) = (x ^^^ low) >>> n := by
    apply shifts_of_clear
    intro i hi
    rw [BitVec.getLsbD_xor, hlow i hi, Bool.xor_self]
  calc (shift p)^[n] x = (shift p)^[n] (low ^^^ (x ^^^ low)) := by rw [← hsplit]
    _ = (shift p)^[n] low ^^^ (x >>> n) := by
      rw [shifts_xor, hclear, BitVec.ushiftRight_xor_distrib, hhigh, BitVec.xor_zero]

/-! ### Input -/

theorem feed_injective (hp : p.getLsbD (w - 1) = true) (b : Bool) :
    Function.Injective fun x => feed p x b := fun _ _ h =>
  (BitVec.xor_left_inj _).mp (shift_injective hp h)

/-- Different registers stay different over the same input. -/
theorem absorb_injective (hp : p.getLsbD (w - 1) = true) (bits : List Bool) :
    Function.Injective fun x => absorb p x bits := by
  induction bits with
  | nil => exact Function.injective_id
  | cons b bits ih => exact ih.comp (feed_injective hp b)

theorem word_cons (b : Bool) (bits : List Bool) :
    word w (b :: bits) = bit w b ^^^ (word w bits <<< 1) := by
  apply BitVec.eq_of_getLsbD_eq
  intro i hi
  rw [BitVec.getLsbD_xor, BitVec.getLsbD_shiftLeft, getLsbD_bit, getLsbD_word, getLsbD_word]
  cases i with
  | zero => simp
  | succ i => simp [hi, show i < w by omega]

/-- Up to `w` input bits can be added at once: each of them comes out of the register
unchanged when its turn is. -/
theorem absorb_eq_shifts {bits : List Bool} (h : bits.length ≤ w) (x : BitVec w) :
    absorb p x bits = (shift p)^[bits.length] (x ^^^ word w bits) := by
  induction bits generalizing x with
  | nil => simp [word, BitVec.ofBoolListLE]
  | cons b bits ih =>
    rw [List.length_cons] at h
    have hword : (word w bits).getLsbD (w - 1) = false := by
      rw [getLsbD_word, List.getD_eq_getElem?_getD, List.getElem?_eq_none (by omega)]
      exact Bool.and_false _
    have hmove : feed p x b ^^^ word w bits = shift p (x ^^^ word w (b :: bits)) := by
      rw [word_cons, ← BitVec.xor_assoc, shift_xor, shift_shiftLeft hword]
      rfl
    rw [absorb_cons, ih (by omega), hmove, List.length_cons, Function.iterate_succ_apply]

theorem word_injective {bits cits : List Bool} (hw : bits.length ≤ w)
    (hlength : bits.length = cits.length) (h : word w bits = word w cits) : bits = cits := by
  apply List.ext_getElem hlength
  intro i hi hi'
  have hbit : (word w bits).getLsbD i = (word w cits).getLsbD i := by rw [h]
  rw [getLsbD_word, getLsbD_word, List.getD_eq_getElem?_getD, List.getD_eq_getElem?_getD,
    List.getElem?_eq_getElem hi, List.getElem?_eq_getElem hi'] at hbit
  simpa [show i < w by omega] using hbit

/-- **Burst rule.** Two inputs of one length that differ, but only at positions within
`w` consecutive ones, leave different registers. -/
theorem absorb_burst (hp : p.getLsbD (w - 1) = true) {bits cits : List Bool} {s : ℕ}
    (hlength : bits.length = cits.length) (hne : bits ≠ cits)
    (hburst : ∀ q, bits[q]? ≠ cits[q]? → s ≤ q ∧ q < s + w) :
    absorb p x bits ≠ absorb p x cits := by
  have hpre : bits.take s = cits.take s := by
    apply List.ext_getElem?
    intro q
    rw [List.getElem?_take, List.getElem?_take]
    by_contra hq
    split at hq
    · exact absurd (hburst q hq).1 (by omega)
    · exact hq rfl
  have hpost : (bits.drop s).drop w = (cits.drop s).drop w := by
    apply List.ext_getElem?
    intro q
    rw [List.drop_drop, List.drop_drop, List.getElem?_drop, List.getElem?_drop]
    by_contra hq
    have hend := (hburst _ hq).2
    omega
  -- the input as what precedes the burst, the burst, and what follows it
  have hparts (l : List Bool) : l = l.take s ++ ((l.drop s).take w ++ (l.drop s).drop w) := by
    rw [List.take_append_drop, List.take_append_drop]
  have hmid : (bits.drop s).take w ≠ (cits.drop s).take w := by
    intro h
    apply hne
    rw [hparts bits, hparts cits, hpre, h, hpost]
  have hmidLength : ((bits.drop s).take w).length = ((cits.drop s).take w).length := by
    simp [hlength]
  have hle (l : List Bool) : ((l.drop s).take w).length ≤ w := List.length_take_le w _
  intro h
  rw [hparts bits, hparts cits, absorb_append, absorb_append, absorb_append, absorb_append, hpre,
    hpost] at h
  -- what follows the burst is the same, so it was the burst that left the same register
  have hburst := absorb_injective hp _ h
  rw [absorb_eq_shifts (hle bits), absorb_eq_shifts (hle cits), hmidLength] at hburst
  have hword := (BitVec.xor_right_inj _).mp ((shift_injective hp).iterate _ hburst)
  exact hmid (word_injective (hle bits) hmidLength hword)

end Brasa.Lib.Lfsr
