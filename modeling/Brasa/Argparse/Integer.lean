import Brasa.Argparse.Value
import Mathlib.Data.List.TakeWhile

/-!
# Brasa.Argparse.Integer

`operator>>` of an `int` in the classic locale, and **which arguments a
`SingleValue<int>` accepts**: the extraction stops where the number ends, and
`digest` does not look at what is left of the argument.
-/

namespace Brasa.Argparse

/-- `std::isspace` in the classic locale. -/
def isSpace (c : Int8) : Bool := c = chr ' ' ∨ (9 ≤ c ∧ c ≤ 13)

/-- `std::isdigit`. -/
def isDigit (c : Int8) : Bool := chr '0' ≤ c ∧ c ≤ chr '9'

/-- The number that a row of digits stands for. -/
def decimal (digits : StdString) : ℕ :=
  digits.foldl (fun n c => 10 * n + (c.toInt - (chr '0').toInt).toNat) 0

/-- The optional sign at the beginning of a text: whether it is a minus, and what
follows it. -/
def splitSign : StdString → Bool × StdString
  | [] => (false, [])
  | c :: text =>
    if c = chr '-' then (true, text)
    else if c = chr '+' then (false, text)
    else (false, c :: text)

def signed (negative : Bool) (n : ℕ) : ℤ := if negative then -n else n

/-- The number at the beginning of a text, which is the longest possible one, and what
follows it. -/
def readNumber (text : StdString) : Option (ℤ × StdString) :=
  let (negative, body) := splitSign text
  let digits := body.takeWhile isDigit
  if digits.isEmpty then none
  else some (signed negative (decimal digits), body.dropWhile isDigit)

/-- An `int` stores a number that fits, or else the limit that is nearest to it. -/
def storeInt (z : ℤ) : Int32 × Bool :=
  if z < Int32.minValue.toInt then (Int32.minValue, false)
  else if Int32.maxValue.toInt < z then (Int32.maxValue, false)
  else (Int32.ofInt z, true)

/-- `operator>>` of an `int`. At the end of the stream nothing is stored, for a
malformed number 0 is. -/
def extractInt (argument : StdString) (t : Int32) : Int32 × Bool :=
  match argument.dropWhile isSpace with
  | [] => (t, false)
  | c :: text =>
    match readNumber (c :: text) with
    | none => (0, false)
    | some (z, _) => storeInt z

def ValueType.int : ValueType Int32 := ⟨0, extractInt⟩

/-! ### Literals -/

/-- An optionally signed decimal literal, with its value. -/
inductive Literal : StdString → ℤ → Prop
  | plain {digits : StdString} : digits ≠ [] → (∀ c ∈ digits, isDigit c = true) →
      Literal digits (decimal digits)
  | plus {digits : StdString} : digits ≠ [] → (∀ c ∈ digits, isDigit c = true) →
      Literal (chr '+' :: digits) (decimal digits)
  | minus {digits : StdString} : digits ≠ [] → (∀ c ∈ digits, isDigit c = true) →
      Literal (chr '-' :: digits) (-(decimal digits : ℤ))

/-- The argument is a literal, after optional white space. -/
def IsInteger (argument : StdString) (z : ℤ) : Prop :=
  ∃ space literal, argument = space ++ literal ∧ (∀ c ∈ space, isSpace c = true) ∧
    Literal literal z

/-- After optional white space the argument begins with a literal; a tail follows that
does not go on with the digits of it. -/
def BeginsWith (argument : StdString) (z : ℤ) (tail : StdString) : Prop :=
  ∃ space literal, argument = space ++ literal ++ tail ∧ (∀ c ∈ space, isSpace c = true) ∧
    Literal literal z ∧ ∀ c ∈ tail.head?, isDigit c = false

/-- The value fits in an `int`. -/
def Fits (z : ℤ) : Prop := Int32.minValue.toInt ≤ z ∧ z ≤ Int32.maxValue.toInt

instance (z : ℤ) : Decidable (Fits z) := inferInstanceAs (Decidable (_ ∧ _))

theorem takeWhile_append_stop {α : Type} {p : α → Bool} {l tail : List α} (hl : ∀ a ∈ l, p a = true)
    (htail : ∀ a ∈ tail.head?, p a = false) :
    (l ++ tail).takeWhile p = l ∧ (l ++ tail).dropWhile p = tail := by
  rw [List.takeWhile_append_of_pos hl, List.dropWhile_append_of_pos hl]
  cases tail with
  | nil => simp
  | cons a tail => simp [htail a rfl]

theorem isDigit_iff {c : Int8} : isDigit c = true ↔ 48 ≤ c.toInt ∧ c.toInt ≤ 57 := by
  rw [isDigit, decide_eq_true_eq, Int8.le_iff_toInt_le, Int8.le_iff_toInt_le]
  rfl

theorem isSpace_iff {c : Int8} : isSpace c = true ↔ c.toInt = 32 ∨ 9 ≤ c.toInt ∧ c.toInt ≤ 13 := by
  rw [isSpace, decide_eq_true_eq, Int8.le_iff_toInt_le, Int8.le_iff_toInt_le, ← Int8.toInt_inj]
  rfl

/-- A literal begins with a sign or a digit, not with white space. -/
theorem Literal.head {literal : StdString} {z : ℤ} (h : Literal literal z) :
    ∃ c text, literal = c :: text ∧ isSpace c = false := by
  cases h with
  | plain hne hdigits =>
    obtain ⟨c, digits, rfl⟩ := List.exists_cons_of_ne_nil hne
    have hc := isDigit_iff.mp (hdigits c List.mem_cons_self)
    refine ⟨c, digits, rfl, Bool.eq_false_of_not_eq_true fun hspace => ?_⟩
    have hspace := isSpace_iff.mp hspace
    omega
  | plus _ _ => exact ⟨_, _, rfl, by decide⟩
  | minus _ _ => exact ⟨_, _, rfl, by decide⟩

theorem splitSign_minus (text : StdString) : splitSign (chr '-' :: text) = (true, text) := rfl

theorem splitSign_plus (text : StdString) : splitSign (chr '+' :: text) = (false, text) := rfl

theorem splitSign_digit {c : Int8} (h : isDigit c = true) (text : StdString) :
    splitSign (c :: text) = (false, c :: text) := by
  have hc := isDigit_iff.mp h
  have hminus : c ≠ chr '-' := by
    rintro rfl
    exact absurd hc (by decide)
  have hplus : c ≠ chr '+' := by
    rintro rfl
    exact absurd hc (by decide)
  rw [splitSign, if_neg hminus, if_neg hplus]

theorem readNumber_digits {text digits tail : StdString} {negative : Bool}
    (hsign : splitSign text = (negative, digits ++ tail)) (hne : digits ≠ [])
    (hdigits : ∀ c ∈ digits, isDigit c = true) (htail : ∀ c ∈ tail.head?, isDigit c = false) :
    readNumber text = some (signed negative (decimal digits), tail) := by
  obtain ⟨htake, hdrop⟩ := takeWhile_append_stop hdigits htail
  rw [readNumber, hsign]
  simp only [htake, hdrop, List.isEmpty_iff, hne, if_false]

/-- `readNumber` reads a literal as far as its digits go. -/
theorem readNumber_of_literal {literal tail : StdString} {z : ℤ} (h : Literal literal z)
    (htail : ∀ c ∈ tail.head?, isDigit c = false) :
    readNumber (literal ++ tail) = some (z, tail) := by
  cases h with
  | plain hne hdigits =>
    obtain ⟨c, digits, rfl⟩ := List.exists_cons_of_ne_nil hne
    exact readNumber_digits (splitSign_digit (hdigits c List.mem_cons_self) _) hne hdigits htail
  | plus hne hdigits => exact readNumber_digits (splitSign_plus _) hne hdigits htail
  | minus hne hdigits => exact readNumber_digits (splitSign_minus _) hne hdigits htail

theorem splitSign_cases {text body : StdString} {negative : Bool}
    (h : splitSign text = (negative, body)) :
    (text = body ∧ negative = false) ∨ (text = chr '+' :: body ∧ negative = false) ∨
      (text = chr '-' :: body ∧ negative = true) := by
  cases text with
  | nil =>
    cases h
    exact .inl ⟨rfl, rfl⟩
  | cons c text =>
    rw [splitSign] at h
    split at h
    · rename_i hc
      cases h
      exact .inr (.inr ⟨by rw [hc], rfl⟩)
    · split at h
      · rename_i hc
        cases h
        exact .inr (.inl ⟨by rw [hc], rfl⟩)
      · cases h
        exact .inl ⟨rfl, rfl⟩

/-- What `readNumber` reads is a literal. -/
theorem literal_of_readNumber {text tail : StdString} {z : ℤ}
    (h : readNumber text = some (z, tail)) :
    ∃ literal, text = literal ++ tail ∧ Literal literal z ∧
      ∀ c ∈ tail.head?, isDigit c = false := by
  obtain ⟨negative, body, hsign⟩ : ∃ negative body, splitSign text = (negative, body) := ⟨_, _, rfl⟩
  rw [readNumber, hsign] at h
  simp only at h
  split at h
  · cases h
  · rename_i hne
    cases h
    have hne : body.takeWhile isDigit ≠ [] := by simpa using hne
    have hdigits : ∀ c ∈ body.takeWhile isDigit, isDigit c = true := fun c hc =>
      List.mem_takeWhile_imp hc
    have htail : ∀ c ∈ (body.dropWhile isDigit).head?, isDigit c = false := by
      intro c hc
      have hstop := List.head?_dropWhile_not isDigit body
      rw [Option.mem_def.mp hc] at hstop
      simpa using hstop
    have hbody := (List.takeWhile_append_dropWhile (p := isDigit) (l := body)).symm
    obtain ⟨rfl, rfl⟩ | ⟨rfl, rfl⟩ | ⟨rfl, rfl⟩ := splitSign_cases hsign
    · exact ⟨_, hbody, .plain hne hdigits, htail⟩
    · exact ⟨_, congrArg (chr '+' :: ·) hbody, .plus hne hdigits, htail⟩
    · exact ⟨_, congrArg (chr '-' :: ·) hbody, .minus hne hdigits, htail⟩

/-! ### Arguments -/

theorem beginsWith_iff {argument tail : StdString} {z : ℤ} :
    BeginsWith argument z tail ↔ readNumber (argument.dropWhile isSpace) = some (z, tail) := by
  constructor
  · rintro ⟨space, literal, rfl, hspace, hliteral, htail⟩
    obtain ⟨c, text, rfl, hc⟩ := hliteral.head
    have hskip : (space ++ (c :: text ++ tail)).dropWhile isSpace = c :: text ++ tail :=
      (takeWhile_append_stop hspace fun a ha => by cases ha; exact hc).2
    rw [List.append_assoc, hskip]
    exact readNumber_of_literal hliteral htail
  · intro h
    obtain ⟨literal, htext, hliteral, htail⟩ := literal_of_readNumber h
    refine ⟨argument.takeWhile isSpace, literal, ?_, fun c hc => List.mem_takeWhile_imp hc,
      hliteral, htail⟩
    rw [List.append_assoc, ← htext, List.takeWhile_append_dropWhile]

theorem isInteger_iff {argument : StdString} {z : ℤ} :
    IsInteger argument z ↔ readNumber (argument.dropWhile isSpace) = some (z, []) := by
  rw [← beginsWith_iff]
  constructor
  · rintro ⟨space, literal, rfl, hspace, hliteral⟩
    exact ⟨space, literal, (List.append_nil _).symm, hspace, hliteral, nofun⟩
  · rintro ⟨space, literal, rfl, hspace, hliteral, -⟩
    exact ⟨space, literal, List.append_nil _, hspace, hliteral⟩

theorem extractInt_number {argument tail : StdString} {z : ℤ}
    (h : readNumber (argument.dropWhile isSpace) = some (z, tail)) (t : Int32) :
    extractInt argument t = storeInt z := by
  rw [extractInt]
  split
  · rename_i hskip
    rw [hskip] at h
    cases h
  · rename_i c text hskip
    rw [hskip] at h
    rw [h]

/-- Without a number, 0 stays 0. -/
theorem extractInt_malformed {argument : StdString}
    (h : readNumber (argument.dropWhile isSpace) = none) : extractInt argument 0 = (0, false) := by
  rw [extractInt]
  split
  · rfl
  · rename_i c text hskip
    rw [hskip] at h
    rw [h]

theorem storeInt_fits {z : ℤ} (h : Fits z) :
    storeInt z = (Int32.ofInt z, true) ∧ (Int32.ofInt z).toInt = z := by
  rw [storeInt, if_neg (Int.not_lt.mpr h.1), if_neg (Int.not_lt.mpr h.2)]
  exact ⟨rfl, Int32.toInt_ofInt_of_le h.1 (Int.lt_of_le_sub_one h.2)⟩

/-- The limits of `int` are not 0. -/
theorem storeInt_not_fits {z : ℤ} (h : ¬Fits z) :
    (storeInt z).2 = false ∧ (storeInt z).1 ≠ 0 := by
  rw [storeInt]
  split
  · exact ⟨rfl, by decide⟩
  · split
    · exact ⟨rfl, by decide⟩
    · exact absurd ⟨Int.not_lt.mp ‹_›, Int.not_lt.mp ‹_›⟩ h

/-! ### `SingleValue<int>` -/

/-- The first `digest` of a `SingleValue<int>`. -/
def digestInt (name description argument : StdString) : Outcome (SingleValue Int32) :=
  (SingleValue.create .int name description).digest .int argument

/-- The argument is an integer that fits, but for a tail that follows it. -/
def HasTail (argument : StdString) : Prop :=
  ∃ z tail, BeginsWith argument z tail ∧ tail ≠ [] ∧ Fits z

/-- What a fresh `SingleValue<int>` does with an argument: it accepts just the integers
that fit, and stores the integer; it throws at every other argument. -/
structure AcceptsIntegers (name description argument : StdString) : Prop where
  accepts : (∃ v, digestInt name description argument = .ok () v) ↔
    ∃ z, IsInteger argument z ∧ Fits z
  stores : ∀ z, IsInteger argument z → Fits z →
    ∃ v, digestInt name description argument = .ok () v ∧ v.t.toInt = z
  throws : (¬∃ z, IsInteger argument z ∧ Fits z) →
    ∃ e v, digestInt name description argument = .error e v

variable {name description argument : StdString}

/-- The holder accepts an argument that begins with an integer that fits. -/
theorem digestInt_ok {z : ℤ} {tail : StdString}
    (h : readNumber (argument.dropWhile isSpace) = some (z, tail)) (hfits : Fits z) :
    ∃ v, digestInt name description argument = .ok () v ∧ v.t.toInt = z := by
  obtain ⟨hstore, hvalue⟩ := storeInt_fits hfits
  have hextract : ValueType.int.extract argument 0 = (Int32.ofInt z, true) :=
    (extractInt_number h 0).trans hstore
  refine ⟨_, Value.singleDigest_ok rfl rfl (congrArg Prod.snd hextract), ?_⟩
  rw [← hvalue]
  exact congrArg (fun r => r.1.toInt) hextract

theorem digestInt_error
    (h : ∀ z tail, readNumber (argument.dropWhile isSpace) = some (z, tail) → ¬Fits z) :
    ∃ e v, digestInt name description argument = .error e v := by
  apply Value.singleDigest_error rfl
  rw [Bool.not_eq_true]
  cases hread : readNumber (argument.dropWhile isSpace) with
  | none => exact congrArg Prod.snd (extractInt_malformed hread)
  | some r =>
    have hstore := storeInt_not_fits (h r.1 r.2 hread)
    exact (congrArg Prod.snd (extractInt_number hread 0)).trans hstore.1

/-- **`SingleValue<int>` accepts exactly the integers, unless the argument goes on behind
one.** -/
theorem acceptsIntegers_iff (name description argument : StdString) :
    AcceptsIntegers name description argument ↔ ¬HasTail argument := by
  -- what decides is the number that the argument begins with, if there is one
  have hinteger {z : ℤ} (hz : IsInteger argument z) :
      readNumber (argument.dropWhile isSpace) = some (z, []) := isInteger_iff.mp hz
  constructor
  · rintro haccepts ⟨z, tail, hbegins, htail, hfits⟩
    rw [beginsWith_iff] at hbegins
    obtain ⟨v, hok, -⟩ := digestInt_ok hbegins hfits
    obtain ⟨z', hz', -⟩ := haccepts.accepts.mp ⟨v, hok⟩
    rw [hinteger hz'] at hbegins
    cases hbegins
    exact htail rfl
  · intro htail
    have hfit {z : ℤ} {tail : StdString} (hfits : Fits z)
        (h : readNumber (argument.dropWhile isSpace) = some (z, tail)) : IsInteger argument z := by
      rw [isInteger_iff, h]
      by_contra hne
      exact htail ⟨z, tail, beginsWith_iff.mpr h, fun hnil => hne (by rw [hnil]), hfits⟩
    have hthrows (hnot : ¬∃ z, IsInteger argument z ∧ Fits z) :
        ∃ e v, digestInt name description argument = .error e v :=
      digestInt_error fun z tail h hfits => hnot ⟨z, hfit hfits h, hfits⟩
    refine ⟨⟨fun ⟨v, hok⟩ => ?_, fun ⟨z, hz, hfits⟩ => ?_⟩, fun z hz hfits => ?_, hthrows⟩
    · by_contra hnot
      obtain ⟨e, v', herror⟩ := hthrows hnot
      rw [hok] at herror
      cases herror
    · obtain ⟨v, hok, -⟩ := digestInt_ok (hinteger hz) hfits
      exact ⟨v, hok⟩
    · exact digestInt_ok (hinteger hz) hfits

/-- `digest("12abc")` returns, and the value is 12. -/
theorem acceptsIntegers_tail :
    ¬AcceptsIntegers (str "int name") (str "int description") (str "12abc") := by
  intro h
  have htail : (readNumber ((str "12abc").dropWhile isSpace)).map Prod.snd = some (str "abc") := by
    decide
  obtain ⟨z, hz, -⟩ := h.accepts.mp ⟨_, rfl⟩
  rw [isInteger_iff.mp hz] at htail
  cases htail

end Brasa.Argparse
