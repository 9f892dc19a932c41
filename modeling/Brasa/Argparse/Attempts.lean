import Brasa.Argparse.Integer
import Brasa.Argparse.Options
import Brasa.Lib.Run

/-!
# Brasa.Argparse.Attempts

**What calls of `digest` leave behind when some of them throw.** An object is given
one argument after the other; an exception is caught and the object is used again.
Beside the object stand the arguments of the calls that returned.

* a multi-value holder is a log of them, as long as every argument converts;
* a `SingleValue` is a register written once, as long as no failed conversion stores
  another value than `T{}`;
* an option is present as soon as its checker accepts an argument, converted or not.
-/

namespace Brasa.Argparse

open Brasa.Lib

/-- An object in use, and the arguments of the calls of its `digest` that returned. -/
structure Attempts (σ : Type) where
  object : σ
  accepted : List StdString

section Attempt

variable {σ : Type} {digest : StdString → σ → Outcome σ} {r : Attempts σ} {argument : StdString}

/-- One more call. -/
def attempt (digest : StdString → σ → Outcome σ) (r : Attempts σ) (argument : StdString) :
    Option (Attempts σ) :=
  match digest argument r.object with
  | .ok () s => some ⟨s, r.accepted ++ [argument]⟩
  | .error _ s => some ⟨s, r.accepted⟩

theorem attempt_ok {s : σ} (h : digest argument r.object = .ok () s) :
    attempt digest r argument = some ⟨s, r.accepted ++ [argument]⟩ := by
  rw [attempt, h]

theorem attempt_error {s : σ} {e : InvalidArgument} (h : digest argument r.object = .error e s) :
    attempt digest r argument = some ⟨s, r.accepted⟩ := by
  rw [attempt, h]

end Attempt

variable {T : Type}

/-! ### Multi-value holders -/

section Log

/-- What a multi-value holder is for: its values are those of the calls that returned;
a call throws when its argument does not convert or the holder is full, and
`can_digest` tells the latter. -/
structure IsLog (type : ValueType T) (capacity : ℕ∞) (r : Attempts (Value T)) : Prop where
  values : r.object.stored = r.accepted.map fun a => (type.extract a type.init).1
  throws : ∀ a, (∃ e v, r.object.digest a = .error e v) ↔
    ¬(type.extract a type.init).2 = true ∨ capacity ≤ r.accepted.length
  canDigest : r.object.canDigest = true ↔ (r.accepted.length : ℕ∞) < capacity

/-- The argument converts, unless the holder is full. -/
def InTurn (type : ValueType T) (r : Attempts (Value T)) (argument : StdString) : Prop :=
  r.object.canDigest = true → (type.extract argument type.init).2 = true

/-- A `MultiValue` (without a bound on its arguments) or a `LimitedMultiValue`. -/
inductive MultiHolder (type : ValueType T) : ℕ∞ → Value T → Prop
  | multi (v : MultiValueBase T) : MultiHolder type ⊤ (.multi type v)
  | limited (N : ℕ) (v : MultiValueBase T) : MultiHolder type N (.limited N type v)

variable {type : ValueType T} {capacity : ℕ∞} {v : Value T} {r r' : Attempts (Value T)}
  {argument : StdString}

theorem MultiHolder.canDigest_iff (h : MultiHolder type capacity v) :
    v.canDigest = true ↔ (v.stored.length : ℕ∞) < capacity := by
  cases h with
  | multi v => simp [Value.canDigest]
  | limited N v =>
    rw [Value.canDigest, decide_eq_true_eq, Value.stored, MultiValueBase.values, List.length_map,
      Nat.cast_lt]
    rfl

theorem MultiHolder.digest_ok (h : MultiHolder type capacity v) (hcan : v.canDigest = true)
    (hconv : (type.extract argument type.init).2 = true) :
    ∃ v', v.digest argument = .ok () v' ∧ MultiHolder type capacity v' ∧
      v'.stored = v.stored ++ [(type.extract argument type.init).1] := by
  cases h with
  | multi v =>
    refine ⟨_, by rw [Value.digest, Value.multiDigest_ok hconv], .multi _, ?_⟩
    simp [Value.stored, MultiValueBase.values]
  | limited N v =>
    rw [Value.canDigest] at hcan
    refine ⟨_, by rw [Value.digest, assertCanDigest, if_pos hcan, Value.multiDigest_ok hconv],
      .limited N _, ?_⟩
    simp [Value.stored, MultiValueBase.values]

/-- A call that throws at its argument has already added an element. -/
theorem MultiHolder.digest_error (h : MultiHolder type capacity v) (hcan : v.canDigest = true)
    (hconv : ¬(type.extract argument type.init).2 = true) :
    ∃ e v' t, v.digest argument = .error e v' ∧ v'.stored = v.stored ++ [t] := by
  cases h with
  | multi v =>
    obtain ⟨e, t, herror⟩ := Value.multiDigest_error (v := v) hconv
    refine ⟨e, _, t.t, by rw [Value.digest, herror], ?_⟩
    simp [Value.stored, MultiValueBase.values]
  | limited N v =>
    rw [Value.canDigest] at hcan
    obtain ⟨e, t, herror⟩ := Value.multiDigest_error (v := v) hconv
    refine ⟨e, _, t.t, by rw [Value.digest, assertCanDigest, if_pos hcan, herror], ?_⟩
    simp [Value.stored, MultiValueBase.values]

/-- The holder has stored the converted arguments of the calls that returned. -/
structure LogInv (type : ValueType T) (capacity : ℕ∞) (r : Attempts (Value T)) : Prop where
  holder : MultiHolder type capacity r.object
  values : r.object.stored = r.accepted.map fun a => (type.extract a type.init).1

theorem LogInv.canDigest_iff (hr : LogInv type capacity r) :
    r.object.canDigest = true ↔ (r.accepted.length : ℕ∞) < capacity := by
  rw [hr.holder.canDigest_iff, hr.values, List.length_map]

theorem LogInv.isLog (hr : LogInv type capacity r) : IsLog type capacity r := by
  refine ⟨hr.values, fun a => ?_, hr.canDigest_iff⟩
  by_cases hcan : r.object.canDigest = true
  · have hroom := not_le_of_gt (hr.canDigest_iff.mp hcan)
    by_cases hconv : (type.extract a type.init).2 = true
    · obtain ⟨v', hok, -⟩ := hr.holder.digest_ok hcan hconv
      refine iff_of_false ?_ (by simp [hconv, hroom])
      rintro ⟨e, v, herror⟩
      rw [hok] at herror
      cases herror
    · obtain ⟨e, v', t, herror, -⟩ := hr.holder.digest_error hcan hconv
      exact iff_of_true ⟨e, v', herror⟩ (.inl hconv)
  · obtain ⟨e, herror⟩ := Value.digest_full hcan a
    have hfull := le_of_not_gt fun hroom => hcan (hr.canDigest_iff.mpr hroom)
    exact iff_of_true ⟨e, _, herror⟩ (.inr hfull)

theorem LogInv.step (hr : LogInv type capacity r) (hturn : InTurn type r argument)
    (h : attempt Value.digest r argument = some r') : LogInv type capacity r' := by
  by_cases hcan : r.object.canDigest = true
  · obtain ⟨v', hok, hholder, hvalues⟩ := hr.holder.digest_ok hcan (hturn hcan)
    rw [attempt_ok hok] at h
    cases h
    exact ⟨hholder, by rw [hvalues, hr.values, List.map_append]; rfl⟩
  · obtain ⟨e, herror⟩ := Value.digest_full hcan argument
    rw [attempt_error herror] at h
    cases h
    exact hr

/-- An argument that does not convert makes the values one more than the calls that
returned. -/
theorem LogInv.inTurn (hr : LogInv type capacity r)
    (h : ∀ r', attempt Value.digest r argument = some r' → IsLog type capacity r') :
    InTurn type r argument := by
  intro hcan
  by_contra hconv
  obtain ⟨e, v', t, herror, hvalues⟩ := hr.holder.digest_error hcan hconv
  have hlog := (h _ (attempt_error herror)).values
  rw [hvalues, hr.values] at hlog
  have hlength := congrArg List.length hlog
  simp at hlength

theorem log_iff (hr : LogInv type capacity r) (calls : List StdString) :
    Always (attempt Value.digest) (IsLog type capacity) r calls ↔
      Along (attempt Value.digest) (InTurn type) r calls :=
  always_iff_along (fun _ hr => hr.isLog) (fun _ _ _ hr hturn h => hr.step hturn h)
    (fun _ _ hr h => hr.inTurn h) hr

/-- **A multi-value holder is an exact log of the calls that returned, in every state,
exactly if no call made while it takes arguments has one that does not convert.** -/
theorem multi_log_iff (type : ValueType T) (name description : StdString)
    (calls : List StdString) :
    (Always (attempt Value.digest) (IsLog type ⊤)
        ⟨.multi type (MultiValueBase.create name description), []⟩ calls ↔
      Along (attempt Value.digest) (InTurn type)
        ⟨.multi type (MultiValueBase.create name description), []⟩ calls) ∧
    ∀ N : ℕ, Always (attempt Value.digest) (IsLog type N)
        ⟨.limited N type (MultiValueBase.create name description), []⟩ calls ↔
      Along (attempt Value.digest) (InTurn type)
        ⟨.limited N type (MultiValueBase.create name description), []⟩ calls :=
  ⟨log_iff ⟨.multi _, rfl⟩ calls, fun N => log_iff ⟨.limited N _, rfl⟩ calls⟩

/-- `digest("a")` of a `MultiValue<int>` throws, and then `values()` is `{0}`. -/
theorem multi_log_garbage :
    ¬Always (attempt Value.digest) (IsLog .int ⊤)
      ⟨.multi .int (MultiValueBase.create (str "ints name") (str "ints description")), []⟩
      [str "a"] := by
  intro h
  have hvalues := (Always.last h rfl).values
  exact absurd hvalues (by decide)

end Log

/-! ### `SingleValue` -/

section WriteOnce

/-- One more call of `digest` of a `SingleValue`. -/
abbrev attemptSingle (type : ValueType T) :
    Attempts (SingleValue T) → StdString → Option (Attempts (SingleValue T)) :=
  attempt fun argument v => v.digest type argument

/-- What a `SingleValue` is for: the first call that returns writes it. Until then its
value is `T{}`; from then on it is the converted argument of that call, and every call
throws. -/
def WriteOnce (type : ValueType T) (r : Attempts (SingleValue T)) : Prop :=
  match r.accepted with
  | [] => r.object.t = type.init ∧ r.object.canDigest = true
  | a :: _ => r.object.t = (type.extract a type.init).1 ∧ r.object.canDigest = false ∧
      ∀ b, ∃ e v, r.object.digest type b = .error e v

/-- If the call throws, it changes neither `value()` nor `can_digest()`. -/
def Keeps (type : ValueType T) (r : Attempts (SingleValue T)) (argument : StdString) : Prop :=
  ∀ e v, r.object.digest type argument = .error e v →
    v.t = r.object.t ∧ v.canDigest = r.object.canDigest

/-- Before the first call that returns, a conversion that fails stores `T{}`. -/
def StoresNothing (type : ValueType T) (r : Attempts (SingleValue T)) (argument : StdString) :
    Prop :=
  r.accepted = [] → (type.extract argument type.init).2 = false →
    (type.extract argument type.init).1 = type.init

/-- The argument begins with an integer that does not fit. -/
def OutOfRange (argument : StdString) : Prop := ∃ z tail, BeginsWith argument z tail ∧ ¬Fits z

variable {type : ValueType T} {v : SingleValue T} {r r' : Attempts (SingleValue T)}
  {argument : StdString}

theorem attemptSingle_ok (h : r.object.digest type argument = .ok () v) :
    attemptSingle type r argument = some ⟨v, r.accepted ++ [argument]⟩ :=
  attempt_ok h

theorem attemptSingle_error {e : InvalidArgument} (h : r.object.digest type argument = .error e v) :
    attemptSingle type r argument = some ⟨v, r.accepted⟩ :=
  attempt_error h

/-- A failed conversion stores its result all the same. -/
theorem singleDigest_stores (hcan : v.canDigest = true) (ht : v.t = type.init)
    (hconv : (type.extract argument type.init).2 = false) :
    ∃ e, v.digest type argument
      = .error e { v with t := (type.extract argument type.init).1 } := by
  rw [SingleValue.digest, hcan, ht]
  rw [← Prod.mk.eta (p := type.extract argument type.init), hconv]
  exact ⟨_, rfl⟩

theorem writeOnce_create (type : ValueType T) (name description : StdString) :
    WriteOnce type ⟨.create type name description, []⟩ :=
  ⟨rfl, rfl⟩

/-- The first call that returns has converted its argument from `T{}`. -/
theorem WriteOnce.digest_cases (hr : WriteOnce type r) (hnothing : StoresNothing type r argument) :
    (∃ e, r.object.digest type argument = .error e r.object) ∨
      (r.accepted = [] ∧ ∃ v, r.object.digest type argument = .ok () v ∧ v.canDigest = false ∧
        v.t = (type.extract argument type.init).1) := by
  rw [WriteOnce] at hr
  split at hr
  · rename_i hnil
    obtain ⟨ht, hcan⟩ := hr
    cases hconv : (type.extract argument type.init).2 with
    | true =>
      have hdig : r.object.digested = false := by simpa [SingleValue.canDigest] using hcan
      exact .inr ⟨hnil, _, Value.singleDigest_ok hdig ht hconv, rfl, rfl⟩
    | false =>
      obtain ⟨e, herror⟩ := singleDigest_stores hcan ht hconv
      rw [hnothing hnil hconv, ← ht] at herror
      exact .inl ⟨e, herror⟩
  · exact .inl (Value.singleDigest_digested hr.2.1 argument)

theorem WriteOnce.step (hr : WriteOnce type r) (hnothing : StoresNothing type r argument)
    (h : attemptSingle type r argument = some r') : WriteOnce type r' := by
  obtain ⟨e, herror⟩ | ⟨hnil, v, hok, hcan, ht⟩ := hr.digest_cases hnothing
  · rw [attemptSingle_error herror] at h
    cases h
    exact hr
  · rw [attemptSingle_ok hok, hnil] at h
    cases h
    refine ⟨ht, hcan, fun b => ?_⟩
    obtain ⟨e, herror⟩ := Value.singleDigest_digested hcan b
    exact ⟨e, v, herror⟩

theorem WriteOnce.keeps (hr : WriteOnce type r) (hnothing : StoresNothing type r argument) :
    Keeps type r argument := by
  intro e v herror
  obtain ⟨e', herror'⟩ | ⟨-, v', hok, -⟩ := hr.digest_cases hnothing
  · rw [herror] at herror'
    cases herror'
    exact ⟨rfl, rfl⟩
  · rw [herror] at hok
    cases hok

/-- A call that throws and stores something else changes the value. -/
theorem WriteOnce.storesNothing (hr : WriteOnce type r)
    (h : ∀ r', attemptSingle type r argument = some r' → WriteOnce type r') :
    StoresNothing type r argument := by
  intro hnil hconv
  rw [WriteOnce, hnil] at hr
  obtain ⟨e, herror⟩ := singleDigest_stores hr.2 hr.1 hconv
  have hafter := h _ (attemptSingle_error herror)
  rw [WriteOnce, hnil] at hafter
  exact hafter.1

theorem writeOnce_iff (hr : WriteOnce type r) (calls : List StdString) :
    (Always (attemptSingle type) (WriteOnce type) r calls ∧
      Along (attemptSingle type) (Keeps type) r calls) ↔
    Along (attemptSingle type) (StoresNothing type) r calls := by
  have hiff : Always (attemptSingle type) (WriteOnce type) r calls ↔
      Along (attemptSingle type) (StoresNothing type) r calls :=
    always_iff_along (fun _ hr => hr) (fun _ _ _ hr hnothing h => hr.step hnothing h)
      (fun _ _ hr h => hr.storesNothing h) hr
  refine ⟨fun h => hiff.mp h.1, fun h => ⟨hiff.mpr h, ?_⟩⟩
  exact Along.of_invariant (fun _ _ _ hr hnothing h => WriteOnce.step hr hnothing h)
    (fun _ _ hr hnothing => hr.keeps hnothing) hr h

/-- Of the arguments that do not convert, it is those out of range that store something. -/
theorem storesNothing_int (r : Attempts (SingleValue Int32)) (argument : StdString) :
    StoresNothing .int r argument ↔ (r.accepted = [] → ¬OutOfRange argument) := by
  have hextract : (extractInt argument 0).2 = false → (extractInt argument 0).1 = 0 ↔
      ¬OutOfRange argument := by
    cases hread : readNumber (argument.dropWhile isSpace) with
    | none =>
      rw [extractInt_malformed hread]
      refine iff_of_true (fun _ => rfl) ?_
      rintro ⟨z, tail, hbegins, -⟩
      rw [beginsWith_iff.mp hbegins] at hread
      cases hread
    | some n =>
      obtain ⟨z, tail⟩ := n
      rw [extractInt_number hread]
      by_cases hfits : Fits z
      · rw [(storeInt_fits hfits).1]
        refine iff_of_true nofun ?_
        rintro ⟨z', tail', hbegins, hnot⟩
        rw [beginsWith_iff.mp hbegins] at hread
        cases hread
        exact hnot hfits
      · obtain ⟨hfail, hlimit⟩ := storeInt_not_fits hfits
        refine iff_of_false (fun h => hlimit (h hfail)) ?_
        exact fun h => h ⟨z, tail, beginsWith_iff.mpr hread, hfits⟩
  exact ⟨fun h hnil => hextract.mp (h hnil), fun h hnil => hextract.mpr (h hnil)⟩

/-- **A `SingleValue<int>` is written once by the first call that returns, and by no
other, exactly if no call before that one has an integer out of range;
a `SingleValue<std::string>` always is.** -/
theorem write_once_iff (name description : StdString) (calls : List StdString) :
    ((Always (attemptSingle .int) (WriteOnce .int) ⟨.create .int name description, []⟩ calls ∧
        Along (attemptSingle .int) (Keeps .int) ⟨.create .int name description, []⟩ calls) ↔
      Along (attemptSingle .int) (fun r argument => r.accepted = [] → ¬OutOfRange argument)
        ⟨.create .int name description, []⟩ calls) ∧
    Always (attemptSingle .string) (WriteOnce .string) ⟨.create .string name description, []⟩
        calls ∧
      Along (attemptSingle .string) (Keeps .string) ⟨.create .string name description, []⟩
        calls := by
  constructor
  · rw [writeOnce_iff (writeOnce_create _ _ _) calls]
    exact ⟨Along.mono fun r argument => (storesNothing_int r argument).mp,
      Along.mono fun r argument => (storesNothing_int r argument).mpr⟩
  · exact (writeOnce_iff (writeOnce_create _ _ _) calls).mpr
      (along_of_forall fun r argument _ => nofun)

/-- `digest("99999999999")` throws, and then `value()` is 2147483647. -/
theorem write_once_out_of_range :
    ¬Always (attemptSingle .int) (WriteOnce .int)
      ⟨.create .int (str "int name") (str "int description"), []⟩ [str "99999999999"] := by
  intro h
  have hvalue := (Always.last h rfl).1
  exact absurd hvalue (by decide)

end WriteOnce

/-! ### The presence flag -/

section Present

variable {δ : Type} {type : DigesterType δ} {r r' : Attempts (BaseParameterParser δ)}
  {argument : StdString}

/-- One more call of `digest` of a parameter parser. -/
abbrev attemptParameter (type : DigesterType δ) :
    Attempts (BaseParameterParser δ) → StdString → Option (Attempts (BaseParameterParser δ)) :=
  attempt fun argument p => p.digest type argument

/-- What `is_present` is for: a call of `digest` has returned. -/
def Present (r : Attempts (BaseParameterParser δ)) : Prop :=
  r.object.present = true ↔ r.accepted ≠ []

/-- The three things that `digest` can do. -/
theorem digest_parameter_cases (type : DigesterType δ) (p : BaseParameterParser δ)
    (argument : StdString) :
    (p.checkerFunction argument = false ∧ ∃ e, p.digest type argument = .error e p) ∨
    (p.checkerFunction argument = true ∧
      ∃ d, type.digest argument p.digester = .ok () d ∧
        p.digest type argument = .ok () { p with present := true, digester := d }) ∨
    (p.checkerFunction argument = true ∧
      ∃ e d, type.digest argument p.digester = .error e d ∧
        p.digest type argument = .error e { p with present := true, digester := d }) := by
  rw [BaseParameterParser.digest]
  cases p.checkerFunction argument with
  | false => exact .inl ⟨rfl, _, rfl⟩
  | true =>
    cases h : type.digest argument p.digester with
    | ok u d => exact .inr (.inl ⟨rfl, d, rfl, rfl⟩)
    | error e d => exact .inr (.inr ⟨rfl, e, d, rfl, rfl⟩)

theorem attemptParameter_ok {p : BaseParameterParser δ}
    (h : r.object.digest type argument = .ok () p) :
    attemptParameter type r argument = some ⟨p, r.accepted ++ [argument]⟩ :=
  attempt_ok h

theorem attemptParameter_error {p : BaseParameterParser δ} {e : InvalidArgument}
    (h : r.object.digest type argument = .error e p) :
    attemptParameter type r argument = some ⟨p, r.accepted⟩ :=
  attempt_error h

/-- A call of `digest` has returned, and the flag says so. -/
def Provided (r : Attempts (BaseParameterParser δ)) : Prop :=
  r.object.present = true ∧ r.accepted ≠ []

/-- No call resets the flag. -/
theorem Provided.step (hr : Provided r) (h : attemptParameter type r argument = some r') :
    Provided r' := by
  obtain ⟨hpresent, haccepted⟩ := hr
  obtain ⟨-, e, herror⟩ | ⟨-, d, -, hok⟩ | ⟨-, e, d, -, herror⟩ :=
    digest_parameter_cases type r.object argument
  · rw [attemptParameter_error herror] at h
    cases h
    exact ⟨hpresent, haccepted⟩
  · rw [attemptParameter_ok hok] at h
    cases h
    exact ⟨rfl, by simp⟩
  · rw [attemptParameter_error herror] at h
    cases h
    exact ⟨rfl, haccepted⟩

theorem Provided.always (hr : Provided r) (calls : List StdString) :
    Always (attemptParameter type) Present r calls := by
  induction calls generalizing r with
  | nil => exact iff_of_true hr.1 hr.2
  | cons argument calls ih => exact ⟨iff_of_true hr.1 hr.2, fun r' h => ih (hr.step h)⟩

/-- Until the checker lets an argument pass, nothing happens; that argument sets the
flag, and is the one the digester has to accept. -/
theorem always_present_iff {p : BaseParameterParser δ} (hp : p.present = false)
    (calls : List StdString) :
    Always (attemptParameter type) Present ⟨p, []⟩ calls ↔
      ∀ argument, calls.find? p.checkerFunction = some argument →
        ∃ d, type.digest argument p.digester = .ok () d := by
  have hfresh : Present (⟨p, []⟩ : Attempts (BaseParameterParser δ)) :=
    iff_of_false (by simp [hp]) (by simp)
  induction calls with
  | nil => exact iff_of_true hfresh nofun
  | cons argument calls ih =>
    obtain ⟨hcheck, e, herror⟩ | ⟨hcheck, d, hdigest, hok⟩ | ⟨hcheck, e, d, hdigest, herror⟩ :=
      digest_parameter_cases type p argument
    · rw [List.find?_cons_of_neg (by simp [hcheck])]
      have hstep : attemptParameter type ⟨p, []⟩ argument = some ⟨p, []⟩ :=
        attemptParameter_error herror
      refine Iff.trans ⟨fun h => h.2 _ hstep, fun h => ⟨hfresh, fun r' hr' => ?_⟩⟩ ih
      rw [hstep] at hr'
      cases hr'
      exact h
    · rw [List.find?_cons_of_pos (by simp [hcheck])]
      refine iff_of_true ⟨hfresh, fun r' hr' => ?_⟩ ?_
      · rw [attemptParameter_ok hok] at hr'
        cases hr'
        exact Provided.always ⟨rfl, by simp⟩ calls
      · rintro _ ⟨⟩
        exact ⟨d, hdigest⟩
    · rw [List.find?_cons_of_pos (by simp [hcheck])]
      refine iff_of_false (fun h => ?_) fun h => ?_
      · -- the flag is set, and no call has returned
        exact (h.2 _ (attemptParameter_error herror)).head.mp rfl rfl
      · obtain ⟨d', hok⟩ := h argument rfl
        rw [hdigest] at hok
        cases hok

/-- `is_present` is right in every state of a fresh parser. -/
def AlwaysPresent (type : DigesterType δ) (shortOption : Int8)
    (longOption name description : StdString) (checkerFunction : StdString → Bool)
    (calls : List StdString) : Prop :=
  Always (attemptParameter type) Present
    ⟨.create type shortOption longOption name description checkerFunction, []⟩ calls

/-- The first argument that the checker lets pass, if there is one, meets `P`. -/
def FirstPassed (checkerFunction : StdString → Bool) (calls : List StdString)
    (P : StdString → Prop) : Prop :=
  ∀ argument, calls.find? checkerFunction = some argument → P argument

/-- For a digester that is a holder, what has to be true of that argument is that it
converts. -/
theorem alwaysPresent_holder_iff {type : DigesterType (Value T)}
    (hdigest : type.digest = Value.digest) (hfresh : (type.create [] []).Fresh) (shortOption : Int8)
    (longOption name description : StdString) (checkerFunction : StdString → Bool)
    (calls : List StdString) :
    AlwaysPresent type shortOption longOption name description checkerFunction calls ↔
      FirstPassed checkerFunction calls fun argument =>
        1 ≤ (type.create [] []).capacity ∧ (type.create [] []).Converts argument := by
  refine (always_present_iff rfl calls).trans (forall₂_congr fun argument _ => ?_)
  rw [hdigest]
  exact hfresh.accepts_iff argument

/-- **`is_present()` is right in every state exactly if the first argument that the
checker lets pass is accepted by the digester, too: it converts, and the holder takes
at least one argument.** -/
theorem present_iff (shortOption : Int8) (longOption name description : StdString)
    (checkerFunction : StdString → Bool) (calls : List StdString) :
    (∀ {δ : Type} (type : DigesterType δ),
      AlwaysPresent type shortOption longOption name description checkerFunction calls ↔
        FirstPassed checkerFunction calls fun argument =>
          ∃ d, type.digest argument (type.create [] []) = .ok () d) ∧
    ∀ {T : Type} (type : ValueType T),
      (AlwaysPresent (.single type) shortOption longOption name description checkerFunction calls ↔
        FirstPassed checkerFunction calls fun argument =>
          (type.extract argument type.init).2 = true) ∧
      (AlwaysPresent (.multi type) shortOption longOption name description checkerFunction calls ↔
        FirstPassed checkerFunction calls fun argument =>
          (type.extract argument type.init).2 = true) ∧
      ∀ N : ℕ, AlwaysPresent (.limited N type) shortOption longOption name description
          checkerFunction calls ↔
        FirstPassed checkerFunction calls fun argument =>
          1 ≤ N ∧ (type.extract argument type.init).2 = true := by
  refine ⟨fun type => always_present_iff rfl calls, fun type => ⟨?_, ?_, fun N => ?_⟩⟩
  · refine (alwaysPresent_holder_iff rfl (.single type [] []) ..).trans ?_
    exact forall₂_congr fun argument _ => and_iff_right le_rfl
  · refine (alwaysPresent_holder_iff rfl (.multi type [] []) ..).trans ?_
    exact forall₂_congr fun argument _ => and_iff_right le_top
  · refine (alwaysPresent_holder_iff rfl (.limited N type [] []) ..).trans ?_
    exact forall₂_congr fun argument _ =>
      and_congr_left' (by simp [DigesterType.limited, Value.capacity])

/-- `digest("abc")` of a parser over a `SingleValue<int>` throws, and then
`is_present()` holds. -/
theorem present_without_value :
    ¬AlwaysPresent (.single .int) (chr 'c') (str "count") (str "N") (str "how many") notEmpty
      [str "abc"] := by
  intro h
  have hpresent := (Always.last h rfl).mp rfl
  exact absurd rfl hpresent

end Present

end Brasa.Argparse
