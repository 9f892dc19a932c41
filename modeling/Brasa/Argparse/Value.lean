import Mathlib.Data.ENat.Basic

/-!
# Brasa.Argparse.Value

The holders of positional arguments: `SingleValue`, `MultiValue` and
`LimitedMultiValue`. A holder **digests** one argument of the command line at a
time, converting it to its type with `operator>>`, and tells through `can_digest`
whether it takes another.

The holders of one parser are of different types. Here `T` is a sum of all of
them, and each holder carries the conversion to its own part of `T`.
-/

namespace Brasa.Argparse

/-- A `std::string`; its characters are `char`s, which are signed. -/
abbrev StdString := List Int8

/-- A character literal of the source. -/
def chr (c : Char) : Int8 := Int8.ofNat c.toNat

/-- A string literal of the source. -/
def str (s : String) : StdString := s.toList.map chr

/-- The one exception of the argument parser. -/
structure InvalidArgument where
  what : StdString
deriving DecidableEq, Repr

/-- What a call on an object `σ` that may throw leaves behind: the object as it is
when the call returns, or as it is when the exception leaves the call. -/
abbrev Outcome (σ : Type) := EStateM.Result InvalidArgument σ Unit

/-- The type of a value, as its holder sees it: the value `T{}`, and `operator>>`
on a stream of the argument, with the state of the stream after it. -/
structure ValueType (T : Type) where
  init : T
  extract : StdString → T → T × Bool

/-- The specialisation for `std::string` takes the argument as it is. -/
def ValueType.string : ValueType StdString := ⟨[], fun argument _ => (argument, true)⟩

/-- `assert_can_digest`. -/
def assertCanDigest (canDigest : Bool) (argument : StdString) : Except InvalidArgument Unit :=
  if canDigest then .ok () else .error ⟨str "Cannot digest " ++ argument⟩

structure BaseValue where
  name : StdString
  description : StdString
deriving DecidableEq, Repr

/-! ### `SingleValue` -/

structure SingleValue (T : Type) where
  base : BaseValue
  digested : Bool
  t : T
deriving DecidableEq, Repr

namespace SingleValue

variable {T : Type}

/-- The constructor. -/
def create (type : ValueType T) (name description : StdString) : SingleValue T :=
  ⟨⟨name, description⟩, false, type.init⟩

def canDigest (v : SingleValue T) : Bool := !v.digested

/-- A failed conversion has already written what it made of the argument to `t_`. -/
def digest (type : ValueType T) (v : SingleValue T) (argument : StdString) :
    Outcome (SingleValue T) :=
  match assertCanDigest v.canDigest argument with
  | .error e => .error e v
  | .ok () =>
    match type.extract argument v.t with
    | (t, true) => .ok () { v with t := t, digested := true }
    | (t, false) =>
      .error ⟨str "could not convert value '" ++ argument ++ str "' of " ++ v.base.name⟩
        { v with t := t }

end SingleValue

/-! ### `MultiValueBase` -/

structure MultiValueBase (T : Type) where
  base : BaseValue
  ts : List (SingleValue T)
deriving DecidableEq, Repr

namespace MultiValueBase

variable {T : Type}

/-- The constructor. -/
def create (name description : StdString) : MultiValueBase T := ⟨⟨name, description⟩, []⟩

def size (v : MultiValueBase T) : ℕ := v.ts.length

/-- `values`: the converted values in the order of the arguments. -/
def values (v : MultiValueBase T) : List T := v.ts.map SingleValue.t

/-- The new element stays in `ts_` when its own `digest` throws. -/
def digest (type : ValueType T) (v : MultiValueBase T) (argument : StdString) :
    Outcome (MultiValueBase T) :=
  match (SingleValue.create type [] []).digest type argument with
  | .ok () t => .ok () { v with ts := v.ts ++ [t] }
  | .error e t => .error e { v with ts := v.ts ++ [t] }

end MultiValueBase

/-! ### Holders -/

/-- A holder of positional arguments: an element of `ValueTupleT`. -/
inductive Value (T : Type)
  | single (type : ValueType T) (v : SingleValue T)
  | multi (type : ValueType T) (v : MultiValueBase T)
  | limited (N : ℕ) (type : ValueType T) (v : MultiValueBase T)

namespace Value

variable {T : Type}

def base : Value T → BaseValue
  | single _ v => v.base
  | multi _ v => v.base
  | limited _ _ v => v.base

def type : Value T → ValueType T
  | single type _ => type
  | multi type _ => type
  | limited _ type _ => type

def canDigest : Value T → Bool
  | single _ v => v.canDigest
  | multi _ _ => true
  | limited N _ v => v.size < N

def digest (argument : StdString) : Value T → Outcome (Value T)
  | single type v =>
    match v.digest type argument with
    | .ok () v' => .ok () (single type v')
    | .error e v' => .error e (single type v')
  | multi type v =>
    match v.digest type argument with
    | .ok () v' => .ok () (multi type v')
    | .error e v' => .error e (multi type v')
  | limited N type v =>
    match assertCanDigest (v.size < N) argument with
    | .error e => .error e (limited N type v)
    | .ok () =>
      match v.digest type argument with
      | .ok () v' => .ok () (limited N type v')
      | .error e v' => .error e (limited N type v')

/-! ### What a holder is for -/

/-- How many arguments a holder takes over its whole life. -/
def capacity : Value T → ℕ∞
  | single _ _ => 1
  | multi _ _ => ⊤
  | limited N _ _ => N

/-- The values a holder has stored, in the order of their arguments. -/
def stored : Value T → List T
  | single _ v => if v.digested then [v.t] else []
  | multi _ v => v.values
  | limited _ _ v => v.values

/-- The argument is one `operator>>` of the holder's type accepts. -/
def Converts (v : Value T) (argument : StdString) : Prop :=
  (v.type.extract argument v.type.init).2 = true

instance (v : Value T) (argument : StdString) : Decidable (v.Converts argument) :=
  inferInstanceAs (Decidable (_ = true))

/-- What the holder stores for an argument. -/
def convert (v : Value T) (argument : StdString) : T := (v.type.extract argument v.type.init).1

/-- A holder that nothing was digested into since its constructor. -/
inductive Fresh : Value T → Prop
  | single (type : ValueType T) (name description : StdString) :
      Fresh (single type (SingleValue.create type name description))
  | multi (type : ValueType T) (name description : StdString) :
      Fresh (multi type (MultiValueBase.create name description))
  | limited (N : ℕ) (type : ValueType T) (name description : StdString) :
      Fresh (limited N type (MultiValueBase.create name description))

/-- A holder between two digests: a `SingleValue` that has not digested still has
the value `T{}`, which is what `operator>>` starts from. -/
def Waiting : Value T → Prop
  | single type v => v.digested = false → v.t = type.init
  | multi _ _ => True
  | limited _ _ _ => True

/-- How many arguments the holder still takes. -/
def left : Value T → ℕ∞
  | single _ v => if v.digested then 0 else 1
  | multi _ _ => ⊤
  | limited N _ v => (N - v.size : ℕ)

theorem canDigest_iff (v : Value T) : v.canDigest = true ↔ 1 ≤ v.left := by
  cases v with
  | single type v => cases h : v.digested <;> simp [canDigest, SingleValue.canDigest, left, h]
  | multi type v => simp [canDigest, left]
  | limited N type v =>
    rw [canDigest, left, decide_eq_true_eq, ← Nat.cast_one, Nat.cast_le]
    omega

theorem left_eq_zero {v : Value T} (h : ¬v.canDigest = true) : v.left = 0 :=
  Order.lt_one_iff.mp (lt_of_not_ge fun hle => h (v.canDigest_iff.mpr hle))

/-! ### Fresh holders -/

theorem Fresh.waiting {v : Value T} (h : v.Fresh) : v.Waiting := by
  cases h with
  | single type name description => exact fun _ => rfl
  | multi type name description => trivial
  | limited N type name description => trivial

theorem Fresh.left {v : Value T} (h : v.Fresh) : v.left = v.capacity := by
  cases h with
  | single type name description => rfl
  | multi type name description => rfl
  | limited N type name description => rfl

theorem Fresh.stored {v : Value T} (h : v.Fresh) : v.stored = [] := by
  cases h with
  | single type name description => rfl
  | multi type name description => rfl
  | limited N type name description => rfl

/-! ### One argument -/

/-- What changes in a holder that digests an argument. -/
structure Takes (v : Value T) (argument : StdString) (v' : Value T) : Prop where
  waiting : v'.Waiting
  type : v'.type = v.type
  left : v.left = v'.left + 1
  stored : v'.stored = v.stored ++ [v.convert argument]

/-- `SingleValue::digest` of an argument that converts, on a value that waits. -/
theorem singleDigest_ok {type : ValueType T} {v : SingleValue T} {argument : StdString}
    (hv : v.digested = false) (ht : v.t = type.init)
    (hconv : (type.extract argument type.init).2 = true) :
    v.digest type argument
      = .ok () { v with t := (type.extract argument type.init).1, digested := true } := by
  simp only [SingleValue.digest, SingleValue.canDigest, assertCanDigest, hv, Bool.not_false,
    if_true, ht]
  rw [← Prod.mk.eta (p := type.extract argument type.init), hconv]

theorem singleDigest_error {type : ValueType T} {v : SingleValue T} {argument : StdString}
    (ht : v.t = type.init) (hconv : ¬(type.extract argument type.init).2 = true) :
    ∃ e v', v.digest type argument = .error e v' := by
  simp only [SingleValue.digest, ht]
  cases assertCanDigest v.canDigest argument with
  | error e => exact ⟨e, v, rfl⟩
  | ok u =>
    rw [← Prod.mk.eta (p := type.extract argument type.init), Bool.eq_false_of_not_eq_true hconv]
    exact ⟨_, _, rfl⟩

theorem multiDigest_ok {type : ValueType T} {v : MultiValueBase T} {argument : StdString}
    (hconv : (type.extract argument type.init).2 = true) :
    v.digest type argument
      = .ok ()
        { v with ts := v.ts ++ [⟨⟨[], []⟩, true, (type.extract argument type.init).1⟩] } := by
  rw [MultiValueBase.digest, singleDigest_ok rfl rfl hconv]
  rfl

/-- The element of an argument that does not convert stays. -/
theorem multiDigest_error {type : ValueType T} {v : MultiValueBase T} {argument : StdString}
    (hconv : ¬(type.extract argument type.init).2 = true) :
    ∃ e t, v.digest type argument = .error e { v with ts := v.ts ++ [t] } := by
  obtain ⟨e, t, h⟩ := singleDigest_error (v := SingleValue.create type [] []) rfl hconv
  rw [MultiValueBase.digest, h]
  exact ⟨e, t, rfl⟩

/-- A holder that waits stores an argument that converts. -/
theorem digest_ok {v : Value T} {argument : StdString} (hwait : v.Waiting)
    (hcan : v.canDigest = true) (hconv : v.Converts argument) :
    ∃ v', v.digest argument = .ok () v' ∧ v.Takes argument v' := by
  cases v with
  | single type v =>
    have hdig : v.digested = false := by simpa [canDigest, SingleValue.canDigest] using hcan
    rw [digest, singleDigest_ok hdig (hwait hdig) hconv]
    exact ⟨_, rfl, nofun, rfl, by simp [left, hdig], by simp [stored, hdig, convert, Value.type]⟩
  | multi type v =>
    have hconv : (type.extract argument type.init).2 = true := hconv
    rw [digest, multiDigest_ok hconv]
    exact ⟨_, rfl, trivial, rfl, rfl, by simp [stored, MultiValueBase.values, convert, Value.type]⟩
  | limited N type v =>
    have hconv : (type.extract argument type.init).2 = true := hconv
    have hlt : v.size < N := by simpa [canDigest] using hcan
    rw [digest, assertCanDigest, decide_eq_true hlt, if_pos rfl, multiDigest_ok hconv]
    refine ⟨_, rfl, trivial, rfl, ?_, by simp [stored, MultiValueBase.values, convert, Value.type]⟩
    have hsub : N - v.ts.length = N - (v.ts.length + 1) + 1 := by
      have hlt : v.ts.length < N := hlt
      omega
    simp only [left, MultiValueBase.size, List.length_append, List.length_singleton]
    rw [hsub, Nat.cast_add, Nat.cast_one]

/-- A holder throws at an argument that does not convert. -/
theorem digest_error {v : Value T} {argument : StdString} (hwait : v.Waiting)
    (hcan : v.canDigest = true) (hconv : ¬v.Converts argument) :
    ∃ e v', v.digest argument = .error e v' := by
  cases v with
  | single type v =>
    have hdig : v.digested = false := by simpa [canDigest, SingleValue.canDigest] using hcan
    obtain ⟨e, v', h⟩ := singleDigest_error (hwait hdig) hconv
    rw [digest, h]
    exact ⟨e, _, rfl⟩
  | multi type v =>
    have hconv : ¬(type.extract argument type.init).2 = true := hconv
    obtain ⟨e, v', h⟩ := multiDigest_error (v := v) hconv
    rw [digest, h]
    exact ⟨e, _, rfl⟩
  | limited N type v =>
    have hconv : ¬(type.extract argument type.init).2 = true := hconv
    have hlt : v.size < N := by simpa [canDigest] using hcan
    obtain ⟨e, v', h⟩ := multiDigest_error (v := v) hconv
    rw [digest, assertCanDigest, decide_eq_true hlt, if_pos rfl, h]
    exact ⟨e, _, rfl⟩

/-- A `SingleValue` that has digested throws, and stays as it is. -/
theorem singleDigest_digested {type : ValueType T} {v : SingleValue T} (h : v.canDigest = false)
    (argument : StdString) : ∃ e, v.digest type argument = .error e v := by
  rw [SingleValue.digest, h]
  exact ⟨_, rfl⟩

/-- A full holder throws, and stays as it is. -/
theorem digest_full {v : Value T} (hfull : ¬v.canDigest = true) (argument : StdString) :
    ∃ e, v.digest argument = .error e v := by
  cases v with
  | single type v =>
    have hcan : v.canDigest = false := Bool.eq_false_of_not_eq_true hfull
    obtain ⟨e, herror⟩ := singleDigest_digested (T := T) hcan argument
    exact ⟨e, by rw [digest, herror]⟩
  | multi type v => exact absurd rfl hfull
  | limited N type v =>
    rw [canDigest] at hfull
    rw [digest, assertCanDigest, if_neg hfull]
    exact ⟨_, rfl⟩

/-- A fresh holder accepts an argument that converts, if it takes any at all. -/
theorem Fresh.accepts_iff {v : Value T} (h : v.Fresh) (argument : StdString) :
    (∃ v', v.digest argument = .ok () v') ↔ 1 ≤ v.capacity ∧ v.Converts argument := by
  by_cases hcan : v.canDigest = true
  · have hcapacity : 1 ≤ v.capacity := h.left ▸ v.canDigest_iff.mp hcan
    by_cases hconv : v.Converts argument
    · obtain ⟨v', hok, -⟩ := digest_ok h.waiting hcan hconv
      exact iff_of_true ⟨v', hok⟩ ⟨hcapacity, hconv⟩
    · obtain ⟨e, v', herror⟩ := digest_error h.waiting hcan hconv
      refine iff_of_false ?_ fun h => hconv h.2
      rintro ⟨v, hok⟩
      rw [herror] at hok
      cases hok
  · have hcapacity : ¬1 ≤ v.capacity := fun hle => hcan (v.canDigest_iff.mpr (h.left.symm ▸ hle))
    obtain ⟨e, herror⟩ := digest_full hcan argument
    refine iff_of_false ?_ fun h => hcapacity h.1
    rintro ⟨v, hok⟩
    rw [herror] at hok
    cases hok

theorem multiDigest_base {type : ValueType T} {v v' : MultiValueBase T} {argument : StdString}
    (h : v.digest type argument = .ok () v') : v'.base = v.base := by
  rw [MultiValueBase.digest] at h
  split at h <;> cases h
  rfl

theorem singleDigest_base {type : ValueType T} {v v' : SingleValue T} {argument : StdString}
    (h : v.digest type argument = .ok () v') : v'.base = v.base := by
  rw [SingleValue.digest] at h
  split at h
  · cases h
  · split at h <;> cases h
    rfl

/-- The name and the description of a holder do not change. -/
theorem digest_base {v v' : Value T} {argument : StdString}
    (h : v.digest argument = .ok () v') : v'.base = v.base := by
  cases v with
  | single type v =>
    rw [digest] at h
    split at h <;> cases h
    exact singleDigest_base ‹_›
  | multi type v =>
    rw [digest] at h
    split at h <;> cases h
    exact multiDigest_base ‹_›
  | limited N type v =>
    rw [digest] at h
    split at h
    · cases h
    · split at h <;> cases h
      exact multiDigest_base ‹_›

theorem Takes.converts {v v' : Value T} {argument : StdString} (h : v.Takes argument v')
    (a : StdString) : v'.Converts a ↔ v.Converts a := by rw [Converts, Converts, h.type]

theorem Takes.convert {v v' : Value T} {argument : StdString} (h : v.Takes argument v')
    (a : StdString) : v'.convert a = v.convert a := by rw [Value.convert, Value.convert, h.type]

end Value

end Brasa.Argparse
