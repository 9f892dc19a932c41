import Brasa.Lib.SharedLock
import Brasa.Pattern.ObjectRepository
import Mathlib.Data.List.Induction
import Mathlib.Order.Defs.PartialOrder

/-!
# Brasa.Pattern.Singleton

`Singleton<T>` owns at most one object, of `T` or of a class derived from it, behind an
`std::shared_mutex`: `create_instance` and `free_instance` lock it alone, the other
methods shared. The constructor of the object runs **inside the section** of
`create_instance`, after the check that nothing has been created yet.

Classes are ordered by derivation. `get_pointer` casts to `T` and to classes derived from
it only, so that a question about a class that `T` derives from, or about one that is
unrelated to `T`, is answered without looking at the object; and `dynamic_cast` fails for
a class that is an ambiguous or a non-public base of the object. There are no other wrong
answers (`type_queries_iff`).
-/

namespace Brasa.Pattern

open Brasa.Lib SharedLock

variable {κ α ε : Type} [PartialOrder κ]

/-- An object: its class, and what it holds. -/
structure Object (κ α : Type) where
  dynamicType : κ
  value : α
deriving DecidableEq, Repr

/-- An object that a pointer to `T` can point to: its class is `T` or derives from it. -/
abbrev Instance (α : Type) (T : κ) := {o : Object κ α // o.dynamicType ≤ T}

structure Singleton (α : Type) (T : κ) where
  t : UniquePtr (Instance α T)

/-- `dynamic_cast` from `T*`: the objects and classes for which it succeeds. It succeeds
only for a class that the object is of or derives from, but not for all of these. -/
structure DynamicCast (κ α : Type) [PartialOrder κ] where
  succeeds : Object κ α → κ → Bool
  derives : ∀ o U, succeeds o U = true → o.dynamicType ≤ U

/-- `dynamic_cast` where all bases are public and unambiguous. -/
def DynamicCast.ofDerivation [DecidableLE κ] : DynamicCast κ α where
  succeeds o U := o.dynamicType ≤ U
  derives _ _ := of_decide_eq_true

/-- What a method answers: a reference, a flag, nothing, an exception of its own or of the
constructor that it calls, or the dereference of a null pointer. -/
inductive SingletonReply (κ α ε : Type)
  | reference (o : Object κ α)
  | flag (b : Bool)
  | done
  | throws (e : LogicError)
  | constructorThrows (e : ε)
  | nullDereference
deriving DecidableEq, Repr

/-- A call; `construct` is what the constructor of the class makes of the arguments. -/
inductive SingletonCall (α ε : Type) (T : κ)
  | createInstance (construct : Except ε (Instance α T))
  | createInstanceFrom (u : UniquePtr (Instance α T))
  | instance'
  | freeInstance
  | hasInstance
  | isInstanceOfType (U : κ)
  | instanceOfType (U : κ)

namespace Singleton

variable {T : κ} (name : κ → String) (cast : DynamicCast κ α)

def alreadyCreated (T : κ) : SingletonReply κ α ε :=
  .throws ⟨"brasa::pattern::Singleton::create_instance already created for " ++ name T⟩

def nullPointer (T : κ) : SingletonReply κ α ε :=
  .throws ⟨"brasa::pattern::Singleton::create_instance null pointer passed for " ++ name T⟩

def notCreated (T : κ) : SingletonReply κ α ε :=
  .throws ⟨"brasa::pattern::Singleton::instance not created for " ++ name T⟩

def cannotBeCast (T U : κ) : SingletonReply κ α ε :=
  .throws ⟨"brasa::pattern::Singleton<" ++ name T
    ++ ">::instance_of_type instance cannot be cast to type " ++ name U⟩

/-- Both overloads of `create_instance` that call a constructor. -/
def createInstance (self : Singleton α T) (construct : Except ε (Instance α T)) :
    SingletonReply κ α ε × Singleton α T :=
  match self.t, construct with
  | some _, _ => (alreadyCreated name T, self)
  | none, .error e => (.constructorThrows e, self)
  | none, .ok o => (.reference o.val, ⟨some o⟩)

/-- `create_instance` of a pointer; a null pointer is refused first. -/
def createInstanceFrom (self : Singleton α T) (u : UniquePtr (Instance α T)) :
    SingletonReply κ α ε × Singleton α T :=
  match u, self.t with
  | none, _ => (nullPointer name T, self)
  | some _, some _ => (alreadyCreated name T, self)
  | some o, none => (.reference o.val, ⟨some o⟩)

def instance' (self : Singleton α T) : SingletonReply κ α ε :=
  match self.t with
  | none => notCreated name T
  | some o => .reference o.val

def freeInstance (_self : Singleton α T) : Singleton α T := ⟨none⟩

def hasInstance (self : Singleton α T) : Bool := self.t.isSome

variable [DecidableEq κ] [DecidableLE κ]

/-- `dynamic_cast` is for classes derived from `T`; the object is not asked about others. -/
def getPointer (self : Singleton α T) (U : κ) : Option (Object κ α) :=
  if U = T then self.t.map Subtype.val
  else if U ≤ T then (self.t.map Subtype.val).filter (cast.succeeds · U)
  else none

def isInstanceOfType (self : Singleton α T) (U : κ) : Bool := (self.getPointer cast U).isSome

def instanceOfType (self : Singleton α T) (U : κ) : SingletonReply κ α ε :=
  match self.getPointer cast U with
  | some o => .reference o
  | none => cannotBeCast name T U

/-- The methods as atomic operations. -/
def call (self : Singleton α T) : SingletonCall α ε T → SingletonReply κ α ε × Singleton α T
  | .createInstance construct => self.createInstance name construct
  | .createInstanceFrom u => self.createInstanceFrom name u
  | .instance' => (self.instance' name, self)
  | .freeInstance => (.done, self.freeInstance)
  | .hasInstance => (.flag self.hasInstance, self)
  | .isInstanceOfType U => (.flag (self.isInstanceOfType cast U), self)
  | .instanceOfType U => (self.instanceOfType name cast U, self)

theorem call_ne_null (self : Singleton α T) (m : SingletonCall α ε T) :
    (self.call name cast m).1 ≠ .nullDereference := by
  cases m with
  | createInstance construct =>
    simp only [call, createInstance]
    split <;> nofun
  | createInstanceFrom u =>
    simp only [call, createInstanceFrom]
    split <;> nofun
  | instance' =>
    simp only [call, instance']
    split <;> nofun
  | instanceOfType U =>
    simp only [call, instanceOfType]
    split <;> nofun
  | freeInstance | hasInstance | isInstanceOfType => nofun

/-! ### The methods under the lock -/

/-- Where a section is: before its check, after it, or with the result of
`get_pointer`. -/
inductive Place (κ α : Type)
  | check
  | checked
  | pointer (p : Option (Object κ α))

/-- A step of a section; the constructor runs in the second step of `create_instance`. -/
def next : SingletonCall α ε T → Singleton α T → Place κ α →
    Singleton α T × Outcome (Place κ α) (SingletonReply κ α ε)
  | .createInstance construct, self, place =>
    match place, construct with
    | .checked, .ok o => (⟨some o⟩, .returns (.reference o.val))
    | .checked, .error e => (self, .returns (.constructorThrows e))
    | _, _ => (self, if self.t.isSome then .returns (alreadyCreated name T) else .goesOn .checked)
  | .createInstanceFrom none, self, _ => (self, .returns (nullPointer name T))
  | .createInstanceFrom (some o), self, place =>
    match place with
    | .checked => (⟨some o⟩, .returns (.reference o.val))
    | _ => (self, if self.t.isSome then .returns (alreadyCreated name T) else .goesOn .checked)
  | .instance', self, place =>
    match place, self.t with
    | .checked, some o => (self, .returns (.reference o.val))
    | .checked, none => (self, .returns .nullDereference)
    | _, none => (self, .returns (notCreated name T))
    | _, some _ => (self, .goesOn .checked)
  | .freeInstance, self, _ => (self.freeInstance, .returns .done)
  | .hasInstance, self, _ => (self, .returns (.flag self.hasInstance))
  | .isInstanceOfType U, self, place =>
    match place with
    | .pointer p => (self, .returns (.flag p.isSome))
    | _ => (self, .goesOn (.pointer (self.getPointer cast U)))
  | .instanceOfType U, self, place =>
    match place with
    | .pointer (some o) => (self, .returns (.reference o))
    | .pointer none => (self, .returns (cannotBeCast name T U))
    | _ => (self, .goesOn (.pointer (self.getPointer cast U)))

def sections : Sections (Singleton α T) (SingletonCall α ε T) (Place κ α) (SingletonReply κ α ε)
    Empty where
  mode
    | .createInstance _ | .createInstanceFrom _ | .freeInstance => .unique
    | _ => .shared
  enter _ := .check
  next := next name cast
  callback _ := none

variable {name} {cast}

theorem sections_readOnly : ReadOnly (sections (ε := ε) (T := T) name cast) := by
  intro m self place hmode
  cases m with
  | createInstance | createInstanceFrom | freeInstance => cases hmode
  | hasInstance => rfl
  | instance' =>
    simp only [sections, next]
    split <;> rfl
  | isInstanceOfType U | instanceOfType U =>
    simp only [sections, next]
    split <;> rfl

/-- What a section alone with the singleton knows at a place. -/
def Knows (cast : DynamicCast κ α) : SingletonCall α ε T → Singleton α T → Place κ α → Prop
  | .createInstance _, self, .checked | .createInstanceFrom _, self, .checked => self.t = none
  | .instance', self, .checked => self.t.isSome
  | .isInstanceOfType U, self, .pointer p | .instanceOfType U, self, .pointer p =>
    p = self.getPointer cast U
  | _, _, _ => True

/-- A section that goes on has changed nothing. -/
theorem next_goesOn {m : SingletonCall α ε T} {self self' : Singleton α T}
    {place place' : Place κ α} (h : next name cast m self place = (self', .goesOn place')) :
    self' = self ∧ Knows cast m self place' := by
  have hnone : ∀ {c : Prop} [Decidable c] {r : SingletonReply κ α ε} {p : Place κ α},
      (if c then Outcome.returns r else .goesOn p) = .goesOn place' → ¬ c ∧ place' = p := by
    intro c _ r p heq
    by_cases hc : c
    · rw [if_pos hc] at heq
      cases heq
    · rw [if_neg hc, Outcome.goesOn.injEq] at heq
      exact ⟨hc, heq.symm⟩
  cases m with
  | createInstance construct =>
    simp only [next] at h
    split at h
    · cases h
    · cases h
    · rw [Prod.mk.injEq] at h
      obtain ⟨hfree, rfl⟩ := hnone h.2
      exact ⟨h.1.symm, Option.not_isSome_iff_eq_none.mp hfree⟩
  | createInstanceFrom u =>
    cases u with
    | none => cases h
    | some o =>
      simp only [next] at h
      split at h
      · cases h
      · rw [Prod.mk.injEq] at h
        obtain ⟨hfree, rfl⟩ := hnone h.2
        exact ⟨h.1.symm, Option.not_isSome_iff_eq_none.mp hfree⟩
  | instance' =>
    simp only [next] at h
    split at h
    · cases h
    · cases h
    · cases h
    · rename_i o _ ho
      cases h
      exact ⟨rfl, by rw [Knows, ho, Option.isSome_some]⟩
  | freeInstance | hasInstance => cases h
  | isInstanceOfType U =>
    simp only [next] at h
    split at h
    · cases h
    · cases h
      exact ⟨rfl, rfl⟩
  | instanceOfType U =>
    simp only [next] at h
    split at h
    · cases h
    · cases h
    · cases h
      exact ⟨rfl, rfl⟩

/-- A section that ends, and knows what it has found out, has done what the method does. -/
theorem next_returns {m : SingletonCall α ε T} {self self' : Singleton α T} {place : Place κ α}
    {r : SingletonReply κ α ε} (hknows : Knows cast m self place)
    (h : next name cast m self place = (self', .returns r)) :
    self.call name cast m = (r, self') := by
  have hsome : ∀ {p : Place κ α}, (if self.t.isSome then Outcome.returns (alreadyCreated name T)
      else .goesOn p) = .returns r → self.t.isSome ∧ r = alreadyCreated name T := by
    intro p heq
    by_cases hc : self.t.isSome
    · rw [if_pos hc, Outcome.returns.injEq] at heq
      exact ⟨hc, heq.symm⟩
    · rw [if_neg hc] at heq
      cases heq
  cases m with
  | createInstance construct =>
    simp only [next] at h
    split at h
    · cases h
      simp only [call, createInstance, show self.t = none from hknows]
    · cases h
      simp only [call, createInstance, show self.t = none from hknows]
    · obtain ⟨rfl, hend⟩ := Prod.mk.inj h
      obtain ⟨hcreated, rfl⟩ := hsome hend
      obtain ⟨o, ho⟩ := Option.isSome_iff_exists.mp hcreated
      simp only [call, createInstance, ho]
  | createInstanceFrom u =>
    cases u with
    | none =>
      cases h
      simp only [call, createInstanceFrom]
    | some o =>
      simp only [next] at h
      split at h
      · cases h
        simp only [call, createInstanceFrom, show self.t = none from hknows]
      · obtain ⟨rfl, hend⟩ := Prod.mk.inj h
        obtain ⟨hcreated, rfl⟩ := hsome hend
        obtain ⟨o', ho'⟩ := Option.isSome_iff_exists.mp hcreated
        simp only [call, createInstanceFrom, ho']
  | instance' =>
    simp only [next] at h
    split at h
    · rename_i o ho
      cases h
      simp only [call, instance', ho]
    · rename_i hnone
      have hcreated : self.t.isSome := hknows
      rw [hnone] at hcreated
      cases hcreated
    · rename_i hnone
      cases h
      simp only [call, instance', hnone]
    · cases h
  | freeInstance | hasInstance =>
    cases h
    rfl
  | isInstanceOfType U =>
    simp only [next] at h
    split at h
    · cases h
      rw [show _ = self.getPointer cast U from hknows]
      rfl
    · cases h
  | instanceOfType U =>
    simp only [next] at h
    split at h
    · rename_i o
      cases h
      have ho : some o = self.getPointer cast U := hknows
      simp only [call, instanceOfType, ← ho]
    · cases h
      have hnone : none = self.getPointer cast U := hknows
      simp only [call, instanceOfType, ← hnone]
    · cases h

theorem knows_check (m : SingletonCall α ε T) (self : Singleton α T) :
    Knows cast m self .check := by
  cases m <;> trivial

theorem sections_reaches {m : SingletonCall α ε T} {self u : Singleton α T} {place : Place κ α}
    (h : Reaches (sections name cast) m self u place) : u = self ∧ Knows cast m self place := by
  induction h with
  | enter => exact ⟨rfl, knows_check m self⟩
  | next hreach hnext ih =>
    obtain ⟨rfl, -⟩ := ih
    obtain ⟨rfl, hknows⟩ := next_goesOn hnext
    exact ⟨rfl, hknows⟩

theorem sections_does {m : SingletonCall α ε T} {self self' : Singleton α T}
    {r : SingletonReply κ α ε} (h : Does (sections name cast) m self r self') :
    self.call name cast m = (r, self') := by
  obtain ⟨u, place, hreach, hnext⟩ := h
  obtain ⟨rfl, hknows⟩ := sections_reaches hreach
  exact next_returns hknows hnext

/-! ### Which object there is -/

/-- The object that a call makes the instance if there is none. -/
def creates : SingletonCall α ε T → Option (Instance α T)
  | .createInstance (.ok o) => some o
  | .createInstanceFrom u => u
  | _ => none

def frees : SingletonCall α ε T → Bool
  | .freeInstance => true
  | _ => false

/-- The object created first since the last `free_instance`. -/
def created (calls : List (SingletonCall α ε T)) : Option (Instance α T) :=
  (calls.reverse.takeWhile fun m => !frees m).reverse.findSome? creates

omit [DecidableEq κ] [DecidableLE κ] in
theorem created_append (calls : List (SingletonCall α ε T)) (m : SingletonCall α ε T) :
    created (calls ++ [m]) = if frees m then none else (created calls).or (creates m) :=
  findSome?_since _ _ calls m

/-- What one call does to the instance. -/
theorem call_t (self : Singleton α T) (m : SingletonCall α ε T) :
    (self.call name cast m).2.t = if frees m then none else self.t.or (creates m) := by
  cases m with
  | createInstance construct =>
    simp only [call, createInstance, frees, Bool.false_eq_true, if_false]
    cases ht : self.t with
    | some o => exact ht
    | none =>
      cases construct with
      | error e => exact ht
      | ok o => rfl
  | createInstanceFrom u =>
    simp only [call, createInstanceFrom, frees, Bool.false_eq_true, if_false]
    cases u with
    | none => exact (Option.or_none).symm
    | some o =>
      cases ht : self.t with
      | some o' => exact ht
      | none => rfl
  | freeInstance => rfl
  | instance' | hasInstance | isInstanceOfType | instanceOfType => exact Option.or_none.symm

theorem replay_created (name : κ → String) (calls : List (SingletonCall α ε T)) :
    (replay (call name cast) ⟨none⟩ calls).2 = ⟨created calls⟩ := by
  induction calls using List.reverseRecOn with
  | nil => rfl
  | append_singleton calls m ih =>
    have ht : (call name cast ⟨created calls⟩ m).2.t = _ := call_t _ m
    rw [← created_append] at ht
    rw [replay_append, ih, ← ht]

/-- A call that has ended answers what the calls that ended before it determine. -/
theorem singleton_answers {n : ℕ} {acts : List (Act (SingletonCall α ε T))}
    {s : State (Singleton α T) (SingletonCall α ε T) (Place κ α) (SingletonReply κ α ε) Empty}
    (hrun : run (State.step (sections name cast)) (State.start n ⟨none⟩) acts = some s) {k : ℕ}
    {e : ℕ × SingletonCall α ε T × SingletonReply κ α ε} (hk : s.log[k]? = some e) :
    e.2.2 = (call name cast ⟨created ((s.log.take k).map (·.2.1))⟩ e.2.1).1 := by
  obtain ⟨-, hanswers, -⟩ := linearizable_answers sections_readOnly
    (fun _ _ _ _ => sections_does) hrun
  rw [hanswers k e hk, replay_created]

/-- **The singleton.** Whatever its threads do:

* a call that has ended answers what the method answers on the object that was created
  first since the last `free_instance`, as the calls that ended before it determine;
* no null pointer is dereferenced;
* that object is the instance, unless a call is in the middle of creating or freeing one. -/
theorem singleton_linearizable {n : ℕ} {acts : List (Act (SingletonCall α ε T))}
    {s : State (Singleton α T) (SingletonCall α ε T) (Place κ α) (SingletonReply κ α ε) Empty}
    (hrun : run (State.step (sections name cast)) (State.start n ⟨none⟩) acts = some s) :
    (∀ (k : ℕ) e, s.log[k]? = some e →
        e.2.2 = (call name cast ⟨created ((s.log.take k).map (·.2.1))⟩ e.2.1).1) ∧
      (∀ e ∈ s.log, e.2.2 ≠ .nullDereference) ∧
      ((∀ t ∈ s.threads, t.position.holds (sections (ε := ε) name cast) ≠ some .unique) →
        s.object.t = created (s.log.map (·.2.1))) := by
  refine ⟨fun k e hk => singleton_answers hrun hk, fun e he => ?_, fun hfree => ?_⟩
  · obtain ⟨k, hk⟩ := List.mem_iff_getElem?.mp he
    rw [singleton_answers hrun hk]
    exact call_ne_null name cast ⟨created _⟩ e.2.1
  · obtain ⟨-, -, hobject⟩ := linearizable_answers sections_readOnly
      (fun _ _ _ _ => sections_does) hrun
    rw [hobject hfree, replay_created]

/-- Two threads create an object of class 0, derived from class 1: the constructor of the
first one throws, and the second one is not kept from creating another. -/
def secondAttempt : List (Act (SingletonCall String String (1 : ℕ))) :=
  [.call 0 (.createInstance (.error "no memory")), .enter 0, .next 0,
    .call 1 (.createInstance (.ok ⟨⟨0, "second"⟩, Nat.zero_le 1⟩)), .next 0, .enter 1, .next 1,
    .call 0 .instance', .next 1, .enter 0, .next 0, .next 0]

theorem singleton_linearizable_secondAttempt : ∃ s,
    run (State.step (sections Nat.repr .ofDerivation)) (State.start 2 ⟨none⟩) secondAttempt
        = some s ∧
      (∀ (k : ℕ) e, s.log[k]? = some e →
        e.2.2 = (call Nat.repr .ofDerivation ⟨created ((s.log.take k).map (·.2.1))⟩ e.2.1).1) ∧
      ∀ e ∈ s.log, e.2.2 ≠ .nullDereference := by
  obtain ⟨s, hs⟩ := Option.isSome_iff_exists.mp
    (rfl : (run (State.step (sections Nat.repr .ofDerivation)) (State.start 2 ⟨none⟩)
      secondAttempt).isSome = true)
  obtain ⟨hanswers, hnull, -⟩ := singleton_linearizable hs
  exact ⟨s, hs, hanswers, hnull⟩

/-! ### Questions about the type -/

/-- The class that a query names. -/
def asks : SingletonCall α ε T → Option κ
  | .isInstanceOfType U | .instanceOfType U => some U
  | _ => none

/-- The instance, if there is one and it is of type `U` or its descendants. -/
def ofType (o : Option (Instance α T)) (U : κ) : Option (Object κ α) :=
  (o.map Subtype.val).filter (·.dynamicType ≤ U)

/-- What a query answers if `get_pointer` does what its documentation says. -/
def documented (name : κ → String) (o : Option (Instance α T)) :
    SingletonCall α ε T → SingletonReply κ α ε → Prop
  | .isInstanceOfType U, r => r = .flag (ofType o U).isSome
  | .instanceOfType U, r => r = match ofType o U with
    | some o => .reference o
    | none => cannotBeCast name T U
  | _, _ => True

/-- `get_pointer` leads to the instance `o` as an object of class `U`: `U` is `T`, or is
derived from `T` and `dynamic_cast` succeeds. -/
def Castable (cast : DynamicCast κ α) (o : Instance α T) (U : κ) : Prop :=
  U = T ∨ U ≤ T ∧ cast.succeeds o.val U = true

instance (o : Instance α T) (U : κ) : Decidable (Castable cast o U) :=
  inferInstanceAs (Decidable (_ ∨ _ ∧ _))

omit [DecidableEq κ] [DecidableLE κ] in
/-- What can be cast is of the class. -/
theorem Castable.derives {o : Instance α T} {U : κ} (h : Castable cast o U) :
    o.val.dynamicType ≤ U := by
  rcases h with rfl | ⟨-, hsucceeds⟩
  · exact o.property
  · exact cast.derives o.val U hsucceeds

theorem getPointer_some (o : Instance α T) (U : κ) :
    (⟨some o⟩ : Singleton α T).getPointer cast U =
      if Castable cast o U then some o.val else none := by
  rw [getPointer]
  by_cases heq : U = T
  · have hcast : Castable cast o U := Or.inl heq
    rw [if_pos heq, if_pos hcast]
    rfl
  · by_cases hU : U ≤ T
    · simp [Castable, heq, hU, Option.filter]
    · simp [Castable, heq, hU]

omit [DecidableEq κ] in
theorem ofType_some (o : Instance α T) (U : κ) :
    ofType (some o) U = if o.val.dynamicType ≤ U then some o.val else none := by
  simp [ofType, Option.filter]

/-- `get_pointer` leads to an instance of the class if it can be cast. -/
theorem getPointer_eq_ofType {o : Option (Instance α T)} {U : κ}
    (h : ∀ i, o = some i → i.val.dynamicType ≤ U → Castable cast i U) :
    (⟨o⟩ : Singleton α T).getPointer cast U = ofType o U := by
  cases o with
  | none => simp [getPointer, ofType]
  | some i =>
    rw [getPointer_some, ofType_some]
    by_cases hle : i.val.dynamicType ≤ U
    · rw [if_pos (h i rfl hle), if_pos hle]
    · rw [if_neg (fun hcast => hle hcast.derives), if_neg hle]

/-- A query answers as documented unless it names a class that the instance is of and
that it cannot be cast to. -/
theorem documented_call_iff (name : κ → String) (o : Option (Instance α T)) {U : κ}
    {m : SingletonCall α ε T} (hm : asks m = some U) :
    documented name o m (call name cast ⟨o⟩ m).1 ↔
      ∀ i, o = some i → i.val.dynamicType ≤ U → Castable cast i U := by
  by_cases h : ∀ i, o = some i → i.val.dynamicType ≤ U → Castable cast i U
  · refine iff_of_true ?_ h
    have hpointer := getPointer_eq_ofType h
    cases m with
    | isInstanceOfType V =>
      cases hm
      simp only [documented, call, isInstanceOfType, hpointer]
    | instanceOfType V =>
      cases hm
      simp only [documented, call, instanceOfType, hpointer]
    | createInstance | createInstanceFrom | instance' | freeInstance | hasInstance => cases hm
  · refine iff_of_false (fun hdoc => h fun i hi hle => ?_) h
    subst hi
    by_contra hcast
    -- the documentation leads to the instance, and `get_pointer` does not
    have hpointer : (⟨some i⟩ : Singleton α T).getPointer cast U = none := by
      rw [getPointer_some, if_neg hcast]
    have hoftype : ofType (some i) U = some i.val := by
      rw [ofType_some, if_pos hle]
    cases m with
    | isInstanceOfType V =>
      cases hm
      simp [documented, call, isInstanceOfType, hpointer, hoftype] at hdoc
    | instanceOfType V =>
      cases hm
      simp [documented, call, instanceOfType, hpointer, hoftype, cannotBeCast] at hdoc
    | createInstance | createInstanceFrom | instance' | freeInstance | hasInstance => cases hm

/-- **The queries about the type.** Along every interleaved run they answer whether the
instance is of type `U` or its descendants if and only if every query that has ended and
named a class that the instance was of named `T`, or a class derived from `T` to which
`dynamic_cast` succeeds. -/
theorem type_queries_iff {n : ℕ} {acts : List (Act (SingletonCall α ε T))}
    {s : State (Singleton α T) (SingletonCall α ε T) (Place κ α) (SingletonReply κ α ε) Empty}
    (hrun : run (State.step (sections name cast)) (State.start n ⟨none⟩) acts = some s) :
    (∀ (k : ℕ) e, s.log[k]? = some e →
        documented name (created ((s.log.take k).map (·.2.1))) e.2.1 e.2.2) ↔
      ∀ (k : ℕ) e U o, s.log[k]? = some e → asks e.2.1 = some U →
        created ((s.log.take k).map (·.2.1)) = some o → o.val.dynamicType ≤ U →
          Castable cast o U := by
  constructor
  · intro hall k e U o hk hasks
    have hdoc := hall k e hk
    rw [singleton_answers hrun hk] at hdoc
    exact (documented_call_iff name _ hasks).mp hdoc o
  · intro hall k e hk
    rw [singleton_answers hrun hk]
    cases hasks : asks e.2.1 with
    | some U => exact (documented_call_iff name _ hasks).mpr fun o => hall k e U o hk hasks
    | none =>
      cases hm : e.2.1 with
      | isInstanceOfType | instanceOfType =>
        rw [hm] at hasks
        cases hasks
      | createInstance | createInstanceFrom | instance' | freeInstance | hasInstance => trivial

/-- All bases are public, and class 0 has two of class 1, which share one of class 2. -/
def twoBases : DynamicCast ℕ String where
  succeeds o U := o.dynamicType ≤ U ∧ ¬ (o.dynamicType = 0 ∧ U = 1)
  derives _ _ h := (of_decide_eq_true h).1

/-- An object of class 0 is asked whether it is of class 2, 1 or 3. -/
def asksBases : List (Act (SingletonCall String String (2 : ℕ))) :=
  [.call 0 (.createInstance (.ok ⟨⟨0, "only"⟩, Nat.zero_le 2⟩)), .enter 0, .next 0, .next 0,
    .call 0 (.isInstanceOfType 2), .enter 0, .next 0, .next 0,
    .call 0 (.isInstanceOfType 1), .enter 0, .next 0, .next 0,
    .call 0 (.isInstanceOfType 3), .enter 0, .next 0, .next 0]

theorem type_queries_iff_bases : ∃ s,
    run (State.step (sections Nat.repr twoBases)) (State.start 1 ⟨none⟩) asksBases = some s ∧
      ¬ ∀ (k : ℕ) e, s.log[k]? = some e →
        documented Nat.repr (created ((s.log.take k).map (·.2.1))) e.2.1 e.2.2 := by
  obtain ⟨s, hs⟩ := Option.isSome_iff_exists.mp
    (rfl : (run (State.step (sections Nat.repr twoBases)) (State.start 1 ⟨none⟩)
      asksBases).isSome = true)
  refine ⟨s, hs, fun hall => ?_⟩
  have hqueries := (type_queries_iff hs).mp hall
  cases hs
  exact absurd (hqueries 2 _ 1 _ rfl rfl rfl (by decide)) (by decide)

end Singleton

end Brasa.Pattern
