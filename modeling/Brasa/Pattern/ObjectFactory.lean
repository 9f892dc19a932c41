import Brasa.Pattern.Registry

/-!
# Brasa.Pattern.ObjectFactory

`ObjectFactory` keeps creators, not objects: `get` copies the creator of the identifier,
unlocks the mutex and only then runs the copy. **A creator may call the factory
again**, also to replace or remove itself, and whatever the threads do, `get` runs the
creator that was added first since the identifier was last removed, and every call
comes to an end (`factory_creates`). Only a call of a creator may call back: copying or
destroying one, which happens under the lock, does not call the factory again.
-/

namespace Brasa.Pattern

open Brasa.Lib SharedLock

variable {ι κ : Type} [DecidableEq ι]

/-- A `creator_t`, a `std::function`: empty, or with a target. -/
abbrev Creator (κ : Type) := Option κ

/-- What comes of a call of `get`: an exception, or a run of a copy of the target, whose
outcome is that of the call. -/
inductive Made (κ : Type)
  | throws (e : LogicError)
  | runs (target : κ)
  | badFunctionCall
deriving DecidableEq, Repr

structure ObjectFactory (ι κ : Type) where
  creators : AList fun _ : ι => Creator κ

namespace ObjectFactory

variable (typeName : String) (toString : ι → String)

/-- The constructor. -/
def create : ObjectFactory ι κ := ⟨∅⟩

/-- A creator that is there already stays. -/
def add (self : ObjectFactory ι κ) (id : ι) (creator : Creator κ) : Bool × ObjectFactory ι κ :=
  if id ∈ self.creators then (false, self) else (true, ⟨self.creators.insert id creator⟩)

def remove (self : ObjectFactory ι κ) (id : ι) : Bool × ObjectFactory ι κ :=
  (id ∈ self.creators, ⟨self.creators.erase id⟩)

def has (self : ObjectFactory ι κ) (id : ι) : Bool := id ∈ self.creators

/-- The call of a `std::function`. -/
def invoke : Creator κ → Made κ
  | none => .badFunctionCall
  | some target => .runs target

def get (self : ObjectFactory ι κ) (id : ι) : Made κ :=
  match self.creators.lookup id with
  | none => .throws ⟨"brasa::pattern::ObjectFactory::get object not found for " ++ typeName
      ++ " and id " ++ toString id⟩
  | some creator => invoke creator

/-- What a call of the factory answers, or what comes of an iterator whose element has
been erased. -/
inductive Reply (κ : Type)
  | flag (b : Bool)
  | made (m : Made κ)
  | dangling
deriving DecidableEq

def answers : Answers ι (Creator κ) (Reply κ) where
  flag := .flag
  missing id := .made (.throws ⟨"brasa::pattern::ObjectFactory::get object not found for "
    ++ typeName ++ " and id " ++ toString id⟩)
  element creator := .made (invoke creator)
  dangling := .dangling

/-- The copy of the creator that runs when the mutex is unlocked. -/
def callback : Reply κ → Option κ
  | .made (.runs target) => some target
  | _ => none

/-- The methods under the lock, and the creators that run after it. -/
def sections : Sections (AList fun _ : ι => Creator κ) (RegistryCall ι (Creator κ)) Place (Reply κ)
    κ :=
  registrySections (answers typeName toString) callback

/-- The methods as atomic operations. -/
def call (self : ObjectFactory ι κ) :
    RegistryCall ι (Creator κ) → Reply κ × ObjectFactory ι κ
  | .add id creator => (.flag (self.add id creator).1, (self.add id creator).2)
  | .remove id => (.flag (self.remove id).1, (self.remove id).2)
  | .has id => (.flag (self.has id), self)
  | .get id => (.made (self.get typeName toString id), self)

theorem registryApply_creators (self : ObjectFactory ι κ) (m : RegistryCall ι (Creator κ)) :
    registryApply (answers typeName toString) self.creators m =
      ((self.call typeName toString m).1, (self.call typeName toString m).2.creators) := by
  cases m with
  | add id creator =>
    simp only [registryApply, call, add]
    split <;> rfl
  | remove | has => rfl
  | get id =>
    simp only [registryApply, call, get]
    cases self.creators.lookup id <;> rfl

end ObjectFactory

/-- **The factory.** Whatever its threads do, and whatever their creators call:

* the calls that have ended answer what the methods answer when called one after the
  other, in the order in which their sections ended;
* in particular a `get` that has ended ran the first creator that was added since its
  identifier was last removed, or threw if there was none;
* if no further calls are made, at most the work that was left is done, and when no
  thread can go on, no call and no creator is unfinished. -/
theorem factory_creates (typeName : String) (toString : ι → String) {n : ℕ}
    {acts : List (Act (RegistryCall ι (Creator κ)))}
    {s : State (AList fun _ : ι => Creator κ) (RegistryCall ι (Creator κ)) Place
      (ObjectFactory.Reply κ) κ}
    (hrun : run (State.step (ObjectFactory.sections typeName toString)) (State.start n ∅) acts =
      some s) :
    (∃ self : ObjectFactory ι κ,
      replay (ObjectFactory.call typeName toString) .create (s.log.map (·.2.1)) =
        (s.log.map (·.2.2), self)) ∧
      (∀ (k : ℕ) i id answer, s.log[k]? = some (i, .get id, answer) →
        answer = match registered id ((s.log.take k).map (·.2.1)) with
          | some creator => .made (ObjectFactory.invoke creator)
          | none => .made (.throws ⟨"brasa::pattern::ObjectFactory::get object not found for "
              ++ typeName ++ " and id " ++ toString id⟩)) ∧
      ∀ rest s', (∀ act ∈ rest, ∀ i m, act ≠ .call i m) →
        run (State.step (ObjectFactory.sections typeName toString)) s rest = some s' →
        rest.length ≤ s.work (ObjectFactory.sections typeName toString) registryRank ∧
          ((∀ act, (∀ i m, act ≠ .call i m) →
              s'.step (ObjectFactory.sections typeName toString) act = none) →
            ∀ t ∈ s'.threads, t.position = .outside ∧ t.callbacks = []) := by
  refine ⟨?_, fun k i id answer hk => ?_, fun rest s' hrest hrun' => ?_⟩
  · obtain ⟨self, hreplay, -⟩ := registry_refines ObjectFactory.creators
      (ObjectFactory.registryApply_creators typeName toString) .create rfl hrun
    exact ⟨self, hreplay⟩
  · have hanswer : answer = expected (ObjectFactory.answers typeName toString)
        ((s.log.take k).map (·.2.1)) (.get id) := registry_expected hrun hk
    rw [hanswer, expected]
    cases registered id ((s.log.take k).map (·.2.1)) <;> rfl
  · obtain ⟨hle, hidle⟩ := completes registryRank_lt hrest hrun'
    exact ⟨le_trans (Nat.le_add_right _ _) hle, hidle⟩

/-- A creator, number 7, that removes itself from the factory and calls the one, number
8, that it has added in its place, while another thread runs a copy of it too. -/
def replacesItself : List (Act (RegistryCall ℕ (Creator ℕ))) :=
  [.call 0 (.add 1 (some 7)), .enter 0, .next 0, .call 0 (.get 1), .call 1 (.get 1), .enter 1,
    .enter 0, .next 0, .next 0, .next 1, .next 1, .call 0 (.remove 1), .enter 0, .next 0,
    .call 0 (.add 1 (some 8)), .enter 0, .next 0, .call 0 (.get 1), .enter 0, .next 0, .next 0]

theorem factory_creates_replaced : ∃ s : State _ _ _ _ ℕ,
    run (State.step (ObjectFactory.sections "Base" Nat.repr)) (State.start 2 ∅) replacesItself =
        some s ∧
      (∃ self, replay (ObjectFactory.call "Base" Nat.repr) .create (s.log.map (·.2.1)) =
        (s.log.map (·.2.2), self)) ∧
      ∃ s', run (State.step (ObjectFactory.sections "Base" Nat.repr)) s
          [.finish 0, .finish 1, .finish 0] = some s' ∧
        3 ≤ s.work (ObjectFactory.sections "Base" Nat.repr) registryRank := by
  obtain ⟨s', hs'⟩ := Option.isSome_iff_exists.mp
    (rfl : (run (State.step (ObjectFactory.sections "Base" Nat.repr)) (State.start 2 ∅)
      (replacesItself ++ [.finish 0, .finish 1, .finish 0])).isSome = true)
  obtain ⟨s, hs, hrest⟩ := run_append_eq_some.mp hs'
  obtain ⟨hreplay, -, hcompletes⟩ := factory_creates "Base" Nat.repr hs
  refine ⟨s, hs, hreplay, s', hrest, (hcompletes _ s' ?_ hrest).1⟩
  simp

end Brasa.Pattern
