import Brasa.Lib.SharedLock
import Brasa.Pattern.ObjectRepository
import Mathlib.Data.List.Induction

/-!
# Brasa.Pattern.Registry

`ObjectRepository` and `ObjectFactory` keep their elements in an
`std::unordered_map` behind one `std::shared_mutex`: `add` and `remove` lock it alone,
`has` and `get` shared. Here their calls are **sections of that lock**, and `get`
takes two steps inside, the search and the use of the iterator found, in between
which other threads take theirs.

What runs inside a section is the map's: moving, copying and destroying an element under
the lock, and hashing, comparing and printing an identifier, do not call the class again.

The sections of both classes are one definition, of which each gives its own answers.
The repository with its lock refines the repository whose calls are atomic
(`repository_linearizable`).
-/

namespace Brasa.Pattern

open Brasa.Lib SharedLock

variable {ι υ R C : Type} [DecidableEq ι]

/-- A call that locks the mutex, on a map with elements of type `υ`. -/
inductive RegistryCall (ι υ : Type)
  | add (id : ι) (v : υ)
  | remove (id : ι)
  | has (id : ι)
  | get (id : ι)

/-- Where a section of `get` is: before the search, or with an iterator to the element. -/
inductive Place
  | search
  | found

/-- What a class answers: the result of `add`, `remove` and `has`, the exception of a
`get` that finds nothing, what `get` makes of the element, and the use of an iterator
whose element has been erased. -/
structure Answers (ι υ R : Type) where
  flag : Bool → R
  missing : ι → R
  element : υ → R
  dangling : R

/-- The sections of the calls. -/
def registrySections (answers : Answers ι υ R) (callback : R → Option C) :
    Sections (AList fun _ : ι => υ) (RegistryCall ι υ) Place R C where
  mode
    | .add _ _ | .remove _ => .unique
    | .has _ | .get _ => .shared
  enter _ := .search
  next
    | .add id v, objects, _ =>
      if id ∈ objects then (objects, .returns (answers.flag false))
      else (objects.insert id v, .returns (answers.flag true))
    | .remove id, objects, _ => (objects.erase id, .returns (answers.flag (id ∈ objects)))
    | .has id, objects, _ => (objects, .returns (answers.flag (id ∈ objects)))
    | .get id, objects, .search =>
      (objects, if id ∈ objects then .goesOn .found else .returns (answers.missing id))
    | .get id, objects, .found =>
      match objects.lookup id with
      | some v => (objects, .returns (answers.element v))
      | none => (objects, .returns answers.dangling)
  callback

/-- The same calls, each of them one atomic operation. -/
def registryApply (answers : Answers ι υ R) (objects : AList fun _ : ι => υ) :
    RegistryCall ι υ → R × AList fun _ : ι => υ
  | .add id v =>
    if id ∈ objects then (answers.flag false, objects)
    else (answers.flag true, objects.insert id v)
  | .remove id => (answers.flag (id ∈ objects), objects.erase id)
  | .has id => (answers.flag (id ∈ objects), objects)
  | .get id =>
    match objects.lookup id with
    | some v => (answers.element v, objects)
    | none => (answers.missing id, objects)

section Calls

variable {answers : Answers ι υ R} {callback : R → Option C}

theorem registry_readOnly : ReadOnly (registrySections answers callback) := by
  intro m objects l hmode
  cases m with
  | add | remove => cases hmode
  | has id => rfl
  | get id =>
    cases l with
    | search => rfl
    | found =>
      simp only [registrySections]
      split <;> rfl

/-- Alone with the map, an iterator leads to an element, and nothing has changed. -/
theorem registry_reaches {m : RegistryCall ι υ} {objects u : AList fun _ : ι => υ} {l : Place}
    (h : Reaches (registrySections answers callback) m objects u l) :
    u = objects ∧ ∀ id, m = .get id → l = .found → id ∈ objects := by
  induction h with
  | enter => exact ⟨rfl, fun _ _ hl => nomatch hl⟩
  | @next u v l l' hreach hnext ih =>
    obtain ⟨rfl, -⟩ := ih
    cases m with
    | add id v =>
      simp only [registrySections] at hnext
      split at hnext <;> cases hnext
    | remove | has => cases hnext
    | get id =>
      cases l with
      | search =>
        by_cases hid : id ∈ u
        · simp only [registrySections, if_pos hid, Prod.mk.injEq] at hnext
          refine ⟨hnext.1.symm, fun id' hm _ => ?_⟩
          cases hm
          exact hid
        · simp only [registrySections, if_neg hid] at hnext
          cases hnext
      | found =>
        simp only [registrySections] at hnext
        split at hnext <;> cases hnext

/-- A section alone with the map does what the atomic operation does. -/
theorem registry_does {m : RegistryCall ι υ} {objects objects' : AList fun _ : ι => υ} {r : R}
    (h : Does (registrySections answers callback) m objects r objects') :
    registryApply answers objects m = (r, objects') := by
  obtain ⟨u, l, hreach, hnext⟩ := h
  obtain ⟨rfl, hfound⟩ := registry_reaches hreach
  cases m with
  | add id v =>
    by_cases hid : id ∈ u
    · simp only [registrySections, if_pos hid, Prod.mk.injEq, Outcome.returns.injEq] at hnext
      rw [registryApply, if_pos hid, hnext.1, hnext.2]
    · simp only [registrySections, if_neg hid, Prod.mk.injEq, Outcome.returns.injEq] at hnext
      rw [registryApply, if_neg hid, hnext.1, hnext.2]
  | remove id =>
    simp only [registrySections, Prod.mk.injEq, Outcome.returns.injEq] at hnext
    rw [registryApply, hnext.1, hnext.2]
  | has id =>
    simp only [registrySections, Prod.mk.injEq, Outcome.returns.injEq] at hnext
    obtain ⟨rfl, rfl⟩ := hnext
    rfl
  | get id =>
    cases l with
    | search =>
      by_cases hid : id ∈ u
      · simp only [registrySections, if_pos hid] at hnext
        cases hnext
      · simp only [registrySections, if_neg hid, Prod.mk.injEq, Outcome.returns.injEq] at hnext
        rw [registryApply, AList.lookup_eq_none.mpr hid, hnext.1, hnext.2]
    | found =>
      obtain ⟨v, hv⟩ := Option.isSome_iff_exists.mp (AList.lookup_isSome.mpr (hfound id rfl rfl))
      simp only [registrySections, hv, Prod.mk.injEq, Outcome.returns.injEq] at hnext
      obtain ⟨rfl, rfl⟩ := hnext
      simp only [registryApply, hv]

/-- The steps inside a section that come before its last one. -/
def registryRank : RegistryCall ι υ → Place → ℕ
  | .get _, .search => 1
  | _, _ => 0

theorem registryRank_lt (m : RegistryCall ι υ) (objects : AList fun _ : ι => υ) (l : Place)
    (objects' : AList fun _ : ι => υ) (l' : Place)
    (h : (registrySections answers callback).next m objects l = (objects', .goesOn l')) :
    registryRank m l' < registryRank m l := by
  cases m with
  | add id v =>
    simp only [registrySections] at h
    split at h <;> cases h
  | remove | has => cases h
  | get id =>
    cases l with
    | search =>
      by_cases hid : id ∈ objects
      · simp only [registrySections, if_pos hid, Prod.mk.injEq, Outcome.goesOn.injEq] at h
        rw [← h.2]
        exact Nat.zero_lt_one
      · simp only [registrySections, if_neg hid] at h
        cases h
    | found =>
      simp only [registrySections] at h
      split at h <;> cases h

/-! ### What the calls before determine -/

namespace RegistryCall

/-- The element of an `add(id, …)`. -/
def adds (id : ι) : RegistryCall ι υ → Option υ
  | .add id' v => if id' = id then some v else none
  | _ => none

/-- A `remove(id)`. -/
def removes (id : ι) : RegistryCall ι υ → Bool
  | .remove id' => id' = id
  | _ => false

end RegistryCall

/-- The element of the first `add(id, …)` since the last `remove(id)`. -/
def registered (id : ι) (calls : List (RegistryCall ι υ)) : Option υ :=
  (calls.reverse.takeWhile fun m => !m.removes id).reverse.findSome? (RegistryCall.adds id)

/-- What a call answers after the calls `before`. -/
def expected (answers : Answers ι υ R) (before : List (RegistryCall ι υ)) : RegistryCall ι υ → R
  | .add id _ => answers.flag (registered id before).isNone
  | .remove id | .has id => answers.flag (registered id before).isSome
  | .get id =>
    match registered id before with
    | some v => answers.element v
    | none => answers.missing id

theorem registered_append (id : ι) (calls : List (RegistryCall ι υ)) (m : RegistryCall ι υ) :
    registered id (calls ++ [m]) =
      if m.removes id then none else (registered id calls).or (m.adds id) :=
  findSome?_since _ _ calls m

/-- What one call does to the element of an identifier. -/
theorem registryApply_lookup (objects : AList fun _ : ι => υ) (m : RegistryCall ι υ) (id : ι) :
    (registryApply answers objects m).2.lookup id =
      if m.removes id then none else (objects.lookup id).or (m.adds id) := by
  cases m with
  | add id' v =>
    by_cases hid : id' ∈ objects
    · rw [registryApply, if_pos hid]
      by_cases heq : id' = id
      · obtain ⟨w, hw⟩ := Option.isSome_iff_exists.mp (AList.lookup_isSome.mpr hid)
        subst heq
        simp [RegistryCall.removes, hw]
      · simp [RegistryCall.removes, RegistryCall.adds, heq]
    · rw [registryApply, if_neg hid]
      by_cases heq : id' = id
      · subst heq
        simp [RegistryCall.removes, RegistryCall.adds, AList.lookup_eq_none.mpr hid]
      · simp [RegistryCall.removes, RegistryCall.adds, heq, AList.lookup_insert_ne (Ne.symm heq)]
  | remove id' =>
    by_cases heq : id' = id
    · subst heq
      simp [registryApply, RegistryCall.removes]
    · simp [registryApply, RegistryCall.removes, RegistryCall.adds, heq,
        AList.lookup_erase_ne (Ne.symm heq)]
  | has id' => simp [registryApply, RegistryCall.removes, RegistryCall.adds]
  | get id' =>
    simp only [registryApply]
    split <;> simp [RegistryCall.removes, RegistryCall.adds]

theorem replay_lookup (answers : Answers ι υ R) (calls : List (RegistryCall ι υ)) :
    ∀ id, (replay (registryApply answers) ∅ calls).2.lookup id = registered id calls := by
  induction calls using List.reverseRecOn with
  | nil => exact fun id => rfl
  | append_singleton calls m ih =>
    intro id
    rw [replay_append, registryApply_lookup, ih, registered_append]

theorem registryApply_fst {objects : AList fun _ : ι => υ} {before : List (RegistryCall ι υ)}
    (h : ∀ id, objects.lookup id = registered id before) (m : RegistryCall ι υ) :
    (registryApply answers objects m).1 = expected answers before m := by
  have hmem : ∀ id, (id ∈ objects) ↔ (registered id before).isSome := fun id => by
    rw [← AList.lookup_isSome, h]
  cases m with
  | add id v =>
    by_cases hid : id ∈ objects
    · have hsome := (hmem id).mp hid
      rw [registryApply, if_pos hid, expected, Option.isNone_eq_false_iff.mpr hsome]
    · have hnone := mt (hmem id).mpr hid
      rw [registryApply, if_neg hid, expected]
      rw [Option.not_isSome_iff_eq_none] at hnone
      rw [hnone, Option.isNone_none]
  | remove id | has id =>
    simp only [registryApply, expected, hmem, Bool.decide_eq_true]
  | get id =>
    simp only [registryApply, expected, h]
    cases registered id before with
    | none => rfl
    | some v => rfl

/-- Whatever the threads do, a call that has ended answers what the calls that ended
before it determine. -/
theorem registry_expected {n : ℕ} {acts : List (Act (RegistryCall ι υ))}
    {s : State (AList fun _ : ι => υ) (RegistryCall ι υ) Place R C}
    (hrun : run (State.step (registrySections answers callback)) (State.start n ∅) acts = some s)
    {k : ℕ} {e : ℕ × RegistryCall ι υ × R} (hk : s.log[k]? = some e) :
    e.2.2 = expected answers ((s.log.take k).map (·.2.1)) e.2.1 := by
  obtain ⟨-, hanswers, -⟩ := linearizable_answers registry_readOnly
    (fun _ _ _ _ => registry_does) hrun
  rw [hanswers k e hk]
  exact registryApply_fst (replay_lookup answers _) e.2.1

/-! ### A class on top -/

/-- A class whose calls, each of them atomic, do to its map what the sections do. -/
theorem registry_refines {τ : Type} (objects : τ → AList fun _ : ι => υ)
    {call : τ → RegistryCall ι υ → R × τ}
    (hcall : ∀ self m, registryApply answers (objects self) m =
      ((call self m).1, objects (call self m).2))
    (create : τ) (hcreate : objects create = ∅) {n : ℕ} {acts : List (Act (RegistryCall ι υ))}
    {s : State (AList fun _ : ι => υ) (RegistryCall ι υ) Place R C}
    (hrun : run (State.step (registrySections answers callback)) (State.start n ∅) acts = some s) :
    ∃ self : τ, replay call create (s.log.map (·.2.1)) = (s.log.map (·.2.2), self) ∧
      ((∀ t ∈ s.threads, t.position.holds (registrySections answers callback) ≠ some .unique) →
        s.object = objects self) := by
  obtain ⟨hresults, -, hobject⟩ := linearizable_answers registry_readOnly
    (fun _ _ _ _ => registry_does) hrun
  rw [← hcreate, replay_map objects hcall] at hresults hobject
  exact ⟨_, Prod.ext hresults rfl, hobject⟩

/-- An iterator is used while its element is in the map. -/
theorem registry_not_dangling {n : ℕ} {acts : List (Act (RegistryCall ι υ))}
    {s : State (AList fun _ : ι => υ) (RegistryCall ι υ) Place R C}
    (hrun : run (State.step (registrySections answers callback)) (State.start n ∅) acts = some s)
    (hflag : ∀ b, answers.flag b ≠ answers.dangling)
    (hmissing : ∀ id, answers.missing id ≠ answers.dangling)
    (helement : ∀ v, answers.element v ≠ answers.dangling) :
    ∀ e ∈ s.log, e.2.2 ≠ answers.dangling := by
  intro e he
  obtain ⟨k, hk⟩ := List.mem_iff_getElem?.mp he
  rw [registry_expected hrun hk]
  cases e.2.1 with
  | add | remove | has => exact hflag _
  | get id =>
    simp only [expected]
    split
    · exact helement _
    · exact hmissing _

end Calls

/-! ### The repository -/

/-- What a call of the repository answers, or what comes of an iterator whose element
has been erased. -/
inductive Reply (α : Type)
  | flag (b : Bool)
  | got (g : Got α)
  | dangling
deriving DecidableEq

namespace ObjectRepository

variable {α : Type} (typeName : String) (toString : ι → String)

/-- The answers of the repository: `get` dereferences the pointer it has found. -/
def answers : Answers ι (UniquePtr α) (Reply α) where
  flag := .flag
  missing id := .got (.throws ⟨"brasa::pattern::ObjectRepository::get object not found for "
    ++ typeName ++ " and id " ++ toString id⟩)
  element
    | none => .got .nullDereference
    | some o => .got (.object o)
  dangling := .dangling

/-- The methods under the lock. None of them runs code of the caller after it. -/
def sections : Sections (AList fun _ : ι => UniquePtr α) (RegistryCall ι (UniquePtr α)) Place
    (Reply α) Empty :=
  registrySections (answers typeName toString) fun _ => none

/-- The methods as atomic operations. -/
def call (self : ObjectRepository ι α) :
    RegistryCall ι (UniquePtr α) → Reply α × ObjectRepository ι α
  | .add id u => (.flag (self.add id u).1, (self.add id u).2)
  | .remove id => (.flag (self.remove id).1, (self.remove id).2)
  | .has id => (.flag (self.has id), self)
  | .get id => (.got (self.get typeName toString id), self)

theorem registryApply_objects (self : ObjectRepository ι α) (m : RegistryCall ι (UniquePtr α)) :
    registryApply (answers typeName toString) self.objects m =
      ((self.call typeName toString m).1, (self.call typeName toString m).2.objects) := by
  cases m with
  | add id u =>
    simp only [registryApply, call, add]
    split <;> rfl
  | remove | has => rfl
  | get id =>
    simp only [registryApply, call, get]
    rcases self.objects.lookup id with _ | (_ | o) <;> rfl

end ObjectRepository

/-- **The repository is linearizable.** Whatever its threads do, the calls that have
ended answer what the methods answer when called one after the other in the order in
which their sections ended, the map is then that of this history unless a call is in
the middle of changing it, and no iterator is used after its element was erased. -/
theorem repository_linearizable {α : Type} (typeName : String) (toString : ι → String) {n : ℕ}
    {acts : List (Act (RegistryCall ι (UniquePtr α)))}
    {s : State (AList fun _ : ι => UniquePtr α) (RegistryCall ι (UniquePtr α)) Place (Reply α)
      Empty}
    (hrun : run (State.step (ObjectRepository.sections typeName toString)) (State.start n ∅) acts =
      some s) :
    (∃ self : ObjectRepository ι α,
      replay (ObjectRepository.call typeName toString) .create (s.log.map (·.2.1)) =
          (s.log.map (·.2.2), self) ∧
        ((∀ t ∈ s.threads,
            t.position.holds (ObjectRepository.sections typeName toString) ≠ some .unique) →
          s.object = self.objects)) ∧
      ∀ e ∈ s.log, e.2.2 ≠ .dangling :=
  ⟨registry_refines ObjectRepository.objects
      (ObjectRepository.registryApply_objects typeName toString) .create rfl hrun,
    registry_not_dangling hrun nofun nofun fun v => by cases v <;> nofun⟩

/-- Two threads in `get` at a time, while a third one waits to remove the object. -/
def overlappingGets : List (Act (RegistryCall ℕ (UniquePtr String))) :=
  [.call 0 (.add 1 (some "one")), .enter 0, .next 0, .call 0 (.get 1), .call 1 (.get 1),
    .call 2 (.remove 1), .enter 0, .enter 1, .next 0, .next 1, .next 1, .next 0, .enter 2, .next 2,
    .call 0 (.get 1), .enter 0, .next 0]

theorem repository_linearizable_overlapping : ∃ s,
    run (State.step (ObjectRepository.sections "Base" Nat.repr)) (State.start 3 ∅) overlappingGets =
        some s ∧
      (∃ self, replay (ObjectRepository.call "Base" Nat.repr) .create (s.log.map (·.2.1)) =
        (s.log.map (·.2.2), self)) ∧
      ∀ e ∈ s.log, e.2.2 ≠ .dangling := by
  obtain ⟨s, hs⟩ := Option.isSome_iff_exists.mp
    (rfl : (run (State.step (ObjectRepository.sections "Base" Nat.repr)) (State.start 3 ∅)
      overlappingGets).isSome = true)
  obtain ⟨⟨self, hreplay, -⟩, hdangling⟩ := repository_linearizable "Base" Nat.repr hs
  exact ⟨s, hs, ⟨self, hreplay⟩, hdangling⟩

end Brasa.Pattern
