import Brasa.Lib.Run
import Mathlib.Data.List.AList

/-!
# Brasa.Pattern.ObjectRepository

`ObjectRepository` owns objects and hands out references to them by an identifier:
**the object of an identifier is the first one added since the identifier was last
removed**. Every call holds the mutex from beginning to end, so a history of the
repository is a list of calls. The destructor of an object, which `remove` runs under the
lock, does not call the repository again.
-/

namespace Brasa.Pattern

open Brasa.Lib

variable {ι α : Type} [DecidableEq ι]

/-- A `std::unique_ptr<BASE>`: the object it owns, or null. -/
abbrev UniquePtr (α : Type) := Option α

/-- `std::logic_error`. -/
structure LogicError where
  what : String
deriving DecidableEq, Repr

/-- What comes of a call of `get`: an exception, a reference to an object, or the
dereference of a null pointer. -/
inductive Got (α : Type)
  | throws (e : LogicError)
  | object (o : α)
  | nullDereference
deriving DecidableEq, Repr

structure ObjectRepository (ι α : Type) where
  objects : AList fun _ : ι => UniquePtr α

namespace ObjectRepository

/-- The constructor. -/
def create : ObjectRepository ι α := ⟨∅⟩

/-- `add` of a pointer. An element that is there already stays. -/
def add (self : ObjectRepository ι α) (id : ι) (u : UniquePtr α) : Bool × ObjectRepository ι α :=
  if id ∈ self.objects then (false, self) else (true, ⟨self.objects.insert id u⟩)

/-- `add` of the arguments of a constructor: `make_unique` returns the new object `o`. -/
def addNew (self : ObjectRepository ι α) (id : ι) (o : α) : Bool × ObjectRepository ι α :=
  self.add id (some o)

def remove (self : ObjectRepository ι α) (id : ι) : Bool × ObjectRepository ι α :=
  (id ∈ self.objects, ⟨self.objects.erase id⟩)

def has (self : ObjectRepository ι α) (id : ι) : Bool := id ∈ self.objects

/-- Both overloads of `get`. -/
def get (typeName : String) (toString : ι → String) (self : ObjectRepository ι α) (id : ι) :
    Got α :=
  match self.objects.lookup id with
  | none => .throws ⟨"brasa::pattern::ObjectRepository::get object not found for " ++ typeName
      ++ " and id " ++ toString id⟩
  | some none => .nullDereference
  | some (some o) => .object o

end ObjectRepository

/-! ### Histories -/

inductive Call (ι α : Type)
  | add (id : ι) (u : UniquePtr α)
  | addNew (id : ι) (o : α)
  | remove (id : ι)
  | has (id : ι)
  | get (id : ι)

/-- A call, and whether it was successful: the result of `add`, `remove` and `has`, and
for `get` whether it returned. -/
structure Event (ι α : Type) where
  call : Call ι α
  successful : Bool

namespace Event

/-- The pointer of a successful `add(id, …)`. -/
def added (id : ι) (e : Event ι α) : Option (UniquePtr α) :=
  match e.call with
  | .add id' u => if id' = id ∧ e.successful then some u else none
  | .addNew id' o => if id' = id ∧ e.successful then some (some o) else none
  | _ => none

/-- A successful `remove(id)`. -/
def removed (id : ι) (e : Event ι α) : Bool :=
  match e.call with
  | .remove id' => id' = id ∧ e.successful
  | _ => false

end Event

/-- The pointer that was passed to the first successful `add(id, …)` since the last
successful `remove(id)`. -/
def firstAdded (id : ι) (log : List (Event ι α)) : Option (UniquePtr α) :=
  (log.reverse.takeWhile fun e => !e.removed id).reverse.findSome? (Event.added id)

omit [DecidableEq ι] in
/-- A function of a list that looks behind the last `stop`, with one more element. -/
theorem findSome?_since {β γ : Type} (stop : β → Bool) (f : β → Option γ) (l : List β) (b : β) :
    (((l ++ [b]).reverse.takeWhile fun c => !stop c).reverse.findSome? f)
      = if stop b then none
        else (((l.reverse.takeWhile fun c => !stop c).reverse.findSome? f).or (f b)) := by
  rw [List.reverse_append, List.reverse_singleton, List.singleton_append, List.takeWhile_cons]
  cases stop b with
  | true => rfl
  | false => simp [List.findSome?_append]

theorem firstAdded_append (id : ι) (log : List (Event ι α)) (e : Event ι α) :
    firstAdded id (log ++ [e])
      = if e.removed id then none else (firstAdded id log).or (e.added id) :=
  findSome?_since _ _ log e

/-- A repository in use, with a record of what happened to it: the objects whose
ownership was passed to it, the objects that were destroyed, and the calls. -/
structure Run (ι α : Type) where
  repository : ObjectRepository ι α
  passed : List α
  destroyed : List α
  log : List (Event ι α)

def Run.start : Run ι α := ⟨.create, [], [], []⟩

variable [DecidableEq α]

/-- The pointer of an `add` is moved into the repository, or destroyed with its object. A
`unique_ptr` owns its object alone, so that no object is passed a second time. -/
def stepAdd (r : Run ι α) (id : ι) (u : UniquePtr α) (call : Call ι α) : Option (Run ι α) :=
  if ∃ o ∈ u, o ∈ r.passed then none
  else
    let (successful, repository) := r.repository.add id u
    some
      { repository := repository
        passed := r.passed ++ u.toList
        destroyed := if successful then r.destroyed else r.destroyed ++ u.toList
        log := r.log ++ [⟨call, successful⟩] }

/-- One call. Erasing an element destroys its object. -/
def step (r : Run ι α) : Call ι α → Option (Run ι α)
  | .add id u => stepAdd r id u (.add id u)
  | .addNew id o => stepAdd r id (some o) (.addNew id o)
  | .remove id =>
    let (successful, repository) := r.repository.remove id
    some
      { r with
        repository := repository
        destroyed := r.destroyed ++ (r.repository.objects.lookup id).join.toList
        log := r.log ++ [⟨.remove id, successful⟩] }
  | .has id => some { r with log := r.log ++ [⟨.has id, r.repository.has id⟩] }
  | .get id => some { r with log := r.log ++ [⟨.get id, r.repository.has id⟩] }

/-! ### What the repository owns -/

section Owned

variable {r r' : Run ι α} {id : ι} {u : UniquePtr α} {call : Call ι α}

/-- What holds of every history. -/
structure Owned (r : Run ι α) : Prop where
  lookup : ∀ id, r.repository.objects.lookup id = firstAdded id r.log
  passed : ∀ id o, r.repository.objects.lookup id = some (some o) → o ∈ r.passed
  live : ∀ id o, r.repository.objects.lookup id = some (some o) → o ∉ r.destroyed
  destroyed : ∀ o ∈ r.destroyed, o ∈ r.passed
  alone : ∀ id id' o, r.repository.objects.lookup id = some (some o) →
    r.repository.objects.lookup id' = some (some o) → id = id'

omit [DecidableEq α] in
theorem owned_start : Owned (Run.start : Run ι α) where
  lookup _ := rfl
  passed _ _ := nofun
  live _ _ := nofun
  destroyed _ := nofun
  alone _ _ _ := nofun

omit [DecidableEq α] in
theorem lookup_insert (objects : AList fun _ : ι => UniquePtr α) (id id' : ι) (u : UniquePtr α) :
    (objects.insert id u).lookup id' = if id' = id then some u else objects.lookup id' := by
  by_cases h : id' = id
  · rw [if_pos h, h, AList.lookup_insert]
  · rw [if_neg h, AList.lookup_insert_ne h]

omit [DecidableEq α] in
theorem lookup_erase (objects : AList fun _ : ι => UniquePtr α) (id id' : ι) :
    (objects.erase id).lookup id' = if id' = id then none else objects.lookup id' := by
  by_cases h : id' = id
  · rw [if_pos h, h, AList.lookup_erase]
  · rw [if_neg h, AList.lookup_erase_ne h]

/-- The two things that `add` can do. -/
theorem stepAdd_cases (h : stepAdd r id u call = some r') :
    (∀ o ∈ u, o ∉ r.passed) ∧
      ((id ∈ r.repository.objects ∧
        r' = ⟨r.repository, r.passed ++ u.toList, r.destroyed ++ u.toList,
          r.log ++ [⟨call, false⟩]⟩) ∨
      (id ∉ r.repository.objects ∧
        r' = ⟨⟨r.repository.objects.insert id u⟩, r.passed ++ u.toList, r.destroyed,
          r.log ++ [⟨call, true⟩]⟩)) := by
  rw [stepAdd] at h
  split at h
  · cases h
  · rename_i hfresh
    refine ⟨fun o ho hmem => hfresh ⟨o, ho, hmem⟩, ?_⟩
    by_cases hid : id ∈ r.repository.objects
    · rw [ObjectRepository.add, if_pos hid] at h
      cases h
      exact .inl ⟨hid, rfl⟩
    · rw [ObjectRepository.add, if_neg hid] at h
      cases h
      exact .inr ⟨hid, rfl⟩

/-- `add` keeps the first object of an identifier and destroys any other. -/
theorem Owned.stepAdd (hr : Owned r) (h : stepAdd r id u call = some r')
    (hadded : ∀ id' b, (Event.mk call b).added id' = if id = id' ∧ b then some u else none)
    (hremoved : ∀ id' b, (Event.mk call b).removed id' = false) : Owned r' := by
  obtain ⟨hfresh, ⟨hid, rfl⟩ | ⟨hid, rfl⟩⟩ := stepAdd_cases h
  · refine ⟨fun id' => ?_, ?_, ?_, ?_, hr.alone⟩
    · rw [firstAdded_append, hremoved, hadded, if_neg (by simp), if_neg (by simp), Option.or_none]
      exact hr.lookup id'
    · exact fun id' o ho => List.mem_append_left _ (hr.passed id' o ho)
    · intro id' o ho hmem
      rcases List.mem_append.mp hmem with hmem | hmem
      · exact hr.live id' o ho hmem
      · exact hfresh o (Option.mem_toList.mp hmem) (hr.passed id' o ho)
    · intro o ho
      rcases List.mem_append.mp ho with ho | ho
      · exact List.mem_append_left _ (hr.destroyed o ho)
      · exact List.mem_append_right _ ho
  · have hnone : r.repository.objects.lookup id = none := AList.lookup_eq_none.mpr hid
    refine ⟨fun id' => ?_, ?_, ?_, ?_, ?_⟩
    · rw [firstAdded_append, hremoved, hadded, if_neg (by simp), ← hr.lookup id', lookup_insert]
      by_cases h' : id' = id
      · rw [if_pos h', if_pos ⟨h'.symm, rfl⟩, h', hnone, Option.none_or]
      · rw [if_neg h', if_neg fun hand => h' hand.1.symm, Option.or_none]
    · intro id' o ho
      rw [lookup_insert] at ho
      split at ho
      · exact List.mem_append_right _ (Option.mem_toList.mpr (Option.some.inj ho))
      · exact List.mem_append_left _ (hr.passed id' o ho)
    · intro id' o ho hmem
      rw [lookup_insert] at ho
      split at ho
      · exact hfresh o (Option.some.inj ho) (hr.destroyed o hmem)
      · exact hr.live id' o ho hmem
    · exact fun o ho => List.mem_append_left _ (hr.destroyed o ho)
    · intro id₁ id₂ o h₁ h₂
      rw [lookup_insert] at h₁ h₂
      split at h₁
      · split at h₂
        · exact ‹id₁ = id›.trans ‹id₂ = id›.symm
        · exact absurd (hr.passed id₂ o h₂) (hfresh o (Option.some.inj h₁))
      · split at h₂
        · exact absurd (hr.passed id₁ o h₁) (hfresh o (Option.some.inj h₂))
        · exact hr.alone id₁ id₂ o h₁ h₂

omit [DecidableEq α] in
/-- A call that only looks leaves everything as it is. -/
theorem Owned.look {e : Event ι α} (hr : Owned r) (hadded : ∀ id', e.added id' = none)
    (hremoved : ∀ id', e.removed id' = false) : Owned { r with log := r.log ++ [e] } := by
  refine ⟨fun id' => ?_, hr.passed, hr.live, hr.destroyed, hr.alone⟩
  rw [firstAdded_append, hremoved, hadded, if_neg (by simp), Option.or_none]
  exact hr.lookup id'

/-- `remove` destroys the object of the identifier, which no other identifier has. -/
theorem Owned.remove (hr : Owned r) (h : step r (.remove id) = some r') : Owned r' := by
  cases h
  have herased (id' : ι) (o : α) (ho : (r.repository.objects.erase id).lookup id' = some (some o)) :
      id' ≠ id ∧ r.repository.objects.lookup id' = some (some o) := by
    rw [lookup_erase] at ho
    split at ho
    · cases ho
    · exact ⟨‹_›, ho⟩
  have hstored (o : α) (ho : o ∈ (r.repository.objects.lookup id).join.toList) :
      r.repository.objects.lookup id = some (some o) :=
    Option.join_eq_some_iff.mp (Option.mem_toList.mp ho)
  refine ⟨fun id' => ?_, ?_, ?_, ?_, ?_⟩
  · show (r.repository.objects.erase id).lookup id' = firstAdded id' (r.log ++ [_])
    rw [firstAdded_append, lookup_erase, ← hr.lookup id']
    show _ = if decide (id = id' ∧ decide (id ∈ r.repository.objects) = true) then none
      else (r.repository.objects.lookup id').or none
    rw [Option.or_none]
    by_cases hid : id' = id
    · subst hid
      by_cases hmem : id' ∈ r.repository.objects
      · simp [hmem]
      · simp [AList.lookup_eq_none.mpr hmem]
    · simp [hid, Ne.symm hid]
  · exact fun id' o ho => hr.passed id' o (herased id' o ho).2
  · intro id' o ho hmem
    obtain ⟨hne, ho⟩ := herased id' o ho
    rcases List.mem_append.mp hmem with hmem | hmem
    · exact hr.live id' o ho hmem
    · exact hne (hr.alone id' id o ho (hstored o hmem))
  · intro o ho
    rcases List.mem_append.mp ho with ho | ho
    · exact hr.destroyed o ho
    · exact hr.passed id o (hstored o ho)
  · exact fun id₁ id₂ o h₁ h₂ => hr.alone id₁ id₂ o (herased id₁ o h₁).2 (herased id₂ o h₂).2

theorem Owned.step (hr : Owned r) (h : step r call = some r') : Owned r' := by
  cases call with
  | add id u => exact hr.stepAdd h (fun _ _ => rfl) (fun _ _ => rfl)
  | addNew id o => exact hr.stepAdd h (fun _ _ => rfl) (fun _ _ => rfl)
  | remove id => exact hr.remove h
  | has id =>
    cases h
    exact hr.look (fun _ => rfl) (fun _ => rfl)
  | get id =>
    cases h
    exact hr.look (fun _ => rfl) (fun _ => rfl)

end Owned

/-! ### What `get` hands out -/

section HandsOut

variable (typeName : String) (toString : ι → String) {r r' : Run ι α} {call : Call ι α}

/-- What `get` is for: it throws just where `has` is `false`; otherwise it returns the
object of the first successful `add` since the last successful `remove`, which is not
destroyed. It never dereferences a null pointer. -/
structure HandsOut (r : Run ι α) : Prop where
  throws : ∀ id, (∃ e, r.repository.get typeName toString id = .throws e)
    ↔ r.repository.has id = false
  object : ∀ id, r.repository.has id = true →
    ∃ o, r.repository.get typeName toString id = .object o ∧
      firstAdded id r.log = some (some o) ∧ o ∉ r.destroyed
  notNull : ∀ id, r.repository.get typeName toString id ≠ .nullDereference

/-- Null is passed only for an identifier that has an object. -/
def NoNull (r : Run ι α) (call : Call ι α) : Prop :=
  ∀ id, call = .add id none → r.repository.has id = true

/-- No pointer of the repository is null. -/
def AllOwn (r : Run ι α) : Prop := ∀ id, r.repository.objects.lookup id ≠ some none

omit [DecidableEq α] in
theorem has_eq (r : Run ι α) (id : ι) :
    r.repository.has id = (r.repository.objects.lookup id).isSome := by
  rw [Bool.eq_iff_iff, AList.lookup_isSome, ObjectRepository.has, decide_eq_true_eq]

omit [DecidableEq α] in
/-- `get` throws where `has` is `false`, whatever the pointers are. -/
theorem get_throws_iff (r : Run ι α) (id : ι) :
    (∃ e, r.repository.get typeName toString id = .throws e) ↔ r.repository.has id = false := by
  rw [has_eq, ObjectRepository.get]
  cases r.repository.objects.lookup id with
  | none => simp
  | some u => cases u <;> simp

omit [DecidableEq α] in
theorem get_eq_null_iff (r : Run ι α) (id : ι) :
    r.repository.get typeName toString id = .nullDereference ↔
      r.repository.objects.lookup id = some none := by
  rw [ObjectRepository.get]
  cases r.repository.objects.lookup id with
  | none => simp
  | some u => cases u <;> simp

omit [DecidableEq α] in
theorem Owned.handsOut (hr : Owned r) (hown : AllOwn r) : HandsOut typeName toString r := by
  refine ⟨get_throws_iff typeName toString r, fun id hid => ?_,
    fun id hid => hown id ((get_eq_null_iff typeName toString r id).mp hid)⟩
  have hnull := hown id
  rw [has_eq] at hid
  rw [ObjectRepository.get, ← hr.lookup id]
  cases hlookup : r.repository.objects.lookup id with
  | none =>
    rw [hlookup] at hid
    cases hid
  | some u =>
    cases u with
    | none => exact absurd hlookup hnull
    | some o => exact ⟨o, rfl, rfl, hr.live id o hlookup⟩

theorem AllOwn.step (hown : AllOwn r) (hnull : NoNull r call) (h : step r call = some r') :
    AllOwn r' := by
  have hadd (id : ι) (u : UniquePtr α) (hu : u = none → r.repository.has id = true)
      (h : stepAdd r id u call = some r') : AllOwn r' := by
    obtain ⟨-, ⟨hid, rfl⟩ | ⟨hid, rfl⟩⟩ := stepAdd_cases h
    · exact hown
    · intro id' hlookup
      rw [lookup_insert] at hlookup
      split at hlookup
      · have hhas := hu (Option.some.inj hlookup)
        rw [ObjectRepository.has, decide_eq_true_eq] at hhas
        exact hid hhas
      · exact hown id' hlookup
  cases call with
  | add id u => exact hadd id u (fun hu => hnull id (by rw [hu])) h
  | addNew id o => exact hadd id (some o) nofun h
  | remove id =>
    cases h
    intro id' hlookup
    have hlookup : (r.repository.objects.erase id).lookup id' = some none := hlookup
    rw [lookup_erase] at hlookup
    split at hlookup
    · cases hlookup
    · exact hown id' hlookup
  | has id =>
    cases h
    exact hown
  | get id =>
    cases h
    exact hown

/-- A null pointer that is added is handed out. -/
theorem noNull_of_handsOut (h : ∀ r', step r call = some r' → HandsOut typeName toString r') :
    NoNull r call := by
  rintro id rfl
  by_contra hid
  rw [ObjectRepository.has, decide_eq_true_eq] at hid
  have hstep : step r (.add id none) = some
      ⟨⟨r.repository.objects.insert id none⟩, r.passed ++ [], r.destroyed,
        r.log ++ [⟨.add id none, true⟩]⟩ := by
    rw [step, stepAdd, if_neg (by simp), ObjectRepository.add, if_neg hid]
    rfl
  refine (h _ hstep).notNull id ((get_eq_null_iff typeName toString _ id).mpr ?_)
  rw [lookup_insert, if_pos rfl]

/-- **`get` hands out the right object in every state of a history exactly if no call of
it adds a null pointer.** -/
theorem get_handsOut_iff (calls : List (Call ι α)) :
    Always step (HandsOut typeName toString) .start calls ↔ Along step NoNull .start calls := by
  have hstep : ∀ (r : Run ι α) call r', Owned r ∧ AllOwn r → NoNull r call →
      step r call = some r' → Owned r' ∧ AllOwn r' :=
    fun r call r' hr hnull h => ⟨hr.1.step h, hr.2.step hnull h⟩
  exact always_iff_along (fun r hr => hr.1.handsOut typeName toString hr.2) hstep
    (fun r call _ h => noNull_of_handsOut typeName toString h) ⟨owned_start, fun _ => nofun⟩

end HandsOut

/-- `repo.add(1, std::unique_ptr<Derived>())` is successful, and then `get(1)`
dereferences the null pointer. -/
theorem get_null_dereference :
    ¬Always step (HandsOut (ι := ℕ) (α := ℕ) "4Base" toString) .start [.add 1 none, .get 1] := by
  intro h
  exact (Always.last h rfl).notNull 1 rfl

end Brasa.Pattern
