import Brasa.Thread.Handles
import Brasa.Thread.Snapshot

/-!
# Brasa.Thread.Register

**What an `Rcu<T>` is for**: a register that hands out copies. There are no nodes, no
pointers and no counters here: a reader is the value it was given, a writer is a draft of
its own, and the draft becomes the value of the register at one point of the operation
that gives the writer up.

`Sessions` says that no update is lost: the value is that of the sessions published so
far, and a draft is what the open session has made of it.
-/

namespace Brasa.Thread.Copies

open Brasa.Thread.Handles

variable {T : Type*}

/-- The value, the readers with their values, the writers with their drafts, and the
operation that is giving up a writer, with whether its draft has been published. The rest
is a record: the mutations of the sessions that were published, and of the open one. -/
structure Register (T : Type*) where
  value : T
  readers : List (Option T)
  writers : List (Option T)
  closing : Option (WriterOp × Bool)
  committed : List (T → T)
  opened : T → T

/-- An operation on the handles, or a step of the operation that gives up a writer. -/
inductive Act (T : Type*)
  | read
  | readerMove (j : ℕ)
  | readerAssign (i j : ℕ)
  | readerDestroy (i : ℕ)
  | write (copied : Bool)
  | writerMove (j : ℕ)
  | writerAssign (i j : ℕ)
  | writerDestroy (i : ℕ)
  | mutate (i : ℕ) (f : T → T)
  | publish
  /-- Anything that is not observed. -/
  | clean
  | finish

namespace Register

def start (v₀ : T) : Register T :=
  { value := v₀, readers := [], writers := [], closing := none, committed := [], opened := id }

/-- The writer `i` is in use by the operation in progress. -/
def Busy (r : Register T) (i : ℕ) : Prop := ∃ p ∈ r.closing, p.1.Uses i

instance (r : Register T) (i : ℕ) : Decidable (r.Busy i) :=
  match h : r.closing with
  | none => isFalse fun ⟨p, hp, _⟩ => by rw [h] at hp; cases hp
  | some p => decidable_of_iff (p.1.Uses i)
      ⟨fun hi => ⟨p, h, hi⟩, fun ⟨_, hq, hi⟩ => Option.some.inj (h.symm.trans hq) ▸ hi⟩

/-- Start to give up a writer. -/
def close (r : Register T) (op : WriterOp) : Option (Register T) :=
  if r.closing.isSome then none else some { r with closing := some (op, false) }

/-- One step; `none` if it is not possible. -/
def step (r : Register T) : Act T → Option (Register T)
  | .read => some { r with readers := r.readers ++ [some r.value] }
  | .readerMove j =>
    if j < r.readers.length then some { r with readers := moveConstruct r.readers j } else none
  | .readerAssign i j =>
    if i < r.readers.length ∧ j < r.readers.length then
      some { r with readers := moveAssign r.readers i j }
    else none
  | .readerDestroy i =>
    if i < r.readers.length then some { r with readers := r.readers.set i none } else none
  | .write copied =>
    if ∀ w ∈ r.writers, w = none then
      some (if copied then { r with writers := r.writers ++ [some r.value], opened := id } else r)
    else none
  | .writerMove j =>
    if j < r.writers.length ∧ ¬ r.Busy j then
      some { r with writers := moveConstruct r.writers j }
    else none
  | .writerAssign i j =>
    if i < r.writers.length ∧ j < r.writers.length ∧ ¬ r.Busy i ∧ ¬ r.Busy j then
      match r.writers[i]?.join with
      | some _ => r.close (.assign i j)
      | none => some { r with writers := moveAssign r.writers i j }
    else none
  | .writerDestroy i =>
    if i < r.writers.length ∧ ¬ r.Busy i then
      match r.writers[i]?.join with
      | some _ => r.close (.destroy i)
      | none => some r
    else none
  | .mutate i f =>
    if r.Busy i then none
    else r.writers[i]?.join.map fun v =>
      { r with writers := r.writers.set i (some (f v)), opened := f ∘ r.opened }
  | .publish =>
    match r.closing with
    | some (op, false) =>
      r.writers[op.target]?.join.map fun v =>
        { r with
          value := v, closing := some (op, true)
          committed := r.committed ++ [r.opened], opened := id }
    | _ => none
  | .clean =>
    match r.closing with
    | some (_, true) => some r
    | _ => none
  | .finish =>
    match r.closing with
    | some (op, true) => some { r with writers := op.finish r.writers, closing := none }
    | _ => none

end Register

/-! ### No lost update -/

/-- The value is that of the sessions published so far, and a draft is that of the open
one on top of it. -/
structure Sessions (v₀ : T) (r : Register T) : Prop where
  value : r.value = Snapshot.commit v₀ r.committed
  drafts : ∀ v, some v ∈ r.writers → v = r.opened r.value

variable {v₀ : T} {r r' : Register T}

theorem mem_of_mem_moveConstruct {l : List (Option T)} {j : ℕ} {v : T}
    (h : some v ∈ moveConstruct l j) : some v ∈ l := by
  rcases List.mem_append.mp h with h | h
  · exact (List.mem_or_eq_of_mem_set h).resolve_right (by simp)
  · rw [List.mem_singleton] at h
    exact List.mem_of_getElem? (Option.join_eq_some_iff.mp h.symm)

theorem mem_of_mem_moveAssign {l : List (Option T)} {i j : ℕ} {v : T}
    (h : some v ∈ moveAssign l i j) : some v ∈ l := by
  rcases List.mem_or_eq_of_mem_set h with h | h
  · rcases List.mem_or_eq_of_mem_set h with h | h
    · exact h
    · exact List.mem_of_getElem? (Option.join_eq_some_iff.mp h.symm)
  · cases h

theorem mem_of_mem_finish {l : List (Option T)} {op : WriterOp} {v : T}
    (h : some v ∈ op.finish l) : some v ∈ l := by
  cases op with
  | destroy i => exact (List.mem_or_eq_of_mem_set h).resolve_right (by simp)
  | assign i j => exact mem_of_mem_moveAssign h

/-- Moving and giving up writers makes no new draft. -/
theorem Sessions.of_writers (h : Sessions v₀ r) {writers : List (Option T)}
    (hwriters : ∀ v, some v ∈ writers → some v ∈ r.writers) :
    Sessions v₀ { r with writers } :=
  { value := h.value
    drafts := fun v hv => h.drafts v (hwriters v hv) }

theorem Sessions.close (h : Sessions v₀ r) {op : WriterOp} (hr' : r.close op = some r') :
    Sessions v₀ r' := by
  rw [Register.close, Option.ite_none_left_eq_some, Option.some.injEq] at hr'
  obtain ⟨-, rfl⟩ := hr'
  exact ⟨h.value, h.drafts⟩

/-- The draft of the only writer is changed. -/
theorem Sessions.mutate (h : Sessions v₀ r)
    (hsole : ∀ (i j : ℕ) v w, r.writers[i]? = some (some v) → r.writers[j]? = some (some w) →
      i = j) {i : ℕ} {f : T → T} (hr' : r.step (.mutate i f) = some r') : Sessions v₀ r' := by
  rw [Register.step, Option.ite_none_left_eq_some, Option.map_eq_some_iff] at hr'
  obtain ⟨-, v, hv, rfl⟩ := hr'
  rw [Option.join_eq_some_iff] at hv
  refine ⟨h.value, fun w hw => ?_⟩
  obtain ⟨j, hj⟩ := List.mem_iff_getElem?.mp hw
  rw [List.getElem?_set] at hj
  by_cases hij : i = j
  · rw [if_pos hij] at hj
    split at hj
    · obtain rfl := Option.some.inj (Option.some.inj hj)
      exact congrArg f (h.drafts v (List.mem_of_getElem? hv))
    · cases hj
  · rw [if_neg hij] at hj
    exact absurd (hsole i j v w hv hj) hij

theorem Sessions.publish (h : Sessions v₀ r) (hr' : r.step .publish = some r') :
    Sessions v₀ r' := by
  rw [Register.step] at hr'
  split at hr'
  · rw [Option.map_eq_some_iff] at hr'
    obtain ⟨v, hv, rfl⟩ := hr'
    have hdraft := h.drafts v (List.mem_of_getElem? (Option.join_eq_some_iff.mp hv))
    refine ⟨?_, fun w hw => (h.drafts w hw).trans hdraft.symm⟩
    rw [Snapshot.commit_concat, ← h.value]
    exact hdraft
  · cases hr'

theorem Sessions.step (h : Sessions v₀ r)
    (hsole : ∀ (i j : ℕ) v w, r.writers[i]? = some (some v) → r.writers[j]? = some (some w) →
      i = j) {a : Act T} (hr' : r.step a = some r') : Sessions v₀ r' := by
  cases a with
  | read =>
    cases hr'
    exact ⟨h.value, h.drafts⟩
  | readerMove j =>
    rw [Register.step, Option.ite_none_right_eq_some, Option.some.injEq] at hr'
    obtain ⟨-, rfl⟩ := hr'
    exact ⟨h.value, h.drafts⟩
  | readerAssign i j =>
    rw [Register.step, Option.ite_none_right_eq_some, Option.some.injEq] at hr'
    obtain ⟨-, rfl⟩ := hr'
    exact ⟨h.value, h.drafts⟩
  | readerDestroy i =>
    rw [Register.step, Option.ite_none_right_eq_some, Option.some.injEq] at hr'
    obtain ⟨-, rfl⟩ := hr'
    exact ⟨h.value, h.drafts⟩
  | write copied =>
    rw [Register.step, Option.ite_none_right_eq_some, Option.some.injEq] at hr'
    obtain ⟨hnone, rfl⟩ := hr'
    cases copied with
    | false => exact h
    | true =>
      refine ⟨h.value, fun v hv => ?_⟩
      rcases List.mem_append.mp hv with hv | hv
      · exact absurd (hnone _ hv) (by simp)
      · exact Option.some.inj (List.mem_singleton.mp hv)
  | writerMove j =>
    rw [Register.step, Option.ite_none_right_eq_some, Option.some.injEq] at hr'
    obtain ⟨-, rfl⟩ := hr'
    exact h.of_writers fun v => mem_of_mem_moveConstruct
  | writerAssign i j =>
    rw [Register.step, Option.ite_none_right_eq_some] at hr'
    obtain ⟨-, hr'⟩ := hr'
    split at hr'
    · exact h.close hr'
    · cases hr'
      exact h.of_writers fun v => mem_of_mem_moveAssign
  | writerDestroy i =>
    rw [Register.step, Option.ite_none_right_eq_some] at hr'
    obtain ⟨-, hr'⟩ := hr'
    split at hr'
    · exact h.close hr'
    · cases hr'
      exact h
  | mutate i f => exact h.mutate hsole hr'
  | publish => exact h.publish hr'
  | clean =>
    rw [Register.step] at hr'
    split at hr'
    · cases hr'
      exact h
    · cases hr'
  | finish =>
    rw [Register.step] at hr'
    split at hr'
    · cases hr'
      exact ⟨h.value, fun v hv => h.drafts v (mem_of_mem_finish hv)⟩
    · cases hr'

end Brasa.Thread.Copies
