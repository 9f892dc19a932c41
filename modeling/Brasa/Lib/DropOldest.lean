import Mathlib.Data.List.Basic

/-!
# Brasa.Lib.DropOldest

The drop-oldest bounded FIFO: a queue of at most `n` elements that never refuses
an element, and makes room by discarding its oldest one. The bound is part of
the type, so an overfull queue cannot be built.
-/

namespace Brasa.Lib

/-- A queue of at most `n` elements, oldest first. -/
@[ext] structure DropOldest (α : Type*) (n : ℕ) where
  items : List α
  bound : items.length ≤ n

namespace DropOldest

variable {α : Type*} {n : ℕ}

/-- The empty queue. -/
def empty (α : Type*) (n : ℕ) : DropOldest α n := ⟨[], Nat.zero_le n⟩

/-- The items after `v` arrives: `v` is appended, and if `n` items were already
waiting the oldest one goes. -/
def pushItems (n : ℕ) (items : List α) (v : α) : List α :=
  if items.length < n then items ++ [v] else (items ++ [v]).tail

theorem pushItems_length_le {items : List α} (h : items.length ≤ n) (v : α) :
    (pushItems n items v).length ≤ n := by
  unfold pushItems
  split
  · simp only [List.length_append, List.length_singleton]
    omega
  · simp only [List.length_tail, List.length_append, List.length_singleton]
    omega

/-- Append `v`, discarding the oldest item of a full queue. -/
def push (q : DropOldest α n) (v : α) : DropOldest α n :=
  ⟨pushItems n q.items v, pushItems_length_le q.bound v⟩

@[simp] theorem push_items (q : DropOldest α n) (v : α) :
    (q.push v).items = pushItems n q.items v := rfl

theorem push_items_length (q : DropOldest α n) (v : α) :
    (q.push v).items.length = min (q.items.length + 1) n := by
  have := q.bound
  rw [push_items, pushItems]
  split
  · simp only [List.length_append, List.length_singleton]
    omega
  · simp only [List.length_tail, List.length_append, List.length_singleton]
    omega

/-- Remove and return the oldest item, if there is one. -/
def pop (q : DropOldest α n) : Option α × DropOldest α n :=
  match q with
  | ⟨[], h⟩ => (none, ⟨[], h⟩)
  | ⟨x :: rest, h⟩ => (some x, ⟨rest, Nat.le_of_succ_le h⟩)

theorem pop_eq (q : DropOldest α n) :
    q.pop.1 = q.items.head? ∧ q.pop.2.items = q.items.tail := by
  obtain ⟨items, h⟩ := q
  cases items with
  | nil => exact ⟨rfl, rfl⟩
  | cons x rest => exact ⟨rfl, rfl⟩

/-! ### An item that replaces the oldest one -/

/-- Replacing the oldest of `n` items by `v` cannot be told from leaving them alone or
from pushing `v`. -/
def Overwritable (n : ℕ) (items : List α) (v : α) : Prop :=
  items.length < n ∨ items.head? = some v ∨ ∀ x ∈ items.tail, x = v

instance [DecidableEq α] (n : ℕ) (items : List α) (v : α) : Decidable (Overwritable n items v) :=
  inferInstanceAs (Decidable (_ ∨ _ ∨ _))

theorem cons_eq_append_singleton {v : α} {l : List α} : v :: l = l ++ [v] ↔ ∀ x ∈ l, x = v := by
  induction l with
  | nil => simp
  | cons x l ih =>
    rw [List.cons_append, List.cons.injEq, List.forall_mem_cons, ← ih, eq_comm (a := v)]
    exact and_congr_right fun hx => by rw [hx]

/-- A full queue whose oldest item has been replaced. -/
theorem replaced_iff_overwritable {q : DropOldest α n} (hn : 0 < n) (hfull : q.items.length = n)
    {v : α} :
    (v :: q.items.tail = q.items ∨ v :: q.items.tail = (q.push v).items) ↔
      Overwritable n q.items v := by
  obtain ⟨items, hbound⟩ := q
  cases items with
  | nil => rw [← hfull] at hn; cases hn
  | cons x l =>
    have hnot : ¬ (x :: l).length < n := Nat.not_lt.mpr (Nat.le_of_eq hfull.symm)
    have hpush : (push ⟨x :: l, hbound⟩ v).items = l ++ [v] := if_neg hnot
    rw [hpush, Overwritable, ← cons_eq_append_singleton]
    simp only [hnot, false_or, List.tail_cons, List.head?_cons, List.cons.injEq, and_true,
      Option.some.injEq]
    rw [eq_comm (a := v) (b := x)]

end DropOldest

end Brasa.Lib
