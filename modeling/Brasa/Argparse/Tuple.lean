import Mathlib.Data.List.Basic

/-!
# Brasa.Argparse.Tuple

`for_each_tuple` and `accumulate_tuple`: a functor called on each element of a
tuple in turn. A tuple is the list of its elements. The functor gets the index
of the element, may write to the element and to the variables `σ` it is given
references to, and may throw; an exception leaves the elements behind it alone.
-/

namespace Brasa.Argparse

variable {ε α β σ : Type}

/-- `for_each_tuple`, from the element of index `I` on. -/
def forEachTuple (f : ℕ → α → σ → EStateM.Result ε (α × σ) Unit) (I : ℕ) :
    List α → σ → EStateM.Result ε (List α × σ) Unit
  | [], s => .ok () ([], s)
  | x :: xs, s =>
    match f I x s with
    | .error e (x, s) => .error e (x :: xs, s)
    | .ok () (x, s) =>
      match forEachTuple f (I + 1) xs s with
      | .error e (xs, s) => .error e (x :: xs, s)
      | .ok () (xs, s) => .ok () (x :: xs, s)

/-- `accumulate_tuple`, from the element of index `I` on. The operator is applied
after the functor returned, so it cannot skip the call. -/
def accumulateTuple (op : β → β → β) (f : ℕ → α → σ → EStateM.Result ε (α × σ) β) (I : ℕ)
    (returnV : β) : List α → σ → EStateM.Result ε (List α × σ) β
  | [], s => .ok returnV ([], s)
  | x :: xs, s =>
    match f I x s with
    | .error e (x, s) => .error e (x :: xs, s)
    | .ok b (x, s) =>
      match accumulateTuple op f (I + 1) (op returnV b) xs s with
      | .error e (xs, s) => .error e (x :: xs, s)
      | .ok b (xs, s) => .ok b (x :: xs, s)

/-- `accumulate_tuple` of a functor that neither writes nor throws. -/
def accumulateConst (op : β → β → β) (f : ℕ → α → β) (I : ℕ) (returnV : β) : List α → β
  | [] => returnV
  | x :: xs => accumulateConst op f (I + 1) (op returnV (f I x)) xs

/-- A functor that does nothing at any element does nothing. -/
theorem forEachTuple_skip {f : ℕ → α → σ → EStateM.Result ε (α × σ) Unit} {xs : List α}
    (hskip : ∀ x ∈ xs, ∀ I s, f I x s = .ok () (x, s)) (I : ℕ) (s : σ) :
    forEachTuple f I xs s = .ok () (xs, s) := by
  induction xs generalizing I with
  | nil => rfl
  | cons x xs ih =>
    rw [forEachTuple, hskip x List.mem_cons_self]
    simp only [ih fun y hy => hskip y (List.mem_cons_of_mem x hy)]

/-- A functor that acts on one element only is called there only. -/
theorem forEachTuple_at {f : ℕ → α → σ → EStateM.Result ε (α × σ) Unit} {xs : List α} {i : ℕ}
    {x : α} (hx : xs[i]? = some x)
    (hskip : ∀ j y, j ≠ i → xs[j]? = some y → ∀ I s, f I y s = .ok () (y, s)) (I : ℕ) (s : σ) :
    forEachTuple f I xs s =
      match f (I + i) x s with
      | .error e (x, s) => .error e (xs.set i x, s)
      | .ok () (x, s) => .ok () (xs.set i x, s) := by
  induction xs generalizing i I with
  | nil => cases hx
  | cons y xs ih =>
    rw [forEachTuple]
    cases i with
    | zero =>
      -- the functor acts here, and does nothing at the elements that follow
      cases hx
      have htail : ∀ z ∈ xs, ∀ I s, f I z s = .ok () (z, s) := by
        intro z hz
        obtain ⟨j, hj⟩ := List.mem_iff_getElem?.mp hz
        exact hskip (j + 1) z (Nat.succ_ne_zero j) hj
      rw [Nat.add_zero]
      cases f I x s with
      | error e r => rfl
      | ok u r => simp only [forEachTuple_skip htail]; rfl
    | succ i =>
      -- nothing happens here; the index of the element shifts by one in the rest
      rw [hskip 0 y (Nat.succ_ne_zero i).symm rfl]
      simp only [ih hx fun j z hj hz => hskip (j + 1) z (fun h => hj (Nat.succ.inj h)) hz]
      rw [Nat.add_assoc, Nat.add_comm 1]
      cases f (I + (i + 1)) x s with
      | error e r => rfl
      | ok u r => rfl

/-- What the functor leaves alone in each element is the same in the whole tuple. -/
theorem accumulateTuple_map {γ : Type} {op : β → β → β}
    {f : ℕ → α → σ → EStateM.Result ε (α × σ) β} {g : α → γ}
    (hf : ∀ I x s b x' s', f I x s = .ok b (x', s') → g x' = g x) {I : ℕ} {xs xs' : List α}
    {b b' : β} {s s' : σ} (h : accumulateTuple op f I b xs s = .ok b' (xs', s')) :
    xs'.map g = xs.map g := by
  induction xs generalizing I b s xs' with
  | nil =>
    cases h
    rfl
  | cons x xs ih =>
    rw [accumulateTuple] at h
    cases hrun : f I x s with
    | error e r =>
      rw [hrun] at h
      cases h
    | ok c r =>
      obtain ⟨x', t⟩ := r
      rw [hrun] at h
      dsimp only at h
      cases hrest : accumulateTuple op f (I + 1) (op b c) xs t with
      | error e r =>
        rw [hrest] at h
        cases h
      | ok d r =>
        obtain ⟨ys, t'⟩ := r
        rw [hrest] at h
        cases h
        rw [List.map_cons, List.map_cons, hf I x s c x' t hrun, ih hrest]

end Brasa.Argparse
