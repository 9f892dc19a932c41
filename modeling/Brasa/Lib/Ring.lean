import Mathlib.Algebra.GroupWithZero.Nat
import Mathlib.Data.List.Intervals
import Mathlib.Data.Fin.Basic
import Mathlib.Logic.Function.Basic

/-!
# Brasa.Lib.Ring

Ring memories: `n` slots, addressed by *positions* `p : ℕ` through `p % n`.

Two views of such a memory are developed:

* `window` — the cells at consecutive positions, and `unread`, the window of at
  most `n` positions that a drop-oldest queue exposes between a read and a write
  position;
* `Filled` — the memory after the values of a stream have been stored one after
  the other, position `p` holding the newest stored value of its residue class.
-/

namespace Brasa.Lib.Ring

variable {α : Type*} {n : ℕ} [NeZero n]

/-- The slot of position `p`. -/
def slot (n : ℕ) [NeZero n] (p : ℕ) : Fin n := Fin.ofNat n p

/-- The content of the slot of position `p`. -/
def cell (slots : Fin n → α) (p : ℕ) : α := slots (slot n p)

@[simp] theorem slot_val (p : ℕ) : (slot n p).val = p % n := rfl

theorem slot_eq_iff {p q : ℕ} : slot n p = slot n q ↔ p % n = q % n := by
  rw [Fin.ext_iff]
  rfl

/-- Positions less than one revolution apart occupy different slots. -/
theorem slot_ne {p q : ℕ} (hpq : p < q) (hqp : q < p + n) : slot n p ≠ slot n q := by
  rw [Ne, slot_eq_iff]
  intro heq
  have hdvd : n ∣ q - p := Nat.dvd_of_mod_eq_zero (Nat.sub_mod_eq_zero_of_mod_eq heq.symm)
  have hle : n ≤ q - p := Nat.le_of_dvd (by omega) hdvd
  omega

theorem cell_congr (slots : Fin n → α) {p q : ℕ} (h : p % n = q % n) :
    cell slots p = cell slots q := by
  rw [cell, cell, slot_eq_iff.mpr h]

@[simp] theorem cell_update_self (slots : Fin n → α) (p : ℕ) (v : α) :
    cell (Function.update slots (slot n p) v) p = v := by
  simp [cell]

theorem cell_update_ne (slots : Fin n → α) {p q : ℕ} (v : α)
    (hpq : p < q) (hqp : q < p + n) :
    cell (Function.update slots (slot n q) v) p = cell slots p := by
  rw [cell, Function.update_of_ne (slot_ne hpq hqp)]
  rfl

/-! ### Windows -/

/-- The cells at the positions `lo, …, hi - 1`. -/
def window (slots : Fin n → α) (lo hi : ℕ) : List α := (List.Ico lo hi).map (cell slots)

@[simp] theorem window_length (slots : Fin n → α) (lo hi : ℕ) :
    (window slots lo hi).length = hi - lo := by
  simp [window]

theorem window_eq_nil {slots : Fin n → α} {lo hi : ℕ} :
    window slots lo hi = [] ↔ hi ≤ lo := by
  simp [window]

theorem window_cons (slots : Fin n → α) {lo hi : ℕ} (h : lo < hi) :
    window slots lo hi = cell slots lo :: window slots (lo + 1) hi := by
  rw [window, List.Ico.eq_cons h, List.map_cons, window]

theorem window_succ (slots : Fin n → α) {lo hi : ℕ} (h : lo ≤ hi) :
    window slots lo (hi + 1) = window slots lo hi ++ [cell slots hi] := by
  rw [window, List.Ico.succ_top h, List.map_append, window, List.map_singleton]

/-- Storing at the position just past a window shorter than a revolution
appends to the window. -/
theorem window_store (slots : Fin n → α) (v : α) {lo hi : ℕ} (h : lo ≤ hi)
    (hn : hi < lo + n) :
    window (Function.update slots (slot n hi) v) lo (hi + 1) = window slots lo hi ++ [v] := by
  rw [window_succ _ h, cell_update_self]
  congr 1
  refine List.map_congr_left fun p hp => ?_
  rw [List.Ico.mem] at hp
  exact cell_update_ne slots v hp.2 (by omega)

/-- The cells a drop-oldest reader at `r` has yet to see when the writer is at
`w`: at most the last `n` written ones. -/
def unread (slots : Fin n → α) (r w : ℕ) : List α := window slots (max r (w - n)) w

theorem unread_length_le (slots : Fin n → α) (r w : ℕ) : (unread slots r w).length ≤ n := by
  rw [unread, window_length]
  omega

theorem unread_eq_nil {slots : Fin n → α} {r w : ℕ} (h : r ≤ w) :
    unread slots r w = [] ↔ r = w := by
  have hn : 0 < n := Nat.pos_of_ne_zero (NeZero.ne n)
  rw [unread, window_eq_nil]
  omega

theorem unread_cons (slots : Fin n → α) {r w : ℕ} (h : r < w) :
    unread slots r w =
      cell slots (max r (w - n)) :: unread slots (max r (w - n) + 1) w := by
  have hn : 0 < n := Nat.pos_of_ne_zero (NeZero.ne n)
  rw [unread, window_cons slots (by omega), unread]
  congr 2
  omega

/-- Storing at the write position appends, and drops the oldest unread cell
exactly when `n` of them were unread. -/
theorem unread_store (slots : Fin n → α) (v : α) {r w : ℕ} (h : r ≤ w) :
    unread (Function.update slots (slot n w) v) r (w + 1) =
      if (unread slots r w).length < n then unread slots r w ++ [v]
      else (unread slots r w ++ [v]).tail := by
  have hn : 0 < n := Nat.pos_of_ne_zero (NeZero.ne n)
  have hlen : (unread slots r w).length = w - max r (w - n) := window_length ..
  split
  · next hlt =>
    have hlo : max r (w + 1 - n) = max r (w - n) := by omega
    rw [unread, hlo, unread, window_store slots v (by omega) (by omega)]
  · next hge =>
    have hlo : max r (w - n) = w - n := by omega
    have hlo' : max r (w + 1 - n) = w - n + 1 := by omega
    rw [unread, hlo', window_store slots v (by omega) (by omega), unread, hlo,
      window_cons slots (by omega : w - n < w)]
    rfl

theorem unread_length (slots : Fin n → α) (r w : ℕ) :
    (unread slots r w).length = min (w - r) n := by
  rw [unread, window_length]
  omega

/-- Cells repeat after a revolution. -/
theorem window_add_size (slots : Fin n → α) (lo hi : ℕ) :
    window slots (lo + n) (hi + n) = window slots lo hi := by
  rw [window, window, ← List.Ico.map_add, List.map_map]
  exact List.map_congr_left fun p _ => cell_congr slots (by simp)

/-- Storing at the write position without counting the store goes unnoticed while
fewer than `n` cells are unread. -/
theorem unread_overwrite_of_lt (slots : Fin n → α) (v : α) {r w : ℕ} (h : w < r + n) :
    unread (Function.update slots (slot n w) v) r w = unread slots r w := by
  refine List.map_congr_left fun p hp => ?_
  rw [List.Ico.mem] at hp
  exact cell_update_ne slots v hp.2 (by omega)

/-- When `n` cells are unread, it replaces the oldest one. -/
theorem unread_overwrite_of_le (slots : Fin n → α) (v : α) {r w : ℕ} (h : r + n ≤ w) :
    unread (Function.update slots (slot n w) v) r w = v :: (unread slots r w).tail := by
  have hn : 0 < n := Nat.pos_of_ne_zero (NeZero.ne n)
  have hlo : max r (w - n) = w - n := by omega
  have hmod : (w - n) % n = w % n := by
    rw [← Nat.sub_add_cancel (Nat.le_of_add_left_le h : n ≤ w), Nat.add_sub_cancel,
      Nat.add_mod_right]
  have hlt : w - n < w := by omega
  rw [unread, unread, hlo, window_cons _ hlt, window_cons slots hlt, List.tail_cons,
    cell_congr _ hmod, cell_update_self]
  congr 1
  refine List.map_congr_left fun p hp => ?_
  rw [List.Ico.mem] at hp
  exact cell_update_ne slots v hp.2 (by omega)

/-! ### Memories filled from a stream -/

/-- After `m` stores of the stream `f`, each at its own position, the last `n`
stored values are in their slots. -/
def Filled (f : ℕ → α) (m : ℕ) (slots : Fin n → α) : Prop :=
  ∀ p, p < m → m ≤ p + n → cell slots p = f p

theorem filled_zero (f : ℕ → α) (slots : Fin n → α) : Filled f 0 slots := by
  intro p hp
  omega

theorem Filled.store {f : ℕ → α} {m : ℕ} {slots : Fin n → α} (h : Filled f m slots) :
    Filled f (m + 1) (Function.update slots (slot n m) (f m)) := by
  intro p hp hmp
  rcases Nat.lt_succ_iff_lt_or_eq.mp hp with hlt | rfl
  · rw [cell_update_ne slots (f m) hlt (by omega)]
    exact h p hlt (by omega)
  · exact cell_update_self slots p (f p)

/-- What is read at a position that has been stored: the value of the newest
stored position of its residue class, which is the position itself unless the
slot has since been stored again. -/
theorem Filled.cell_eq {f : ℕ → α} {m : ℕ} {slots : Fin n → α} (h : Filled f m slots)
    {p : ℕ} (hp : p < m) :
    ∃ q, p ≤ q ∧ q < m ∧ q % n = p % n ∧ cell slots p = f q ∧ (q = p ∨ p + n < m) := by
  have hn : 0 < n := Nat.pos_of_ne_zero (NeZero.ne n)
  -- the newest stored position congruent to `p`
  obtain ⟨k, hk⟩ : ∃ k, k = (m - 1 - p) / n := ⟨_, rfl⟩
  have hlo : n * k ≤ m - 1 - p := hk ▸ Nat.mul_div_le _ n
  have hhi : m - 1 - p < n * k + n := by
    have := Nat.lt_mul_div_succ (m - 1 - p) hn
    rw [← hk, Nat.mul_succ] at this
    exact this
  have hmod : (p + n * k) % n = p % n := Nat.add_mul_mod_self_left p n k
  refine ⟨p + n * k, by omega, by omega, hmod, ?_, ?_⟩
  · rw [← cell_congr slots hmod]
    exact h _ (by omega) (by omega)
  · rcases Nat.eq_zero_or_pos k with rfl | hpos
    · exact Or.inl (by simp)
    · have : n ≤ n * k := Nat.le_mul_of_pos_right n hpos
      exact Or.inr (by omega)

/-- A stored position still shows its own value, of a stream without repetitions, until
its slot is stored again. -/
theorem Filled.cell_eq_self_iff {f : ℕ → α} {m : ℕ} {slots : Fin n → α} (h : Filled f m slots)
    (hf : Function.Injective f) {p : ℕ} (hp : p < m) : cell slots p = f p ↔ m ≤ p + n := by
  refine ⟨fun heq => ?_, h p hp⟩
  by_contra hlt
  have hn : 0 < n := Nat.pos_of_ne_zero (NeZero.ne n)
  obtain ⟨q, hq, -, -, hcell, -⟩ := h.cell_eq (Nat.lt_of_not_le hlt)
  rw [cell_congr slots (Nat.add_mod_right p n), heq] at hcell
  have hpq := hf hcell
  omega

end Brasa.Lib.Ring
