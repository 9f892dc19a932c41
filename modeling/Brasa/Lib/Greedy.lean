import Mathlib.Algebra.BigOperators.Group.List.Basic
import Mathlib.Data.ENat.Basic

/-!
# Brasa.Lib.Greedy

Sharing out a list of items over a row of slots, **greedily from left to right**:
each slot takes as many of the waiting items as it has room for, the next slot
goes on with what is left. A slot of capacity `⊤` takes everything.

`split_flatten_append` says that nothing is lost, repeated or reordered,
`split_getElem?` where the slice of a slot lies, `served_iff` and
`leftover_eq_nil_iff` when the items suffice and when the slots do. Where they do not
suffice, `split_map_isEmpty` says which slots get nothing, and `reached_eq_length_iff`
when the slots that get something are as many as the items.
-/

namespace Brasa.Lib.Greedy

variable {α : Type*} {c d : ℕ∞} {cs : List ℕ∞} {l : List α} {n : ℕ}

/-- How many of `n` waiting items a slot of capacity `c` takes. -/
def room (c : ℕ∞) (n : ℕ) : ℕ := ENat.recTopCoe (C := fun _ => ℕ) n (fun k => min k n) c

@[simp] theorem room_top : room ⊤ n = n := rfl

@[simp] theorem room_natCast (k : ℕ) : room (k : ℕ∞) n = min k n := rfl

@[simp] theorem room_zero : room 0 n = 0 := Nat.zero_min n

@[simp] theorem room_self_zero (c : ℕ∞) : room c 0 = 0 := by
  induction c using ENat.recTopCoe with
  | top => rfl
  | coe k => exact Nat.min_zero k

theorem room_le (c : ℕ∞) (n : ℕ) : room c n ≤ n := by
  induction c using ENat.recTopCoe with
  | top => rw [room_top]
  | coe k => rw [room_natCast]; exact min_le_right k n

/-- Two slots in a row have room for as much as one slot of their joint capacity. -/
theorem room_add (c d : ℕ∞) (n : ℕ) : room c n + room d (n - room c n) = room (c + d) n := by
  induction c using ENat.recTopCoe with
  | top => simp
  | coe j =>
    induction d using ENat.recTopCoe with
    | top =>
      rw [add_top, room_top, room_top]
      have hle := room_le j n
      omega
    | coe k =>
      rw [← Nat.cast_add]
      simp only [room_natCast]
      omega

theorem room_add_one (c : ℕ∞) (n : ℕ) : room (c + 1) (n + 1) = room c n + 1 := by
  induction c using ENat.recTopCoe with
  | top => simp
  | coe k =>
    rw [← Nat.cast_one, ← Nat.cast_add]
    simp only [room_natCast]
    omega

theorem room_eq_iff : room c n = n ↔ (n : ℕ∞) ≤ c := by
  induction c using ENat.recTopCoe with
  | top => simp
  | coe k => simp [Nat.cast_le]

theorem room_of_lt {k : ℕ} (h : (k : ℕ∞) < n) : room k n = k := by
  rw [room_natCast, min_eq_left (Nat.cast_lt.mp h).le]

/-- The slices of the items, one for each slot. -/
def split : List ℕ∞ → List α → List (List α)
  | [], _ => []
  | c :: cs, l => l.take (room c l.length) :: split cs (l.drop (room c l.length))

/-- The items no slot has room for. -/
def leftover : List ℕ∞ → List α → List α
  | [], l => l
  | c :: cs, l => leftover cs (l.drop (room c l.length))

/-- Every slot finds an item waiting for it. -/
def Served : List ℕ∞ → List α → Prop
  | [], _ => True
  | c :: cs, l => l ≠ [] ∧ Served cs (l.drop (room c l.length))

@[simp] theorem split_length (cs : List ℕ∞) (l : List α) :
    (split cs l).length = cs.length := by
  induction cs generalizing l with
  | nil => rfl
  | cons c cs ih => rw [split, List.length_cons, List.length_cons, ih]

/-- The slices in order, and then the leftover, are the items in order. -/
theorem split_flatten_append (cs : List ℕ∞) (l : List α) :
    (split cs l).flatten ++ leftover cs l = l := by
  induction cs generalizing l with
  | nil => rfl
  | cons c cs ih =>
    rw [split, leftover, List.flatten_cons, List.append_assoc, ih, List.take_append_drop]

theorem drop_room_add (c d : ℕ∞) (l : List α) :
    (l.drop (room c l.length)).drop (room d (l.drop (room c l.length)).length)
      = l.drop (room (c + d) l.length) := by
  rw [List.drop_drop, List.length_drop, room_add]

theorem leftover_eq_drop (cs : List ℕ∞) (l : List α) :
    leftover cs l = l.drop (room cs.sum l.length) := by
  induction cs generalizing l with
  | nil => simp [leftover, room]
  | cons c cs ih => rw [leftover, ih, drop_room_add, List.sum_cons]

/-- Nothing is left over exactly when the slots have room for all items together. -/
theorem leftover_eq_nil_iff : leftover cs l = [] ↔ (l.length : ℕ∞) ≤ cs.sum := by
  rw [leftover_eq_drop, List.drop_eq_nil_iff, ← room_eq_iff]
  exact ⟨fun h => le_antisymm (room_le _ _) h, fun h => h.ge⟩

/-- The slice of a slot lies where the slots before it stop. -/
theorem split_getElem? {i : ℕ} (h : i < cs.length) :
    (split cs l)[i]? = some ((l.drop (room (cs.take i).sum l.length)).take
      (room cs[i] (l.length - room (cs.take i).sum l.length))) := by
  induction cs generalizing l i with
  | nil => cases h
  | cons c cs ih =>
    cases i with
    | zero => simp [split, room]
    | succ i =>
      have h' : i < cs.length := Nat.lt_of_succ_lt_succ h
      simp only [split, List.getElem?_cons_succ, List.getElem_cons_succ, List.take_succ_cons,
        List.sum_cons]
      rw [ih h', drop_room_add, List.length_drop, Nat.sub_sub, room_add]

theorem lt_sub_room_iff (c d : ℕ∞) (n : ℕ) : d < (n - room c n : ℕ) ↔ c + d < n := by
  induction c using ENat.recTopCoe with
  | top => simp
  | coe j =>
    induction d using ENat.recTopCoe with
    | top => simp
    | coe k =>
      rw [← Nat.cast_add, Nat.cast_lt, Nat.cast_lt, room_natCast]
      omega

/-- Every slot is served exactly when the slots before the last one leave
something. -/
theorem served_iff : Served cs l ↔ cs = [] ∨ cs.dropLast.sum < l.length := by
  induction cs generalizing l with
  | nil => simp [Served]
  | cons c cs ih =>
    rw [Served, ih]
    cases cs with
    | nil => simp [List.length_pos_iff]
    | cons d cs =>
      rw [List.length_drop, lt_sub_room_iff]
      simp only [List.dropLast_cons_cons, List.sum_cons, reduceCtorEq, false_or,
        and_iff_right_iff_imp]
      rintro hlt rfl
      exact absurd hlt (by simp)

theorem sum_take_le_dropLast {i : ℕ} (h : i < cs.length) :
    (cs.take i).sum ≤ cs.dropLast.sum := by
  have htake : cs.dropLast.take i = cs.take i := by
    rw [List.dropLast_eq_take, List.take_take, min_eq_left (by omega)]
  rw [← htake, ← List.sum_take_add_sum_drop cs.dropLast i]
  exact le_self_add

/-- Where every slot is served and nothing is left over, the slice of a slot starts
where the capacities of the earlier slots end; it fills the slot, or is the rest for
the last slot. -/
theorem split_exact (hlt : cs.dropLast.sum < l.length) (hle : (l.length : ℕ∞) ≤ cs.sum) {i : ℕ}
    {slice : List α} (h : (split cs l)[i]? = some slice) :
    ∃ offset : ℕ, (offset : ℕ∞) = (cs.take i).sum ∧
      (i + 1 < cs.length →
        slice = (l.drop offset).take slice.length ∧ cs[i]? = some (slice.length : ℕ∞)) ∧
      (i + 1 = cs.length → slice = l.drop offset) := by
  have hi : i < cs.length := by
    rw [← split_length cs l]
    exact (List.getElem?_eq_some_iff.mp h).1
  have hoffset : (cs.take i).sum < l.length := (sum_take_le_dropLast hi).trans_lt hlt
  obtain ⟨offset, hsum⟩ := ENat.ne_top_iff_exists.mp (ne_top_of_lt hoffset)
  have hnext : (cs.take (i + 1)).sum = offset + cs[i] := by
    rw [List.take_add_one, List.sum_append, List.getElem?_eq_getElem hi, hsum]
    simp
  have hroom : room (cs.take i).sum l.length = offset := by
    rw [← hsum] at hoffset ⊢
    exact room_of_lt hoffset
  rw [split_getElem? hi, hroom, Option.some.injEq] at h
  rw [← hsum, Nat.cast_lt] at hoffset
  refine ⟨offset, hsum, fun hlast => ?_, fun hlast => ?_⟩
  · -- a slot before the last is filled: its end still lies below the last slot
    have hend : (offset : ℕ∞) + cs[i] < l.length :=
      hnext ▸ (sum_take_le_dropLast hlast).trans_lt hlt
    obtain ⟨c, hc⟩ := ENat.ne_top_iff_exists.mp (ne_top_of_lt (lt_of_le_of_lt le_add_self hend))
    rw [← hc, ← Nat.cast_add, Nat.cast_lt] at hend
    rw [← hc, room_natCast, min_eq_left (by omega)] at h
    have hlength : slice.length = c := by
      rw [← h, List.length_take, List.length_drop]
      omega
    rw [hlength, List.getElem?_eq_getElem hi, hc]
    exact ⟨h.symm, rfl⟩
  · have hall : room cs[i] (l.length - offset) = l.length - offset := by
      rw [hlast, List.take_length] at hnext
      rw [room_eq_iff, ENat.natCast_sub]
      exact tsub_le_iff_left.mpr (hnext ▸ hle)
    rw [← h, hall, ← List.length_drop, List.take_length]

/-! ### Where the items do not suffice -/

/-- How many slots find an item waiting for them. -/
def reached : List ℕ∞ → List α → ℕ
  | [], _ => 0
  | _ :: _, [] => 0
  | c :: cs, a :: l => reached cs ((a :: l).drop (room c (l.length + 1))) + 1

@[simp] theorem reached_nil (cs : List ℕ∞) : reached cs ([] : List α) = 0 := by
  cases cs <;> rfl

theorem reached_cons {a : α} : reached (c :: cs) (a :: l)
    = reached cs ((a :: l).drop (room c (a :: l).length)) + 1 := rfl

theorem not_served_cons {a : α} : ¬Served (c :: cs) (a :: l) ↔
    ¬Served cs ((a :: l).drop (room c (a :: l).length)) := by
  simp [Served]

theorem leftover_nil (cs : List ℕ∞) : leftover cs ([] : List α) = [] := by
  rw [leftover_eq_drop, List.drop_nil]

/-- An item is left over only behind slots that are all served. -/
theorem leftover_of_not_served (h : ¬Served cs l) : leftover cs l = [] := by
  induction cs generalizing l with
  | nil => exact absurd trivial h
  | cons c cs ih =>
    cases l with
    | nil => exact leftover_nil _
    | cons a l => exact ih (not_served_cons.mp h)

theorem reached_lt_length (h : ¬Served cs l) : reached cs l < cs.length := by
  induction cs generalizing l with
  | nil => exact absurd trivial h
  | cons c cs ih =>
    cases l with
    | nil => exact Nat.succ_pos _
    | cons a l => exact Nat.succ_lt_succ (ih (not_served_cons.mp h))

theorem le_room {k : ℕ} (hc : (k : ℕ∞) ≤ c) (hn : k ≤ n) : k ≤ room c n := by
  induction c using ENat.recTopCoe with
  | top => exact hn
  | coe j => exact le_min (Nat.cast_le.mp hc) hn

/-- A slot that has room and finds items takes at least one of them. -/
theorem length_drop_room {k : ℕ} (hc : (k : ℕ∞) ≤ c) (hl : k ≤ l.length) :
    (l.drop (room c l.length)).length + k ≤ l.length := by
  have hroom := le_room hc hl
  have hle := room_le c l.length
  rw [List.length_drop]
  omega

theorem reached_le_length (hpos : ∀ c ∈ cs, 1 ≤ c) : reached cs l ≤ l.length := by
  induction cs generalizing l with
  | nil => exact Nat.zero_le _
  | cons c cs ih =>
    obtain ⟨hc, hcs⟩ := List.forall_mem_cons.mp hpos
    cases l with
    | nil => exact Nat.zero_le _
    | cons a l =>
      have htake := length_drop_room (k := 1) (l := a :: l) (by simpa using hc) (by simp)
      have hrest := ih hcs (l := (a :: l).drop (room c (a :: l).length))
      rw [reached_cons]
      omega

/-- The slots that get nothing are those behind the ones that are reached. -/
theorem split_map_isEmpty (hpos : ∀ c ∈ cs, 1 ≤ c) :
    (split cs l).map List.isEmpty
      = List.replicate (reached cs l) false ++ List.replicate (cs.length - reached cs l) true := by
  induction cs generalizing l with
  | nil => rfl
  | cons c cs ih =>
    obtain ⟨hc, hcs⟩ := List.forall_mem_cons.mp hpos
    rw [split, List.map_cons, ih hcs]
    cases l with
    | nil => simp [List.replicate_succ]
    | cons a l =>
      have hroom : 1 ≤ room c (a :: l).length := le_room (by simpa using hc) (by simp)
      have hslice : ((a :: l).take (room c (a :: l).length)).isEmpty = false := by
        rw [← Nat.sub_add_cancel hroom]
        rfl
      rw [hslice, reached_cons, List.replicate_succ, List.length_cons (a := c),
        Nat.add_sub_add_right]
      rfl

/-- As many slots are reached as there are items exactly when each slot before the one
that gets the last item takes one item only. -/
theorem reached_eq_length_iff (hpos : ∀ c ∈ cs, 1 ≤ c) (h : ¬Served cs l) :
    reached cs l = l.length ↔ ∀ c ∈ cs.take (l.length - 1), c = 1 := by
  induction cs generalizing l with
  | nil => exact absurd trivial h
  | cons c cs ih =>
    obtain ⟨hc, hcs⟩ := List.forall_mem_cons.mp hpos
    cases l with
    | nil => simp
    | cons a l =>
      have hrest := ih hcs (not_served_cons.mp h)
      rw [reached_cons]
      cases l with
      | nil =>
        -- the slot takes the one item there is
        have hroom : room c 1 = 1 := le_antisymm (room_le c 1) (le_room (by simpa using hc) le_rfl)
        simp [hroom]
      | cons b l =>
        have htail : (a :: b :: l).length - 1 = l.length + 1 := rfl
        rw [htail, List.take_succ_cons, List.forall_mem_cons]
        by_cases hone : c = 1
        · -- the slot takes one item, and the rest decides
          have hroom : room c (a :: b :: l).length = 1 := by
            rw [hone, ← Nat.cast_one, room_natCast]
            simp
          rw [hroom, List.drop_succ_cons, List.drop_zero] at hrest ⊢
          rw [List.length_cons (a := a), Nat.add_right_cancel_iff, hrest, and_iff_right hone]
          rfl
        · -- the slot takes two items or more, so that too few are left for the rest
          have htwo : (2 : ℕ∞) ≤ c := by
            rw [← one_add_one_eq_two]
            exact Order.add_one_le_of_lt (lt_of_le_of_ne hc (Ne.symm hone))
          have htake := length_drop_room (k := 2) (l := a :: b :: l) htwo (by simp)
          have hle := reached_le_length hcs (l := (a :: b :: l).drop (room c (a :: b :: l).length))
          refine iff_of_false ?_ fun h => hone h.1
          simp only [List.length_cons] at htake hle ⊢
          omega

/-! ### Items that come later

The slots keep what they have taken. `d` is the room that a slot of capacity `c` has left
after `n` items have waited for it. -/

theorem natCast_room_le (c : ℕ∞) (n : ℕ) : (room c n : ℕ∞) ≤ c := by
  induction c using ENat.recTopCoe with
  | top => exact le_top
  | coe k => exact Nat.cast_le.mpr (Nat.min_le_left k n)

theorem room_of_lt_length (h : room c n < n) : c = room c n := by
  induction c using ENat.recTopCoe with
  | top => exact absurd h (lt_irrefl n)
  | coe k =>
    rw [room_natCast] at h ⊢
    rw [min_eq_left (by omega)]

/-- A slot that some item has found full has no room left. -/
theorem eq_zero_of_room_lt (hd : c = d + room c n) (h : room c n < n) : d = 0 := by
  have hc := room_of_lt_length h
  induction d using ENat.recTopCoe with
  | top =>
    rw [top_add] at hd
    exact absurd (hc.symm.trans hd) (ENat.natCast_ne_top _)
  | coe j =>
    rw [← Nat.cast_add] at hd
    have hj := Nat.cast_inj.mp (hc.symm.trans hd)
    rw [show j = 0 by omega, Nat.cast_zero]

/-- Items that come later are taken as if all had waited from the beginning. -/
theorem room_append (hd : c = d + room c n) (k : ℕ) : room c (n + k) = room c n + room d k := by
  induction c using ENat.recTopCoe with
  | top =>
    induction d using ENat.recTopCoe with
    | top => simp
    | coe j => exact absurd hd.symm (by simp)
  | coe i =>
    induction d using ENat.recTopCoe with
    | top => exact absurd hd (by simp)
    | coe j =>
      rw [room_natCast, ← Nat.cast_add, Nat.cast_inj] at hd
      simp only [room_natCast]
      omega

variable {m : List α}

theorem take_room_append (hd : c = d + room c l.length) :
    (l ++ m).take (room c (l ++ m).length)
      = l.take (room c l.length) ++ m.take (room d m.length) := by
  rw [List.length_append, room_append hd]
  rcases (room_le c l.length).lt_or_eq with hlt | heq
  · rw [eq_zero_of_room_lt hd hlt, room_zero, Nat.add_zero, List.take_zero, List.append_nil,
      List.take_append_of_le_length hlt.le]
  · rw [heq, List.take_length_add_append, List.take_length]

theorem drop_room_append (hd : c = d + room c l.length) :
    (l ++ m).drop (room c (l ++ m).length)
      = l.drop (room c l.length) ++ m.drop (room d m.length) := by
  rw [List.length_append, room_append hd]
  rcases (room_le c l.length).lt_or_eq with hlt | heq
  · rw [eq_zero_of_room_lt hd hlt, room_zero, Nat.add_zero, List.drop_zero,
      List.drop_append_of_le_length hlt.le]
  · rw [heq, List.drop_length_add_append, List.drop_length, List.nil_append]

/-- The later items serve the slots if they reach the first one, and all items serve all
of them. -/
theorem served_append_cons (hd : c = d + room c l.length) :
    (m ≠ [] ∧ (cs = [] ∨ m.drop (room d m.length) ≠ [] ∧
        Served cs (l.drop (room c l.length) ++ m.drop (room d m.length)))) ↔
      m ≠ [] ∧ Served (c :: cs) (l ++ m) := by
  rw [Served, drop_room_append hd]
  refine and_congr_right fun hm => ?_
  rw [and_iff_right (List.append_ne_nil_of_right_ne_nil l hm)]
  cases cs with
  | nil => simp [Served]
  | cons c' cs =>
    rw [or_iff_right (List.cons_ne_nil c' cs)]
    refine ⟨And.right, fun hserved => ⟨fun hnil => ?_, hserved⟩⟩
    -- without later items for the second slot, an earlier one has found the first one full
    rw [hnil, List.append_nil] at hserved
    have hlt : room c l.length < l.length := by
      by_contra hle
      exact hserved.1 (List.drop_eq_nil_of_le (not_lt.mp hle))
    rw [eq_zero_of_room_lt hd hlt, room_zero, List.drop_zero] at hnil
    exact hm hnil

/-- Once something is left over, everything that comes later is. -/
theorem leftover_append (h : leftover cs l ≠ []) : leftover cs (l ++ m) = leftover cs l ++ m := by
  induction cs generalizing l with
  | nil => rfl
  | cons c cs ih =>
    rw [leftover] at h ⊢
    have hlt : room c l.length < l.length := by
      by_contra hle
      rw [List.drop_eq_nil_of_le (not_lt.mp hle), leftover_nil] at h
      exact h rfl
    rw [drop_room_append (show c = 0 + _ by rw [zero_add]; exact room_of_lt_length hlt), room_zero,
      List.drop_zero, ih h, leftover]

end Brasa.Lib.Greedy
