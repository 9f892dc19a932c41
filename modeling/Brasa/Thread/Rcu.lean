import Mathlib.Data.List.Basic
import Mathlib.Data.Int.ModEq
import Brasa.Lib.KeyedList

/-!
# Brasa.Thread.Rcu

The versioned value of `Rcu.h`: a linked list of reference-counted nodes, the
current node, and the lock of the writers.

A node is known by its address, which the allocator chooses among those not in
use. Following a pointer to no node of the list has no result (`none`), as has
`nodes_.back()` of an empty list. The reference counter is an `int`, whose atomic
additions wrap: it shows the number of readers modulo `2^32`, as a negative number from
`2^31` readers on, and as `0` for a positive multiple of `2^32`.

`Accounted` is the invariant that every development over this class shares: each
counter shows the number of readers accounted for, and pointers lead to nodes.
-/

namespace Brasa.Thread

open Brasa.Lib

variable {Addr T : Type*}

/-- `Rcu::Node`. -/
structure Node (Addr T : Type*) where
  addr : Addr
  refcount : Int32
  value : T
  deriving DecidableEq, Repr

/-- `Rcu`: `locked` is the state of `nodes_mutex_`. The sections that `current_mutex_`
protects are single steps. -/
structure Rcu (Addr T : Type*) where
  nodes : List (Node Addr T)
  current : Addr
  locked : Bool
  deriving DecidableEq, Repr

namespace Rcu

/-- `Rcu::Rcu`, the node being allocated at `addr`. -/
def create (addr : Addr) (t : T) : Rcu Addr T :=
  { nodes := [{ addr, refcount := 0, value := t }], current := addr, locked := false }

/-- `Rcu::size`. -/
def size (s : Rcu Addr T) : ℕ := s.nodes.length

/-- The addresses in use. -/
def addrs (s : Rcu Addr T) : List Addr := s.nodes.map Node.addr

theorem size_eq (s : Rcu Addr T) : s.size = s.addrs.length := by
  rw [size, addrs, List.length_map]

/-- The loop of `Rcu::update`: erase the nodes without readers, except the last. -/
def cleanup : List (Node Addr T) → List (Node Addr T)
  | [] => []
  | [last] => [last]
  | n :: m :: ns => if n.refcount = 0 then cleanup (m :: ns) else n :: cleanup (m :: ns)

/-- `Rcu::update`. -/
def update (s : Rcu Addr T) : Option (Rcu Addr T) :=
  s.nodes.getLast?.map fun back =>
    { nodes := cleanup s.nodes, current := back.addr, locked := false }

section Pointers

variable [DecidableEq Addr]

/-- What a pointer to the value of a node leads to. -/
def deref (s : Rcu Addr T) (t : Addr) : Option T :=
  (KeyedList.lookup Node.addr t s.nodes).map Node.value

/-- `Rcu::read`: the pointer for the new reader. -/
def read (s : Rcu Addr T) : Option (Addr × Rcu Addr T) :=
  (KeyedList.modify Node.addr s.current (fun n => { n with refcount := n.refcount + 1 })
    s.nodes).map fun nodes => (s.current, { s with nodes })

/-- `Rcu::release`. -/
def release (s : Rcu Addr T) (t : Addr) : Rcu Addr T :=
  match KeyedList.modify Node.addr t (fun n => { n with refcount := n.refcount - 1 }) s.nodes with
  | some nodes => { s with nodes }
  | none => s

/-- `Rcu::write`: the pointer for the new writer. The copy of the last value throws
(`none`) or is allocated at an address. Not possible while `nodes_mutex_` is held. -/
def write (s : Rcu Addr T) (alloc : Option Addr) : Option (Option Addr × Rcu Addr T) :=
  if s.locked then none
  else
    let s := { s with locked := true }
    match s.nodes.getLast?, alloc with
    | none, _ => none
    | some _, none => some (none, { s with locked := false })
    | some back, some addr =>
      if addr ∈ s.addrs then none
      else
        some (addr, { s with nodes := s.nodes ++ [{ addr, refcount := 0, value := back.value }] })

/-- A change of the value that a writer points to. -/
def mutate (s : Rcu Addr T) (t : Addr) (f : T → T) : Option (Rcu Addr T) :=
  (KeyedList.modify Node.addr t (fun n => { n with value := f n.value }) s.nodes).map
    fun nodes => { s with nodes }

end Pointers

/-! ### The counters -/

theorem ofNat_eq_zero_iff (k : ℕ) : Int32.ofNat k = 0 ↔ 2 ^ 32 ∣ k := by
  rw [← Int32.ofInt_eq_ofNat, Int32.ofInt_eq_iff_bmod_eq_toInt, Int32.toInt_zero,
    ← Int.dvd_iff_bmod_eq_zero]
  exact_mod_cast Iff.rfl

theorem toInt_ofNat_iff (k : ℕ) : (Int32.ofNat k).toInt = k ↔ k < 2 ^ 31 := by
  rw [← Int32.ofInt_eq_ofNat]
  constructor
  · intro h
    have hlt := (Int32.ofInt k).toInt_lt
    rw [h] at hlt
    exact_mod_cast hlt
  · intro hlt
    exact Int32.toInt_ofInt_of_le (by omega) (by exact_mod_cast hlt)

/-- A counter that shows `0` is right if the number of readers is not a positive multiple
of `2^32`. -/
theorem eq_zero_of_ofNat {k : ℕ} (hk : 2 ^ 32 ∣ k → k = 0) (hzero : Int32.ofNat k = 0) : k = 0 :=
  hk ((ofNat_eq_zero_iff k).mp hzero)

/-! ### Accounting -/

/-- The state when `held a` readers of the node at `a` are accounted for. -/
structure Accounted (s : Rcu Addr T) (held : Addr → ℕ) : Prop where
  nodup : s.addrs.Nodup
  refcount : ∀ n ∈ s.nodes, n.refcount = Int32.ofNat (held n.addr)
  mem : ∀ a, held a ≠ 0 → a ∈ s.addrs
  current : s.current ∈ s.addrs

variable {s : Rcu Addr T} {held : Addr → ℕ} {t : Addr}

theorem accounted_create (addr : Addr) (v : T) : (create addr v).Accounted fun _ => 0 :=
  { nodup := List.nodup_singleton addr
    refcount := by simp [create]
    mem := fun _ h => absurd rfl h
    current := by simp [create, addrs] }

theorem Accounted.setCurrent (h : s.Accounted held) (ht : t ∈ s.addrs) :
    { s with current := t }.Accounted held :=
  { nodup := h.nodup, refcount := h.refcount, mem := h.mem, current := ht }

theorem Accounted.setLocked (h : s.Accounted held) (locked : Bool) :
    { s with locked }.Accounted held :=
  { nodup := h.nodup, refcount := h.refcount, mem := h.mem, current := h.current }

theorem Accounted.exists_last (h : s.Accounted held) :
    ∃ older last, s.nodes = older ++ [last] := by
  rcases List.eq_nil_or_concat s.nodes with hnil | ⟨older, last, hlast⟩
  · have hcurrent := h.current
    rw [addrs, hnil] at hcurrent
    exact absurd hcurrent List.not_mem_nil
  · exact ⟨older, last, hlast.trans List.concat_eq_append⟩

/-- Erasing nodes that nobody reads, other than the current one. -/
theorem Accounted.filter (h : s.Accounted held) {p : Node Addr T → Bool}
    (hheld : ∀ n ∈ s.nodes, held n.addr ≠ 0 → p n = true)
    (hcurrent : ∀ n ∈ s.nodes, n.addr = s.current → p n = true) :
    { s with nodes := s.nodes.filter p }.Accounted held := by
  have hkept : ∀ a ∈ s.addrs, (∀ n ∈ s.nodes, n.addr = a → p n = true) →
      a ∈ (s.nodes.filter p).map Node.addr := by
    intro a ha hp
    obtain ⟨n, hn, rfl⟩ := List.mem_map.mp ha
    exact List.mem_map_of_mem (List.mem_filter.mpr ⟨hn, hp n hn rfl⟩)
  exact
    { nodup := h.nodup.sublist (List.filter_sublist.map _)
      refcount := fun n hn => h.refcount n (List.mem_filter.mp hn).1
      mem := fun a ha => hkept a (h.mem a ha) fun n hn heq => hheld n hn (heq ▸ ha)
      current := hkept _ h.current hcurrent }

/-- The loop of `update` is a filter. -/
theorem cleanup_concat (older : List (Node Addr T)) (last : Node Addr T) :
    cleanup (older ++ [last]) = older.filter (fun n => n.refcount ≠ 0) ++ [last] := by
  induction older with
  | nil => rfl
  | cons n older ih =>
    obtain ⟨m, ns, hns⟩ : ∃ m ns, older ++ [last] = m :: ns :=
      List.exists_cons_of_ne_nil (by simp)
    rw [List.cons_append, hns, cleanup, ← hns, ih, List.filter_cons]
    by_cases hn : n.refcount = 0
    · simp [hn]
    · simp [hn]

theorem update_eq {older : List (Node Addr T)} {last : Node Addr T}
    (hnodes : s.nodes = older ++ [last]) :
    s.update = some
      { nodes := older.filter (fun n => n.refcount ≠ 0) ++ [last]
        current := last.addr
        locked := false } := by
  rw [update, hnodes, cleanup_concat]
  simp

/-- Add a node for a writer that holds the lock. -/
def append (s : Rcu Addr T) (addr : Addr) (value : T) : Rcu Addr T :=
  { s with nodes := s.nodes ++ [{ addr, refcount := 0, value }], locked := true }

theorem addrs_append (addr : Addr) (v : T) : (s.append addr v).addrs = s.addrs ++ [addr] := by
  simp [addrs, append]

theorem Accounted.append (h : s.Accounted held) {addr : Addr} (haddr : addr ∉ s.addrs) (v : T) :
    (s.append addr v).Accounted held :=
  { nodup := by
      rw [addrs_append, List.nodup_append]
      refine ⟨h.nodup, List.nodup_singleton addr, fun a ha b hb heq => ?_⟩
      rw [List.mem_singleton.mp hb] at heq
      exact haddr (heq ▸ ha)
    refcount := by
      intro n hn
      rcases List.mem_append.mp hn with hn | hn
      · exact h.refcount n hn
      · have hzero : held addr = 0 := by
          by_contra hne
          exact haddr (h.mem addr hne)
        rw [List.mem_singleton.mp hn]
        exact congrArg Int32.ofNat hzero.symm
    mem := by
      intro a ha
      rw [addrs_append]
      exact List.mem_append_left _ (h.mem a ha)
    current := by
      rw [addrs_append]
      exact List.mem_append_left _ h.current }

section Pointers

variable [DecidableEq Addr]

/-! ### The operations on accounted states -/

/-- Add `d` to the counter of the node at `t`. -/
def adjust (s : Rcu Addr T) (t : Addr) (d : Int) : Rcu Addr T :=
  { s with
    nodes := s.nodes.map fun n =>
      if n.addr = t then { n with refcount := n.refcount + Int32.ofInt d } else n }

/-- Change the value of the node at `t`. -/
def setValue (s : Rcu Addr T) (t : Addr) (f : T → T) : Rcu Addr T :=
  { s with nodes := s.nodes.map fun n => if n.addr = t then { n with value := f n.value } else n }

@[simp] theorem addrs_adjust (t : Addr) (d : Int) : (s.adjust t d).addrs = s.addrs := by
  simp only [addrs, adjust, List.map_map]
  refine List.map_congr_left fun n _ => ?_
  rw [Function.comp_apply]
  split <;> rfl

@[simp] theorem addrs_setValue (t : Addr) (f : T → T) : (s.setValue t f).addrs = s.addrs := by
  simp only [addrs, setValue, List.map_map]
  refine List.map_congr_left fun n _ => ?_
  rw [Function.comp_apply]
  split <;> rfl

theorem read_eq (h : s.Accounted held) : s.read = some (s.current, s.adjust s.current 1) := by
  rw [read, KeyedList.modify_eq_map h.nodup h.current]
  rfl

/-- Decrementing a counter is adding `-1` to it, as both wrap. -/
theorem modify_decrement (h : s.Accounted held) (ht : t ∈ s.addrs) :
    KeyedList.modify Node.addr t (fun n => { n with refcount := n.refcount - 1 }) s.nodes =
      some (s.adjust t (-1)).nodes := by
  simp only [KeyedList.modify_eq_map h.nodup ht, Int32.sub_eq_add_neg]
  rfl

theorem release_eq (h : s.Accounted held) (ht : t ∈ s.addrs) : s.release t = s.adjust t (-1) := by
  rw [release, modify_decrement h ht]
  rfl

theorem mutate_eq (h : s.Accounted held) (ht : t ∈ s.addrs) (f : T → T) :
    s.mutate t f = some (s.setValue t f) := by
  rw [mutate, KeyedList.modify_eq_map h.nodup ht]
  rfl

/-- What a `write()` that returns has done. -/
theorem write_eq_some {addr : Addr} {r : Option Addr × Rcu Addr T} :
    s.write (some addr) = some r ↔
      s.locked = false ∧ addr ∉ s.addrs ∧
        ∃ older back, s.nodes = older ++ [back] ∧ r = (some addr, s.append addr back.value) := by
  have haddrs : addrs { s with locked := true } = s.addrs := rfl
  unfold write
  cases hlock : s.locked with
  | true => simp
  | false =>
    simp only [Bool.false_eq_true, if_false, true_and, haddrs]
    cases hback : s.nodes.getLast? with
    | none =>
      rw [List.getLast?_eq_none_iff] at hback
      simp [hback]
    | some back =>
      obtain ⟨older, hnodes⟩ := List.getLast?_eq_some_iff.mp hback
      by_cases hmem : addr ∈ s.addrs
      · simp [hmem]
      · simp only [if_neg hmem, Option.some.injEq]
        constructor
        · intro h
          exact ⟨hmem, older, back, hnodes, h.symm⟩
        · intro h
          obtain ⟨-, older', back', hnodes', hr⟩ := h
          obtain ⟨-, hb⟩ := List.append_inj' (hnodes.symm.trans hnodes') rfl
          rw [hr, (List.cons.inj hb).1]
          rfl

/-- A `write()` that throws leaves the list, the current version and the lock. -/
theorem write_throws {r : Option Addr × Rcu Addr T} :
    s.write none = some r ↔ s.locked = false ∧ s.nodes ≠ [] ∧ r = (none, s) := by
  unfold write
  cases hlock : s.locked with
  | true => simp
  | false =>
    cases hback : s.nodes.getLast? with
    | none =>
      rw [List.getLast?_eq_none_iff] at hback
      simp [hback]
    | some back =>
      have hne : s.nodes ≠ [] := by
        intro hnil
        simp [hnil] at hback
      have hunlock : { s with locked := false } = s := by rw [← hlock]
      simp only [Bool.false_eq_true, if_false, true_and, hback, hunlock, Option.some.injEq]
      exact ⟨fun h => ⟨hne, h.symm⟩, fun h => h.2.symm⟩

theorem Accounted.adjust (h : s.Accounted held) {held' : Addr → ℕ} {d : Int} (ht : t ∈ s.addrs)
    (hheld : ∀ a, (held' a : Int) = held a + if a = t then d else 0) :
    (s.adjust t d).Accounted held' :=
  { nodup := by
      rw [addrs_adjust]
      exact h.nodup
    refcount := by
      intro n hn
      obtain ⟨m, hm, rfl⟩ := List.mem_map.mp hn
      have hm := h.refcount m hm
      have ha := hheld m.addr
      by_cases hmt : m.addr = t
      · rw [if_pos hmt] at ha
        rw [if_pos hmt, hm, ← Int32.ofInt_eq_ofNat, ← Int32.ofInt_add, ← ha, Int32.ofInt_eq_ofNat]
      · rw [if_neg hmt, Int.add_zero, Int.natCast_inj] at ha
        rw [if_neg hmt, hm, ha]
    mem := by
      intro a ha
      rw [addrs_adjust]
      by_cases hat : a = t
      · exact hat ▸ ht
      · have heq := hheld a
        rw [if_neg hat, Int.add_zero, Int.natCast_inj] at heq
        exact h.mem a (heq ▸ ha)
    current := by
      rw [addrs_adjust]
      exact h.current }

theorem Accounted.setValue (h : s.Accounted held) (t : Addr) (f : T → T) :
    (s.setValue t f).Accounted held :=
  { nodup := by
      rw [addrs_setValue]
      exact h.nodup
    refcount := by
      intro n hn
      obtain ⟨m, hm, rfl⟩ := List.mem_map.mp hn
      have hm := h.refcount m hm
      by_cases hmt : m.addr = t
      · rw [if_pos hmt, hm]
      · rw [if_neg hmt, hm]
    mem := by
      intro a ha
      rw [addrs_setValue]
      exact h.mem a ha
    current := by
      rw [addrs_setValue]
      exact h.current }

/-! ### What the pointers lead to -/

/-- Overwriting a pointer in a table of pointers. -/
theorem count_pointer_set {l : List (Option Addr)} {i : ℕ} (hi : i < l.length)
    (t : Option Addr) (a : Addr) :
    ((l.set i t).count (some a) : Int) =
      l.count (some a) - (if l[i]?.join = some a then 1 else 0) +
        if t = some a then 1 else 0 := by
  have hjoin : l[i]?.join = l[i] := by rw [List.getElem?_eq_getElem hi]; rfl
  rw [hjoin, List.count_set hi]
  by_cases hold : l[i] = some a
  · have hpos : 0 < l.count (some a) := List.count_pos_iff.mpr (hold ▸ List.getElem_mem hi)
    simp only [hold, beq_self_eq_true, if_true, beq_iff_eq]
    split <;> omega
  · simp only [beq_iff_eq, hold, if_false]
    split <;> omega

theorem deref_of_mem (h : s.Accounted held) {n : Node Addr T} (hn : n ∈ s.nodes) :
    s.deref n.addr = some n.value := by
  rw [deref, KeyedList.lookup_of_mem h.nodup hn, Option.map_some]

/-- Counting readers changes no value. -/
@[simp] theorem deref_adjust (t : Addr) (d : Int) (a : Addr) :
    (s.adjust t d).deref a = s.deref a := by
  have hkey : ∀ n : Node Addr T,
      (if n.addr = t then { n with refcount := n.refcount + Int32.ofInt d } else n).addr =
        n.addr := by
    intro n
    split <;> rfl
  have hvalue : Node.value ∘
      (fun n : Node Addr T =>
        if n.addr = t then { n with refcount := n.refcount + Int32.ofInt d } else n) =
          Node.value := by
    funext n
    rw [Function.comp_apply]
    split <;> rfl
  rw [deref, adjust, KeyedList.lookup_map hkey, Option.map_map, hvalue, deref]

theorem deref_append {a : Addr} (ha : a ∈ s.addrs) (addr : Addr) (v : T) :
    (s.append addr v).deref a = s.deref a := by
  rw [deref, append, KeyedList.lookup_append_of_mem ha, deref]

/-- A writer changes the value of its own node only. -/
theorem deref_setValue (t : Addr) (f : T → T) (a : Addr) :
    (s.setValue t f).deref a = if a = t then (s.deref t).map f else s.deref a := by
  have hkey : ∀ n : Node Addr T,
      (if n.addr = t then { n with value := f n.value } else n).addr = n.addr := by
    intro n
    split <;> rfl
  rw [deref, setValue, KeyedList.lookup_map hkey]
  by_cases hat : a = t
  · rw [if_pos hat, hat, deref, Option.map_map, Option.map_map]
    refine Option.map_congr fun n hn => ?_
    rw [Function.comp_apply, if_pos (KeyedList.lookup_eq_some hn).2, Function.comp_apply]
  · rw [if_neg hat, deref, Option.map_map]
    refine Option.map_congr fun n hn => ?_
    rw [Function.comp_apply, if_neg ((KeyedList.lookup_eq_some hn).2 ▸ hat)]

theorem deref_append_self (h : s.Accounted held) {addr : Addr} (haddr : addr ∉ s.addrs) (v : T) :
    (s.append addr v).deref addr = some v :=
  deref_of_mem (n := { addr, refcount := 0, value := v }) (h.append haddr v)
    (List.mem_append_right _ (List.mem_singleton.mpr rfl))

theorem deref_filter {p : Node Addr T → Bool} {a : Addr}
    (hp : ∀ n ∈ s.nodes, n.addr = a → p n = true) :
    { s with nodes := s.nodes.filter p }.deref a = s.deref a := by
  rw [deref, KeyedList.lookup_filter hp, deref]

/-- `update` publishes the last node, and keeps it and every node that has readers, if no
counter shows `0` for readers that there are. -/
theorem Accounted.update (h : s.Accounted held) (hcount : ∀ a, 2 ^ 32 ∣ held a → held a = 0)
    {w : Addr} (hw : s.addrs.getLast? = some w) :
    ∃ s', s.update = some s' ∧ s'.Accounted held ∧ s'.locked = false ∧ s'.current = w ∧
      s'.addrs.getLast? = some w ∧ ∀ a, held a ≠ 0 ∨ a = w → s'.deref a = s.deref a := by
  obtain ⟨older, last, hnodes⟩ := h.exists_last
  obtain rfl : last.addr = w := by simpa [addrs, hnodes] using hw
  -- the last node stays whatever its counter says: it is the current one from now on
  have hkeep : older.filter (fun n => n.refcount ≠ 0) ++ [last] =
      s.nodes.filter fun n => n.refcount ≠ 0 ∨ n.addr = last.addr := by
    have hne : ∀ n ∈ older, n.addr ≠ last.addr := by
      intro n hn heq
      have hnodup := h.nodup
      rw [addrs, hnodes] at hnodup
      exact KeyedList.not_mem_of_nodup hnodup (heq ▸ List.mem_map_of_mem hn)
    rw [hnodes, List.filter_append]
    congr 1
    · refine List.filter_congr fun n hn => ?_
      simp [hne n hn]
    · simp
  have hlast : last.addr ∈ s.addrs := by
    rw [addrs, hnodes]
    simp
  have hp : ∀ n ∈ s.nodes, held n.addr ≠ 0 ∨ n.addr = last.addr →
      decide (n.refcount ≠ 0 ∨ n.addr = last.addr) = true := by
    intro n hn hor
    refine decide_eq_true (hor.imp (fun hheld hzero => hheld ?_) id)
    rw [h.refcount n hn] at hzero
    exact eq_zero_of_ofNat (hcount n.addr) hzero
  refine ⟨_, update_eq hnodes, ?_, rfl, rfl, by simp [addrs], fun a ha => ?_⟩
  · rw [hkeep]
    exact ((h.setCurrent hlast).filter (fun n hn hheld => hp n hn (Or.inl hheld))
      (fun n hn heq => hp n hn (Or.inr heq))).setLocked false
  · rw [hkeep]
    exact deref_filter fun n hn heq => hp n hn (heq ▸ ha)

end Pointers

end Rcu

end Brasa.Thread
