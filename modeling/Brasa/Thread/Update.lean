import Mathlib.Logic.Relation
import Brasa.Thread.Rcu

/-!
# Brasa.Thread.Update

**`Rcu::update` one step at a time**: publish the last node, then, for each node
that is not the last, load its counter and erase it or move on, and at the last
node unlock.

The step lemmas are stated at a cut of the list of addresses around the iterator.
Uninterrupted, the steps amount to the atomic `Rcu.update` (`update_steps`), if no
counter shows `0` for readers that there are.
-/

namespace Brasa.Thread

open Brasa.Lib

variable {Addr T : Type*}

/-- Where `update()` is. -/
inductive UpdatePc (Addr : Type*)
  /-- About to set `current_`. -/
  | publish
  /-- At the loop test with iterator `it`; if the loop goes on, about to load the
  counter. -/
  | load (it : Addr)
  /-- About to erase the node of the iterator, or to advance to the next. -/
  | decide (it : Addr) (refcount : Int32)
  deriving DecidableEq

namespace Rcu

/-- The next step of `update()`, and where it is then (`none` when it returns). -/
def updateStep [DecidableEq Addr] (s : Rcu Addr T) :
    UpdatePc Addr → Option (Rcu Addr T × Option (UpdatePc Addr))
  | .publish =>
    match s.nodes.head?, s.nodes.getLast? with
    | some front, some back => some ({ s with current := back.addr }, some (.load front.addr))
    | _, _ => none
  | .load it =>
    match KeyedList.next Node.addr it s.nodes, KeyedList.lookup Node.addr it s.nodes with
    | some none, _ => some ({ s with locked := false }, none)
    | some (some _), some n => some (s, some (.decide it n.refcount))
    | _, _ => none
  | .decide it refcount =>
    match KeyedList.next Node.addr it s.nodes with
    | some (some following) =>
      if refcount = 0 then
        some ({ s with nodes := KeyedList.erase Node.addr it s.nodes }, some (.load following.addr))
      else some (s, some (.load following.addr))
    | _ => none

variable {s : Rcu Addr T} {held : Addr → ℕ} {pre post : List Addr} {it : Addr}

/-- A cut of the addresses is a cut of the nodes. -/
theorem exists_cut (haddrs : s.addrs = pre ++ it :: post) :
    ∃ before n after, s.nodes = before ++ n :: after ∧ n.addr = it ∧
      before.map Node.addr = pre ∧ after.map Node.addr = post := by
  obtain ⟨before, rest, hnodes, hbefore, hrest⟩ := List.map_eq_append_iff.mp haddrs
  obtain ⟨n, after, hcons, hn, hafter⟩ := List.map_eq_cons_iff.mp hrest
  exact ⟨before, n, after, by rw [hnodes, hcons], hn, hbefore, hafter⟩

variable [DecidableEq Addr]

/-- Setting `current_`: the iterator starts at the first node. -/
theorem updateStep_publish {front back : Addr} (hfront : s.addrs.head? = some front)
    (hback : s.addrs.getLast? = some back) :
    s.updateStep .publish = some ({ s with current := back }, some (.load front)) := by
  rw [addrs, List.head?_map, Option.map_eq_some_iff] at hfront
  rw [addrs, List.getLast?_map, Option.map_eq_some_iff] at hback
  obtain ⟨n, hn, rfl⟩ := hfront
  obtain ⟨m, hm, rfl⟩ := hback
  rw [updateStep, hn, hm]

/-- At the last node the loop ends. -/
theorem updateStep_load_last (h : s.Accounted held) (haddrs : s.addrs = pre ++ [it]) :
    s.updateStep (.load it) = some ({ s with locked := false }, none) := by
  obtain ⟨before, n, after, hnodes, rfl, -, hafter⟩ := exists_cut haddrs
  have hnodup := h.nodup
  rw [addrs, hnodes] at hnodup
  obtain rfl := List.map_eq_nil_iff.mp hafter
  have hnext := KeyedList.next_cut (KeyedList.not_mem_of_nodup hnodup) []
  rw [updateStep, hnodes, hnext]
  rfl

/-- Before the last node, the counter loaded shows the number of readers. -/
theorem updateStep_load (h : s.Accounted held) {following : Addr}
    (haddrs : s.addrs = pre ++ it :: following :: post) :
    s.updateStep (.load it) = some (s, some (.decide it (Int32.ofNat (held it)))) := by
  obtain ⟨before, n, after, hnodes, rfl, -, hafter⟩ := exists_cut haddrs
  have hnodup := h.nodup
  rw [addrs, hnodes] at hnodup
  obtain ⟨m, ms, rfl, -, -⟩ := List.map_eq_cons_iff.mp hafter
  have hnot := KeyedList.not_mem_of_nodup hnodup
  have hnext := KeyedList.next_cut hnot (m :: ms)
  have hlookup := KeyedList.lookup_cut hnot (m :: ms)
  rw [updateStep, hnodes, hnext, hlookup, ← h.refcount n (by rw [hnodes]; simp)]
  rfl

/-- The list without the node at `it`. -/
def erase (s : Rcu Addr T) (it : Addr) : Rcu Addr T :=
  { s with nodes := KeyedList.erase Node.addr it s.nodes }

theorem addrs_erase (h : s.Accounted held) (haddrs : s.addrs = pre ++ it :: post) :
    (s.erase it).addrs = pre ++ post := by
  obtain ⟨before, n, after, hnodes, rfl, rfl, rfl⟩ := exists_cut haddrs
  have hnodup := h.nodup
  rw [addrs, hnodes] at hnodup
  rw [addrs, erase, hnodes, KeyedList.erase_cut (KeyedList.not_mem_of_nodup hnodup),
    List.map_append]

theorem addrs_erase_eq_filter (h : s.Accounted held) :
    (s.erase it).addrs = s.addrs.filter (· ≠ it) := by
  rw [addrs, erase, KeyedList.erase_eq_filter h.nodup, addrs, List.filter_map]
  rfl

/-- Erasing an unread node that is not the current one keeps the accounting. -/
theorem Accounted.erase (h : s.Accounted held) (hzero : held it = 0) (hne : it ≠ s.current) :
    (s.erase it).Accounted held := by
  rw [Rcu.erase, KeyedList.erase_eq_filter h.nodup]
  refine h.filter (fun n _ hheld => ?_) (fun n _ hcurrent => ?_)
  · exact decide_eq_true fun heq => hheld (heq ▸ hzero)
  · exact decide_eq_true fun heq => hne (heq.symm.trans hcurrent)

/-- A node loaded as unread is erased. -/
theorem updateStep_erase (h : s.Accounted held) {following : Addr}
    (haddrs : s.addrs = pre ++ it :: following :: post) :
    s.updateStep (.decide it 0) = some (s.erase it, some (.load following)) := by
  obtain ⟨before, n, after, hnodes, rfl, -, hafter⟩ := exists_cut haddrs
  have hnodup := h.nodup
  rw [addrs, hnodes] at hnodup
  obtain ⟨m, ms, rfl, rfl, rfl⟩ := List.map_eq_cons_iff.mp hafter
  have hnext := KeyedList.next_cut (KeyedList.not_mem_of_nodup hnodup) (m :: ms)
  rw [updateStep, hnodes, hnext, Rcu.erase, hnodes]
  rfl

/-- A node loaded with readers is passed. -/
theorem updateStep_advance (h : s.Accounted held) {following : Addr} {refcount : Int32}
    (hne : refcount ≠ 0) (haddrs : s.addrs = pre ++ it :: following :: post) :
    s.updateStep (.decide it refcount) = some (s, some (.load following)) := by
  obtain ⟨before, n, after, hnodes, rfl, -, hafter⟩ := exists_cut haddrs
  have hnodup := h.nodup
  rw [addrs, hnodes] at hnodup
  obtain ⟨m, ms, rfl, rfl, rfl⟩ := List.map_eq_cons_iff.mp hafter
  have hnext := KeyedList.next_cut (KeyedList.not_mem_of_nodup hnodup) (m :: ms)
  rw [updateStep, hnodes, hnext]
  simp only [List.head?_cons, if_neg hne]

omit [DecidableEq Addr] in
/-- A last address that differs from an earlier one. -/
theorem Accounted.ne_last (h : s.Accounted held) {following last : Addr}
    (haddrs : s.addrs = pre ++ it :: following :: post) (hlast : s.addrs.getLast? = some last) :
    it ≠ last := by
  have hnodup := h.nodup
  rw [haddrs, List.nodup_append] at hnodup
  have hmem : last ∈ following :: post := by
    rw [haddrs, List.getLast?_append, List.getLast?_cons_cons] at hlast
    refine List.mem_of_getLast? (hlast.symm ▸ ?_)
    cases hpost : (following :: post).getLast? with
    | none => simp at hpost
    | some a => rfl
  exact fun heq => (List.nodup_cons.mp hnodup.2.1).1 (heq ▸ hmem)

/-- Steps of one `update()` with nothing in between. -/
def UpdateSteps (a b : Rcu Addr T × Option (UpdatePc Addr)) : Prop :=
  Relation.ReflTransGen (fun a b => ∃ pc, a.2 = some pc ∧ a.1.updateStep pc = some b) a b

theorem UpdateSteps.head {pc : UpdatePc Addr} {a b : Rcu Addr T × Option (UpdatePc Addr)}
    (hstep : s.updateStep pc = some a) (h : UpdateSteps a b) : UpdateSteps (s, some pc) b :=
  Relation.ReflTransGen.head ⟨pc, rfl, hstep⟩ h

/-- The loop cleans up what is ahead of the iterator. -/
theorem loop_steps (hcount : ∀ a, 2 ^ 32 ∣ held a → held a = 0) {rest : List (Node Addr T)} :
    ∀ {s : Rcu Addr T} {before : List (Node Addr T)} {n : Node Addr T}, s.Accounted held →
      s.addrs.getLast? = some s.current → s.nodes = before ++ n :: rest →
      UpdateSteps (s, some (.load n.addr))
        ({ s with nodes := before ++ cleanup (n :: rest), locked := false }, none) := by
  -- induction on the nodes behind the iterator; those before it have been dealt with
  induction rest with
  | nil =>
    intro s before n h _ hnodes
    have haddrs : s.addrs = before.map Node.addr ++ [n.addr] := by simp [addrs, hnodes]
    refine .head (updateStep_load_last h haddrs) ?_
    rw [cleanup, ← hnodes]
    exact .refl
  | cons m ms ih =>
    intro s before n h hlast hnodes
    have haddrs : s.addrs = before.map Node.addr ++ n.addr :: m.addr :: ms.map Node.addr := by
      simp [addrs, hnodes]
    have hrefcount := h.refcount n (by rw [hnodes]; simp)
    refine .head (updateStep_load h haddrs) ?_
    rw [cleanup, hrefcount]
    by_cases hzero : held n.addr = 0
    · have hshown : Int32.ofNat (held n.addr) = 0 := congrArg Int32.ofNat hzero
      have hne := h.ne_last haddrs hlast
      have hnodup := h.nodup
      rw [addrs, hnodes] at hnodup
      have herased : (s.erase n.addr).nodes = before ++ m :: ms := by
        rw [erase, hnodes, KeyedList.erase_cut (KeyedList.not_mem_of_nodup hnodup)]
      have hlast' : (s.erase n.addr).addrs.getLast? = some (s.erase n.addr).current := by
        rw [haddrs, List.getLast?_append, List.getLast?_cons_cons] at hlast
        rw [addrs_erase h haddrs, List.getLast?_append]
        exact hlast
      rw [if_pos hshown, hshown]
      exact .head (updateStep_erase h haddrs) (ih (h.erase hzero hne) hlast' herased)
    · have hne : Int32.ofNat (held n.addr) ≠ 0 :=
        fun hshown => hzero (eq_zero_of_ofNat (hcount n.addr) hshown)
      rw [if_neg hne]
      refine .head (updateStep_advance h hne haddrs) ?_
      have hsplit : s.nodes = (before ++ [n]) ++ m :: ms := by simp [hnodes]
      have hrest := ih h hlast hsplit
      rw [List.append_assoc] at hrest
      exact hrest

/-- **`update()` without interference is the atomic `update`.** -/
theorem update_steps (h : s.Accounted held) (hcount : ∀ a, 2 ^ 32 ∣ held a → held a = 0) :
    ∃ s', s.update = some s' ∧ UpdateSteps (s, some .publish) (s', none) := by
  obtain ⟨older, last, hnodes⟩ := h.exists_last
  obtain ⟨front, rest, hcons⟩ : ∃ front rest, s.nodes = front :: rest :=
    List.exists_cons_of_ne_nil (by simp [hnodes])
  have hfront : s.addrs.head? = some front.addr := by simp [addrs, hcons]
  have hback : s.addrs.getLast? = some last.addr := by simp [addrs, hnodes]
  have hloop : UpdateSteps ({ s with current := last.addr }, some (.load front.addr))
      ({ nodes := [] ++ cleanup (front :: rest), current := last.addr, locked := false }, none) :=
    loop_steps hcount (h.setCurrent (List.mem_of_getLast? hback)) hback hcons
  rw [← hcons] at hloop
  refine ⟨_, update_eq hnodes, .head (updateStep_publish hfront hback) ?_⟩
  rw [← cleanup_concat, ← hnodes]
  exact hloop

end Rcu

end Brasa.Thread
