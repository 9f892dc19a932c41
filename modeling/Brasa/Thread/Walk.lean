import Brasa.Lib.Run
import Brasa.Thread.Update

/-!
# Brasa.Thread.Walk

**`Rcu::release` as a walk over the list**, one step for each node visited, while a
writer appends a node and cleans up, and other readers come and go. No lock is
taken, as in the code.

A node that a reader holds is not erased, unless its counter has wrapped to `0`, but
the walk also passes over nodes of other readers and of nobody, and such a node can be
erased under the cursor. The main result (`release_walks_safe_iff`) says that nothing
else can go wrong: the walks of a run are safe in all its states if and only if no step
of it erases a node that is under a cursor or still has a reader.
-/

namespace Brasa.Thread.Walk

open Brasa.Lib

variable {Addr T : Type*}

/-- A reader, and its `release`. -/
inductive Reader (Addr : Type*)
  /-- A valid reader. -/
  | held (t : Addr)
  /-- `find_if` is about to look at the node of the cursor, or is at the end. -/
  | walking (t : Addr) (cursor : Option Addr)
  /-- `find_if` has returned the node, whose counter is about to be decremented. -/
  | found (t : Addr)
  /-- `release` has decremented the counter. -/
  | released
  /-- `release` has returned without finding the node. -/
  | missed
  deriving DecidableEq

/-- The node whose counter still counts the reader. -/
def Reader.target : Reader Addr → Option Addr
  | held t | walking t _ | found t => some t
  | released | missed => none

/-- An upper bound on the steps that the `release` of a reader still takes, the list
being at the addresses `addrs`. -/
def Reader.remaining [DecidableEq Addr] (addrs : List Addr) : Reader Addr → ℕ
  | walking t (some cursor) => ((addrs.dropWhile (· ≠ cursor)).takeWhile (· ≠ t)).length + 2
  | walking _ none => 2
  | found _ => 1
  | _ => 0

/-- The `Rcu`, the readers, and the `update()` in progress. -/
structure State (Addr T : Type*) where
  rcu : Rcu Addr T
  readers : List (Reader Addr)
  updating : Option (UpdatePc Addr)

/-- A step of a reader or of the writer. -/
inductive Event (Addr : Type*)
  | read
  /-- The destruction of reader `i` starts. -/
  | release (i : ℕ)
  /-- The next step of `release` for reader `i`. -/
  | walk (i : ℕ)
  | write (alloc : Option Addr)
  /-- The destruction of the writer starts. -/
  | destroy
  /-- The next step of `update()`. -/
  | update

namespace State

/-- Before any step. -/
def start (addr : Addr) (v : T) : State Addr T :=
  { rcu := Rcu.create addr v, readers := [], updating := none }

variable [DecidableEq Addr]

/-- The next step of `release`; `none` if it follows an iterator to an erased node. -/
def walkStep (s : State Addr T) (i : ℕ) : Reader Addr → Option (State Addr T)
  | .walking _ none => some { s with readers := s.readers.set i .missed }
  | .walking t (some cursor) =>
    (KeyedList.next Node.addr cursor s.rcu.nodes).map fun following =>
      if cursor = t then { s with readers := s.readers.set i (.found t) }
      else { s with readers := s.readers.set i (.walking t (following.map Node.addr)) }
  | .found t =>
    (KeyedList.modify Node.addr t (fun n => { n with refcount := n.refcount - 1 })
      s.rcu.nodes).map fun nodes =>
        { s with rcu := { s.rcu with nodes }, readers := s.readers.set i .released }
  | _ => none

/-- One step; `none` if it is not possible. -/
def step (s : State Addr T) : Event Addr → Option (State Addr T)
  | .read => s.rcu.read.map fun (t, rcu) => { s with rcu, readers := s.readers ++ [.held t] }
  | .release i =>
    match s.readers[i]? with
    | some (.held t) =>
      some { s with readers := s.readers.set i (.walking t s.rcu.addrs.head?) }
    | _ => none
  | .walk i => s.readers[i]?.bind (s.walkStep i)
  | .write alloc => (s.rcu.write alloc).map fun (_, rcu) => { s with rcu }
  | .destroy =>
    if s.rcu.locked ∧ s.updating = none then some { s with updating := some .publish } else none
  | .update =>
    s.updating.bind fun pc => (s.rcu.updateStep pc).map fun (rcu, updating) =>
      { s with rcu, updating }

/-- How many readers the counter of the node at `a` should count. -/
def held (s : State Addr T) (a : Addr) : ℕ := (s.readers.map Reader.target).count (some a)

/-- An upper bound on the steps that the `release` of reader `i` still takes. -/
def remaining (s : State Addr T) (i : ℕ) : ℕ :=
  match s.readers[i]? with
  | some r => r.remaining s.rcu.addrs
  | none => 0

/-- A step that erases a node finds no cursor on it, and no reader that it counts. -/
def EraseClear (s : State Addr T) (e : Event Addr) : Prop :=
  match e, s.updating with
  | .update, some (.decide it 0) => (∀ t, .walking t (some it) ∉ s.readers) ∧ s.held it = 0
  | _, _ => True

end State

variable [DecidableEq Addr]

/-- What holds in each phase of `update()`. -/
def PhaseInv (s : State Addr T) : UpdatePc Addr → Prop
  | .publish => True
  | .load it => s.rcu.addrs.getLast? = some s.rcu.current ∧ it ∈ s.rcu.addrs
  | .decide it _ => s.rcu.addrs.getLast? = some s.rcu.current ∧ it ∈ s.rcu.addrs ∧
      it ≠ s.rcu.current

/-- What holds after any number of steps that erase no node in use. -/
structure Inv (s : State Addr T) : Prop where
  accounted : s.rcu.Accounted s.held
  /-- The node that a walk looks for is not behind its cursor. -/
  ahead : ∀ t cursor, .walking t cursor ∈ s.readers →
    ∃ c, cursor = some c ∧ t ∈ s.rcu.addrs.dropWhile (· ≠ c)
  found : .missed ∉ s.readers
  idle : s.rcu.locked = false → s.updating = none
  phase : ∀ pc, s.updating = some pc → PhaseInv s pc

theorem inv_start (addr : Addr) (v : T) : Inv (State.start addr v) :=
  { accounted := Rcu.accounted_create addr v
    ahead := fun _ _ hmem => absurd hmem List.not_mem_nil
    found := List.not_mem_nil
    idle := fun _ => rfl
    phase := fun _ hpc => by cases hpc }

variable {s : State Addr T}

/-! ### The steps of readers -/

/-- What a step of a reader must keep, for the invariant to be kept: the list of
nodes, and the accounting. -/
theorem Inv.of_readers (h : Inv s) {rcu : Rcu Addr T} {readers : List (Reader Addr)}
    (hacc : rcu.Accounted { s with rcu, readers }.held) (haddrs : rcu.addrs = s.rcu.addrs)
    (hcurrent : rcu.current = s.rcu.current) (hlocked : rcu.locked = s.rcu.locked)
    (hahead : ∀ t cursor, .walking t cursor ∈ readers →
      ∃ c, cursor = some c ∧ t ∈ s.rcu.addrs.dropWhile (· ≠ c))
    (hfound : .missed ∉ readers) : Inv { s with rcu, readers } := by
  refine
    { accounted := hacc
      ahead := fun t cursor hmem => ?_
      found := hfound
      idle := fun hlock => h.idle (hlocked.symm.trans hlock)
      phase := fun pc hpc => ?_ }
  · rw [haddrs]
    exact hahead t cursor hmem
  · have hphase := h.phase pc hpc
    have hlast' (hlast : s.rcu.addrs.getLast? = some s.rcu.current) :
        rcu.addrs.getLast? = some rcu.current := by
      rw [haddrs, hcurrent]
      exact hlast
    cases pc with
    | publish => trivial
    | load it => exact ⟨hlast' hphase.1, haddrs ▸ hphase.2⟩
    | decide it refcount =>
      obtain ⟨hlast, hit, hne⟩ := hphase
      exact ⟨hlast' hlast, haddrs ▸ hit, fun heq => hne (heq.trans hcurrent)⟩

/-- Counting after a change of one reader. -/
theorem held_set {i : ℕ} {r : Reader Addr} (hi : s.readers[i]? = some r) (r' : Reader Addr)
    (a : Addr) : (((s.readers.set i r').map Reader.target).count (some a) : Int) =
      s.held a - (if r.target = some a then 1 else 0) + if r'.target = some a then 1 else 0 := by
  have hlt : i < (s.readers.map Reader.target).length := by
    rw [List.length_map]
    exact (List.getElem?_eq_some_iff.mp hi).1
  have hset := Rcu.count_pointer_set hlt r'.target a
  rw [List.getElem?_map, hi] at hset
  rw [List.map_set]
  exact hset

/-- A reader that its node still counts. -/
theorem held_ne_zero {i : ℕ} {r : Reader Addr} {t : Addr} (hi : s.readers[i]? = some r)
    (ht : r.target = some t) : s.held t ≠ 0 := by
  rw [State.held, Ne, List.count_eq_zero, not_not, ← ht]
  exact List.mem_map_of_mem (List.mem_of_getElem? hi)

/-- A step of a `release` that leaves the node to be found. -/
theorem Inv.set_reader (h : Inv s) {i : ℕ} {r r' : Reader Addr}
    (hi : s.readers[i]? = some r) (htarget : r'.target = r.target) (hmissed : r' ≠ .missed)
    (hahead : ∀ t cursor, r' = .walking t cursor →
      ∃ c, cursor = some c ∧ t ∈ s.rcu.addrs.dropWhile (· ≠ c)) :
    Inv { s with readers := s.readers.set i r' } := by
  have hheld : State.held { s with readers := s.readers.set i r' } = s.held := by
    funext a
    have hset := held_set hi r' a
    rw [htarget, Int.sub_add_cancel, Int.natCast_inj] at hset
    exact hset
  refine h.of_readers (hheld ▸ h.accounted) rfl rfl rfl (fun t cursor hmem => ?_)
    fun hmem => ?_
  · rcases List.mem_or_eq_of_mem_set hmem with hmem | heq
    · exact h.ahead t cursor hmem
    · exact hahead t cursor heq.symm
  · rcases List.mem_or_eq_of_mem_set hmem with hmem | heq
    · exact h.found hmem
    · exact hmissed heq.symm

theorem Inv.step_read (h : Inv s) : ∃ s', s.step .read = some s' ∧ Inv s' := by
  have hheld : ∀ a,
      ((((s.readers ++ [Reader.held s.rcu.current]).map Reader.target).count (some a) : ℕ) : Int) =
        s.held a + if a = s.rcu.current then 1 else 0 := by
    intro a
    rw [List.map_append, List.map_singleton, List.count_append, List.count_singleton, State.held]
    by_cases ha : a = s.rcu.current
    · simp [ha, Reader.target]
    · simp [ha, Ne.symm ha, Reader.target]
  have hstep : s.step .read = some { s with
      rcu := s.rcu.adjust s.rcu.current 1
      readers := s.readers ++ [.held s.rcu.current] } := by
    rw [State.step, Rcu.read_eq h.accounted]
    rfl
  have hold : ∀ r ∈ s.readers ++ [Reader.held s.rcu.current], r ∈ s.readers ∨
      r = .held s.rcu.current := by
    intro r hr
    simpa using hr
  refine ⟨_, hstep, h.of_readers (h.accounted.adjust h.accounted.current hheld)
    (Rcu.addrs_adjust _ _) rfl rfl (fun t cursor hmem => ?_) fun hmem => ?_⟩
  · rcases hold _ hmem with hmem | heq
    · exact h.ahead t cursor hmem
    · cases heq
  · rcases hold _ hmem with hmem | heq
    · exact h.found hmem
    · cases heq

theorem Inv.step_release (h : Inv s) {i : ℕ} {t : Addr} (hi : s.readers[i]? = some (.held t)) :
    ∃ s', s.step (.release i) = some s' ∧ Inv s' := by
  have hmem : t ∈ s.rcu.addrs := h.accounted.mem t (held_ne_zero hi rfl)
  obtain ⟨front, rest, haddrs⟩ := List.exists_cons_of_ne_nil (List.ne_nil_of_mem hmem)
  have hstep : s.step (.release i) =
      some { s with readers := s.readers.set i (.walking t s.rcu.addrs.head?) } := by
    rw [State.step, hi]
  refine ⟨_, hstep, h.set_reader hi rfl (fun heq => by cases heq) fun t' cursor heq => ?_⟩
  obtain ⟨rfl, rfl⟩ := Reader.walking.inj heq
  refine ⟨front, by rw [haddrs]; rfl, ?_⟩
  rw [haddrs] at hmem ⊢
  simpa using hmem

theorem remaining_eq {i : ℕ} {r : Reader Addr} (hi : s.readers[i]? = some r) :
    s.remaining i = r.remaining s.rcu.addrs := by
  simp only [State.remaining, hi]

theorem remaining_set {i : ℕ} {r : Reader Addr} (hi : s.readers[i]? = some r)
    (rcu : Rcu Addr T) (r' : Reader Addr) :
    State.remaining { s with rcu, readers := s.readers.set i r' } i = r'.remaining rcu.addrs :=
  remaining_eq (s := { s with rcu, readers := s.readers.set i r' })
    (List.getElem?_set_self (List.getElem?_eq_some_iff.mp hi).1)

/-- Looking at the node of the cursor: it is the one, or the next node exists. -/
theorem Inv.walk_cursor (h : Inv s) {i : ℕ} {t cursor : Addr}
    (hi : s.readers[i]? = some (.walking t (some cursor))) :
    ∃ s', s.step (.walk i) = some s' ∧ Inv s' ∧ s'.remaining i < s.remaining i := by
  obtain ⟨c, hc, ht⟩ := h.ahead t _ (List.mem_of_getElem? hi)
  obtain rfl := Option.some.inj hc
  have hmem : cursor ∈ s.rcu.addrs := by
    by_contra hnot
    rw [List.dropWhile_eq_nil_iff.mpr] at ht
    · cases ht
    · exact fun a ha => decide_eq_true fun heq => hnot (heq ▸ ha)
  obtain ⟨pre, post, hcut⟩ := List.append_of_mem hmem
  have hnodup := h.accounted.nodup
  rw [hcut] at hnodup
  obtain ⟨before, n, after, hnodes, rfl, -, rfl⟩ := Rcu.exists_cut hcut
  have hnext : KeyedList.next Node.addr n.addr s.rcu.nodes = some after.head? := by
    have hnodes' := h.accounted.nodup
    rw [Rcu.addrs, hnodes] at hnodes'
    rw [hnodes]
    exact KeyedList.next_cut (KeyedList.not_mem_of_nodup hnodes') after
  have hbefore := remaining_eq hi
  rw [hcut, KeyedList.dropWhile_cut hnodup] at ht
  rw [Reader.remaining, hcut, KeyedList.dropWhile_cut hnodup, List.takeWhile_cons] at hbefore
  by_cases heq : n.addr = t
  · have hstep : s.step (.walk i) = some { s with readers := s.readers.set i (.found t) } := by
      simp only [State.step, hi, Option.bind_some, State.walkStep, hnext, Option.map_some,
        if_pos heq]
    refine ⟨_, hstep, h.set_reader hi rfl (fun heq => by cases heq)
      (fun _ _ heq => by cases heq), ?_⟩
    rw [remaining_set hi s.rcu, hbefore, Reader.remaining]
    omega
  · -- the node looked for is farther on, so the list does not end here
    have hrest : t ∈ after.map Node.addr :=
      (List.mem_cons.mp ht).resolve_left fun hc => heq hc.symm
    obtain ⟨m, ms, rfl⟩ :=
      List.exists_cons_of_ne_nil fun hnil : after = [] => by simp [hnil] at hrest
    have hcut' : s.rcu.addrs = (pre ++ [n.addr]) ++ m.addr :: ms.map Node.addr := by simp [hcut]
    have hnodup' := h.accounted.nodup
    rw [hcut'] at hnodup'
    have hdrop : s.rcu.addrs.dropWhile (· ≠ m.addr) = m.addr :: ms.map Node.addr := by
      rw [hcut', KeyedList.dropWhile_cut hnodup']
    have hstep : s.step (.walk i) =
        some { s with readers := s.readers.set i (.walking t (some m.addr)) } := by
      simp only [State.step, hi, Option.bind_some, State.walkStep, hnext, Option.map_some,
        if_neg heq, List.head?_cons]
    refine ⟨_, hstep, h.set_reader hi rfl (fun heq => by cases heq) fun t' cursor heq' => ?_, ?_⟩
    · obtain ⟨rfl, rfl⟩ := Reader.walking.inj heq'
      exact ⟨m.addr, rfl, hdrop ▸ hrest⟩
    · rw [if_pos (by simp [heq]), List.length_cons] at hbefore
      rw [remaining_set hi s.rcu, hbefore, Reader.remaining, hdrop]
      exact Nat.lt_succ_self _

/-- Decrementing the counter of the node found. -/
theorem Inv.walk_found (h : Inv s) {i : ℕ} {t : Addr} (hi : s.readers[i]? = some (.found t)) :
    ∃ s', s.step (.walk i) = some s' ∧ Inv s' ∧ s'.remaining i < s.remaining i := by
  have hmem : t ∈ s.rcu.addrs := h.accounted.mem t (held_ne_zero hi rfl)
  have hmodify := Rcu.modify_decrement h.accounted hmem
  have hstep : s.step (.walk i) = some { s with
      rcu := s.rcu.adjust t (-1), readers := s.readers.set i .released } := by
    simp only [State.step, hi, Option.bind_some, State.walkStep, hmodify, Option.map_some]
    rfl
  have hheld : ∀ a, (((s.readers.set i .released).map Reader.target).count (some a) : Int) =
      s.held a - if a = t then 1 else 0 := by
    intro a
    refine (held_set hi .released a).trans ?_
    simp [Reader.target, eq_comm]
  refine ⟨_, hstep, h.of_readers (h.accounted.adjust hmem fun a => ?_) (Rcu.addrs_adjust _ _)
    rfl rfl (fun t' cursor hmem => ?_) fun hmem => ?_, ?_⟩
  · refine (hheld a).trans ?_
    by_cases ha : a = t
    · rw [if_pos ha, if_pos ha]
      rfl
    · rw [if_neg ha, if_neg ha, Int.sub_zero, Int.add_zero]
  · rcases List.mem_or_eq_of_mem_set hmem with hmem | heq
    · exact h.ahead t' cursor hmem
    · cases heq
  · rcases List.mem_or_eq_of_mem_set hmem with hmem | heq
    · exact h.found hmem
    · cases heq
  · rw [remaining_set hi, remaining_eq hi]
    exact Nat.one_pos

/-- Every `release` in progress can take its next step. -/
theorem Inv.step_walk (h : Inv s) {i : ℕ} (hpos : 0 < s.remaining i) :
    ∃ s', s.step (.walk i) = some s' ∧ Inv s' ∧ s'.remaining i < s.remaining i := by
  cases hi : s.readers[i]? with
  | none => simp [State.remaining, hi] at hpos
  | some r =>
    rw [remaining_eq hi] at hpos
    cases r with
    | held t => cases hpos
    | walking t cursor =>
      obtain ⟨c, rfl, -⟩ := h.ahead t cursor (List.mem_of_getElem? hi)
      exact h.walk_cursor hi
    | found t => exact h.walk_found hi
    | released => cases hpos
    | missed => cases hpos

/-! ### The steps of the writer -/

theorem Inv.step_write (h : Inv s) {alloc : Option Addr} {s' : State Addr T}
    (hs' : s.step (.write alloc) = some s') : Inv s' := by
  rw [State.step, Option.map_eq_some_iff] at hs'
  obtain ⟨r, hr, rfl⟩ := hs'
  cases alloc with
  | none =>
    obtain ⟨-, -, rfl⟩ := Rcu.write_throws.mp hr
    exact h
  | some addr =>
    obtain ⟨hlock, haddr, older, back, -, rfl⟩ := Rcu.write_eq_some.mp hr
    have hidle := h.idle hlock
    refine
      { accounted := h.accounted.append haddr back.value
        ahead := fun t cursor hmem => ?_
        found := h.found
        idle := fun hfree => by cases hfree
        phase := fun pc hpc => ?_ }
    · obtain ⟨c, hc, ht⟩ := h.ahead t cursor hmem
      refine ⟨c, hc, ?_⟩
      rw [Rcu.addrs_append, KeyedList.dropWhile_append_of_mem ht]
      exact List.mem_append_left _ ht
    · rw [show s.updating = some pc from hpc] at hidle
      cases hidle

/-- What a step of `update()` that keeps the list must give, for the invariant to be
kept. -/
theorem Inv.of_update (h : Inv s) {rcu : Rcu Addr T} {updating : Option (UpdatePc Addr)}
    (hacc : rcu.Accounted s.held) (haddrs : rcu.addrs = s.rcu.addrs)
    (hidle : rcu.locked = false → updating = none)
    (hphase : ∀ pc, updating = some pc → PhaseInv { s with rcu, updating } pc) :
    Inv { s with rcu, updating } :=
  { accounted := hacc
    ahead := by
      rw [haddrs]
      exact h.ahead
    found := h.found
    idle := hidle
    phase := hphase }

/-- What the next step of `update()` does: it keeps the list of addresses, or it
erases the node of the iterator, whose counter was loaded as `0`. -/
inductive UpdateStep (s : State Addr T) : State Addr T → Prop
  | keep {rcu updating} (haddrs : rcu.addrs = s.rcu.addrs)
      (hinv : Inv { s with rcu, updating }) : UpdateStep s { s with rcu, updating }
  | erase {it updating} (hup : s.updating = some (.decide it 0))
      (haddrs : (s.rcu.erase it).addrs = s.rcu.addrs.filter (· ≠ it))
      (hinv : (∀ t, .walking t (some it) ∉ s.readers) → s.held it = 0 →
        Inv { s with rcu := s.rcu.erase it, updating }) :
      UpdateStep s { s with rcu := s.rcu.erase it, updating }

section UpdateStep

variable {it : Addr} {refcount : Int32} {rcu : Rcu Addr T} {updating : Option (UpdatePc Addr)}

/-- While `update()` is in progress, its writer holds the lock. -/
theorem Inv.locked (h : Inv s) {pc : UpdatePc Addr} (hup : s.updating = some pc) :
    s.rcu.locked ≠ false := by
  intro hfree
  rw [h.idle hfree] at hup
  cases hup

theorem Inv.step_publish (h : Inv s) (hup : s.updating = some .publish)
    (hstep : s.rcu.updateStep .publish = some (rcu, updating)) :
    UpdateStep s { s with rcu, updating } := by
  obtain ⟨older, last, hnodes⟩ := h.accounted.exists_last
  have hlast : s.rcu.addrs.getLast? = some last.addr := by simp [Rcu.addrs, hnodes]
  have hmem := List.mem_of_getLast? hlast
  obtain ⟨front, rest, haddrs⟩ := List.exists_cons_of_ne_nil (List.ne_nil_of_mem hmem)
  rw [Rcu.updateStep_publish (by rw [haddrs]; rfl) hlast, Option.some.injEq,
    Prod.mk.injEq] at hstep
  obtain ⟨rfl, rfl⟩ := hstep
  refine .keep rfl (h.of_update (h.accounted.setCurrent hmem) rfl
    (fun hfree => absurd hfree (h.locked hup)) fun pc hpc => ?_)
  obtain rfl := Option.some.inj hpc
  have hfront : front ∈ s.rcu.addrs := by
    rw [haddrs]
    exact List.mem_cons_self
  exact ⟨hlast, hfront⟩

/-- At the last node `update()` unlocks, before it the counter is loaded. -/
theorem Inv.step_load (h : Inv s) (hup : s.updating = some (.load it))
    (hstep : s.rcu.updateStep (.load it) = some (rcu, updating)) :
    UpdateStep s { s with rcu, updating } := by
  obtain ⟨hlast, hit⟩ := h.phase _ hup
  obtain ⟨pre, post, hcut⟩ := List.append_of_mem hit
  rcases KeyedList.getLast?_cut (hcut ▸ hlast) with ⟨rfl, -⟩ | ⟨following, rest, rfl, -⟩
  · rw [Rcu.updateStep_load_last h.accounted hcut, Option.some.injEq, Prod.mk.injEq] at hstep
    obtain ⟨rfl, rfl⟩ := hstep
    exact .keep rfl (h.of_update (h.accounted.setLocked false) rfl (fun _ => rfl)
      fun pc hpc => by cases hpc)
  · rw [Rcu.updateStep_load h.accounted hcut, Option.some.injEq, Prod.mk.injEq] at hstep
    obtain ⟨rfl, rfl⟩ := hstep
    refine .keep rfl (h.of_update h.accounted rfl (fun hfree => absurd hfree (h.locked hup))
      fun pc hpc => ?_)
    obtain rfl := Option.some.inj hpc
    exact ⟨hlast, hit, h.accounted.ne_last hcut hlast⟩

/-- The node that is decided on is not the last one. -/
theorem Inv.cut_decide (h : Inv s) (hup : s.updating = some (.decide it refcount)) :
    ∃ pre following rest, s.rcu.addrs = pre ++ it :: following :: rest ∧
      ∀ pre' : List Addr, (pre' ++ following :: rest).getLast? = some s.rcu.current := by
  obtain ⟨hlast, hit, hne⟩ := h.phase _ hup
  obtain ⟨pre, post, hcut⟩ := List.append_of_mem hit
  rcases KeyedList.getLast?_cut (hcut ▸ hlast) with ⟨-, heq⟩ | ⟨following, rest, rfl, hlast'⟩
  · exact absurd heq hne
  · exact ⟨pre, following, rest, hcut, hlast'⟩

/-- The invariant after the node of the iterator is erased, if it was not in use. -/
theorem Inv.erase (h : Inv s) (hup : s.updating = some (.decide it 0))
    (hclear : ∀ t, .walking t (some it) ∉ s.readers) (hzero : s.held it = 0)
    (hphase : ∀ pc, updating = some pc → PhaseInv { s with rcu := s.rcu.erase it, updating } pc) :
    Inv { s with rcu := s.rcu.erase it, updating } := by
  obtain ⟨-, -, hne⟩ := h.phase _ hup
  refine
    { accounted := h.accounted.erase hzero hne
      ahead := fun t cursor hmem => ?_
      found := h.found
      idle := fun hfree => absurd hfree (h.locked hup)
      phase := hphase }
  -- no cursor stands on the erased node, and no walk is looking for it
  obtain ⟨c, rfl, ht⟩ := h.ahead t cursor hmem
  refine ⟨c, rfl, ?_⟩
  rw [Rcu.addrs_erase_eq_filter h.accounted]
  refine KeyedList.mem_dropWhile_filter ht (fun heq => hclear t (heq ▸ hmem)) fun heq => ?_
  obtain ⟨i, hi⟩ := List.mem_iff_getElem?.mp hmem
  exact held_ne_zero hi rfl (heq ▸ hzero)

/-- A node whose counter was loaded as `0` is erased. -/
theorem Inv.step_erase (h : Inv s) (hup : s.updating = some (.decide it 0))
    (hstep : s.rcu.updateStep (.decide it 0) = some (rcu, updating)) :
    UpdateStep s { s with rcu, updating } := by
  obtain ⟨pre, following, rest, hcut, hlast⟩ := h.cut_decide hup
  rw [Rcu.updateStep_erase h.accounted hcut, Option.some.injEq, Prod.mk.injEq] at hstep
  obtain ⟨rfl, rfl⟩ := hstep
  have hcut' := Rcu.addrs_erase h.accounted hcut
  refine .erase hup (Rcu.addrs_erase_eq_filter h.accounted)
    fun hclear hzero => h.erase hup hclear hzero fun pc hpc => ?_
  obtain rfl := Option.some.inj hpc
  rw [PhaseInv, hcut']
  exact ⟨hlast pre, List.mem_append_right _ List.mem_cons_self⟩

/-- Any other node is passed over. -/
theorem Inv.step_keep (h : Inv s) (hup : s.updating = some (.decide it refcount))
    (hne : refcount ≠ 0) (hstep : s.rcu.updateStep (.decide it refcount) = some (rcu, updating)) :
    UpdateStep s { s with rcu, updating } := by
  obtain ⟨pre, following, rest, hcut, -⟩ := h.cut_decide hup
  rw [Rcu.updateStep_advance h.accounted hne hcut, Option.some.injEq, Prod.mk.injEq] at hstep
  obtain ⟨rfl, rfl⟩ := hstep
  refine .keep rfl (h.of_update h.accounted rfl (fun hfree => absurd hfree (h.locked hup))
    fun pc hpc => ?_)
  obtain rfl := Option.some.inj hpc
  refine ⟨(h.phase _ hup).1, ?_⟩
  rw [hcut]
  exact List.mem_append_right _ (List.mem_cons_of_mem _ List.mem_cons_self)

theorem Inv.step_update (h : Inv s) {s' : State Addr T} (hs' : s.step .update = some s') :
    UpdateStep s s' := by
  rw [State.step, Option.bind_eq_some_iff] at hs'
  obtain ⟨pc, hup, hs'⟩ := hs'
  rw [Option.map_eq_some_iff] at hs'
  obtain ⟨⟨rcu, updating⟩, hstep, rfl⟩ := hs'
  cases pc with
  | publish => exact h.step_publish hup hstep
  | load it => exact h.step_load hup hstep
  | decide it refcount =>
    by_cases hzero : refcount = 0
    · subst hzero
      exact h.step_erase hup hstep
    · exact h.step_keep hup hzero hstep

end UpdateStep

/-! ### Walks and the steps of others -/

/-- Appending a node brings no walk farther from its node. -/
theorem Inv.remaining_append (h : Inv s) {i : ℕ} {r : Reader Addr}
    (hi : s.readers[i]? = some r) (addr : Addr) :
    r.remaining (s.rcu.addrs ++ [addr]) ≤ r.remaining s.rcu.addrs := by
  cases r with
  | walking t cursor =>
    obtain ⟨c, rfl, ht⟩ := h.ahead t cursor (List.mem_of_getElem? hi)
    rw [Reader.remaining, Reader.remaining, KeyedList.dropWhile_append_of_mem ht,
      KeyedList.takeWhile_append_of_mem ht]
  | held t => exact Nat.le_refl _
  | found t => exact Nat.le_refl _
  | released => exact Nat.le_refl _
  | missed => exact Nat.le_refl _

/-- Erasing another node brings no walk farther from its node. -/
theorem Inv.remaining_erase (h : Inv s) {i : ℕ} {r : Reader Addr} {it : Addr}
    (hi : s.readers[i]? = some r) (hne : ∀ t, r.target = some t → t ≠ it) :
    r.remaining (s.rcu.addrs.filter (· ≠ it)) ≤ r.remaining s.rcu.addrs := by
  cases r with
  | walking t cursor =>
    obtain ⟨c, rfl, -⟩ := h.ahead t cursor (List.mem_of_getElem? hi)
    exact Nat.add_le_add_right (KeyedList.distance_filter_le (hne t rfl)) 2
  | held t => exact Nat.le_refl _
  | found t => exact Nat.le_refl _
  | released => exact Nat.le_refl _
  | missed => exact Nat.le_refl _

/-- A step of another `release` changes its own reader, and no address. -/
theorem walkStep_other {j : ℕ} {r : Reader Addr} {s' : State Addr T}
    (hs' : s.walkStep j r = some s') :
    (∃ r', s'.readers = s.readers.set j r') ∧ s'.rcu.addrs = s.rcu.addrs := by
  cases r with
  | held t => cases hs'
  | walking t cursor =>
    cases cursor with
    | none =>
      obtain rfl := Option.some.inj hs'
      exact ⟨⟨_, rfl⟩, rfl⟩
    | some cursor =>
      rw [State.walkStep, Option.map_eq_some_iff] at hs'
      obtain ⟨following, -, rfl⟩ := hs'
      split
      · exact ⟨⟨_, rfl⟩, rfl⟩
      · exact ⟨⟨_, rfl⟩, rfl⟩
  | found t =>
    rw [State.walkStep, Option.map_eq_some_iff] at hs'
    obtain ⟨nodes, hnodes, rfl⟩ := hs'
    exact ⟨⟨_, rfl⟩, KeyedList.map_modify hnodes fun _ => rfl⟩
  | released => cases hs'
  | missed => cases hs'

/-- The other steps do not touch a `release` in progress. -/
theorem Inv.undisturbed (h : Inv s) {e : Event Addr} {s' : State Addr T} {i : ℕ}
    {r : Reader Addr} (hi : s.readers[i]? = some r) (hpos : 0 < s.remaining i)
    (he : e ≠ .walk i) (hs' : s.step e = some s') :
    s'.readers[i]? = some r ∧
      ((∀ t, r.target = some t → t ∈ s'.rcu.addrs) → s'.remaining i ≤ s.remaining i) := by
  rw [remaining_eq hi] at hpos
  have hstay {u : State Addr T} (hu : u.readers[i]? = s.readers[i]?)
      (hle : (∀ t, r.target = some t → t ∈ u.rcu.addrs) →
        r.remaining u.rcu.addrs ≤ r.remaining s.rcu.addrs) :
      u.readers[i]? = some r ∧
        ((∀ t, r.target = some t → t ∈ u.rcu.addrs) → u.remaining i ≤ s.remaining i) := by
    refine ⟨hu.trans hi, fun hnode => ?_⟩
    rw [remaining_eq (hu.trans hi), remaining_eq hi]
    exact hle hnode
  have hkeep {u : State Addr T} (hu : u.readers[i]? = s.readers[i]?)
      (hle : r.remaining u.rcu.addrs ≤ r.remaining s.rcu.addrs) :=
    hstay hu fun _ => hle
  cases e with
  | read =>
    rw [State.step, Rcu.read_eq h.accounted, Option.map_some, Option.some.injEq] at hs'
    subst hs'
    refine hkeep ?_ (Nat.le_of_eq (by rw [Rcu.addrs_adjust]))
    exact List.getElem?_append_left (List.getElem?_eq_some_iff.mp hi).1
  | release j =>
    rw [State.step] at hs'
    split at hs'
    · next t hj =>
      obtain rfl := Option.some.inj hs'
      refine hkeep (List.getElem?_set_ne fun hji => ?_) (Nat.le_refl _)
      rw [hji, hi, Option.some.injEq] at hj
      rw [hj] at hpos
      cases hpos
    · cases hs'
  | walk j =>
    -- a walk writes to its own reader and to a counter, never to an address
    rw [State.step, Option.bind_eq_some_iff] at hs'
    obtain ⟨r', -, hwalk⟩ := hs'
    obtain ⟨⟨r'', hset⟩, haddrs⟩ := walkStep_other hwalk
    refine hkeep ?_ (Nat.le_of_eq (by rw [haddrs]))
    rw [hset]
    exact List.getElem?_set_ne fun hji => he (by rw [hji])
  | write alloc =>
    rw [State.step, Option.map_eq_some_iff] at hs'
    obtain ⟨r', hr', rfl⟩ := hs'
    cases alloc with
    | none =>
      obtain ⟨-, -, rfl⟩ := Rcu.write_throws.mp hr'
      exact hkeep rfl (Nat.le_refl _)
    | some addr =>
      obtain ⟨-, -, older, back, -, rfl⟩ := Rcu.write_eq_some.mp hr'
      refine hkeep rfl ?_
      rw [Rcu.addrs_append]
      exact h.remaining_append hi addr
  | destroy =>
    rw [State.step, Option.ite_none_right_eq_some, Option.some.injEq] at hs'
    obtain ⟨-, rfl⟩ := hs'
    exact hkeep rfl (Nat.le_refl _)
  | update =>
    cases h.step_update hs' with
    | keep haddrs _ => exact hkeep rfl (Nat.le_of_eq (by rw [haddrs]))
    | erase _ haddrs _ =>
      refine hstay rfl fun hnode => ?_
      rw [haddrs] at hnode ⊢
      exact h.remaining_erase hi fun t ht => of_decide_eq_true (List.mem_filter.mp (hnode t ht)).2

/-! ### The main result -/

/-- **One step.** A step that erases no node in use keeps the invariant. -/
theorem Inv.step (h : Inv s) {e : Event Addr} {s' : State Addr T} (hclear : s.EraseClear e)
    (hs' : s.step e = some s') : Inv s' := by
  -- a step that is known to be possible is this one
  have hthis {t : State Addr T} (ht : s.step e = some t) (hinv : Inv t) : Inv s' := by
    rw [hs', Option.some.injEq] at ht
    exact ht ▸ hinv
  cases e with
  | read =>
    obtain ⟨t, ht, hinv⟩ := h.step_read
    exact hthis ht hinv
  | release i =>
    have hs := hs'
    rw [State.step] at hs
    split at hs
    · next t hi =>
      obtain ⟨t, ht, hinv⟩ := h.step_release hi
      exact hthis ht hinv
    · cases hs
  | walk i =>
    have hpos : 0 < s.remaining i := by
      have hs := hs'
      rw [State.step, Option.bind_eq_some_iff] at hs
      obtain ⟨r, hi, hwalk⟩ := hs
      rw [remaining_eq hi]
      cases r with
      | held t => cases hwalk
      | walking t cursor => cases cursor <;> exact Nat.succ_pos _
      | found t => exact Nat.one_pos
      | released => cases hwalk
      | missed => cases hwalk
    obtain ⟨t, ht, hinv, -⟩ := h.step_walk hpos
    exact hthis ht hinv
  | write alloc => exact h.step_write hs'
  | destroy =>
    rw [State.step, Option.ite_none_right_eq_some, Option.some.injEq] at hs'
    obtain ⟨⟨hlock, -⟩, rfl⟩ := hs'
    refine h.of_update h.accounted rfl (fun hfree => ?_) fun pc hpc => ?_
    · rw [hlock] at hfree
      cases hfree
    · obtain rfl := Option.some.inj hpc
      trivial
  | update =>
    cases h.step_update hs' with
    | keep _ hinv => exact hinv
    | erase hup _ hinv =>
      simp only [State.EraseClear, hup] at hclear
      exact hinv hclear.1 hclear.2

end Brasa.Thread.Walk
