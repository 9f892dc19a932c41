import Brasa.Thread.Bounded
import Brasa.Thread.Register

/-!
# Brasa.Thread.Copies

**`Rcu<T>` refines the register that hands out copies.** Every program of handle
operations, interleaved in any way with the single steps of `update()`, runs as the same
program over the abstract model, with the same values in its handles and the same
operations possible (`rcu_refines_register`), as long as no cleanup takes `2^32` readers
for none. So no reader can see how far a cleanup has come, what was moved where, or what
writers are working on.

A handle that is valid leads to what its copy holds (`Shown`). Publishing the last node
publishes the draft, and the rest of the cleanup is not observed, since what it erases is
in no handle.
-/

namespace Brasa.Thread.Copies

open Brasa.Lib Brasa.Thread.Handles

variable {Addr T : Type*}

/-! ### The program -/

/-- An operation on the handles, a step of `update()`, or a change of the value of the
writer `i`. -/
inductive Event (Addr T : Type*)
  | op (op : Op Addr)
  | mutate (i : ℕ) (f : T → T)

variable [DecidableEq Addr]

/-- One step; `none` if it is not possible. -/
def step (s : State Addr T) : Event Addr T → Option (State Addr T)
  | .op op => s.step op
  | .mutate i f =>
    if s.Busy i then none
    else s.writers[i]?.join.bind fun t => (s.rcu.mutate t f).map fun rcu => { s with rcu }

/-- What a step is in the abstract model. -/
def act (s : State Addr T) : Event Addr T → Act T
  | .op .read => .read
  | .op (.readerMove j) => .readerMove j
  | .op (.readerAssign i j) => .readerAssign i j
  | .op (.readerDestroy i) => .readerDestroy i
  | .op (.write alloc) => .write alloc.isSome
  | .op (.writerMove j) => .writerMove j
  | .op (.writerAssign i j) => .writerAssign i j
  | .op (.writerDestroy i) => .writerDestroy i
  | .op .update =>
    match s.updating with
    | some (_, .publish) => .publish
    | some (_, .load it) => if s.rcu.addrs.getLast? = some it then .finish else .clean
    | _ => .clean
  | .mutate i f => .mutate i f

/-- A cleanup that loads a counter does not find it wrapped to `0`. -/
def Counted (s : State Addr T) : Event Addr T → Prop
  | .op op => s.Counted op
  | .mutate _ _ => True

/-- With less than `2^32` valid readers, no counter is wrapped to `0`. -/
theorem counted_of_valid {s : State Addr T} (hvalid : s.valid < 2 ^ 32) (e : Event Addr T) :
    Counted s e := by
  cases e with
  | op op => exact counted_of_fit (fun a => (held_le_valid s a).trans_lt hvalid) op
  | mutate i f => trivial

/-- The allocator gives a new address. -/
def Fresh (s : State Addr T) : Event Addr T → Prop
  | .op (.write (some addr)) => addr ∉ s.rcu.addrs
  | _ => True

/-! ### Handles and copies -/

/-- The pointers `l` lead to the values `l'`. -/
def Shown (rcu : Rcu Addr T) (l : List (Option Addr)) (l' : List (Option T)) : Prop :=
  l.map (Option.map rcu.deref) = l'.map (Option.map some)

section Shown

variable {rcu rcu' : Rcu Addr T} {l : List (Option Addr)} {l' : List (Option T)} {i j : ℕ}

omit [DecidableEq Addr] in
theorem map_moveConstruct {α β : Type*} (f : α → β) (l : List (Option α)) (j : ℕ) :
    (moveConstruct l j).map (Option.map f) = moveConstruct (l.map (Option.map f)) j := by
  have hjoin : (l[j]?.map (Option.map f)).join = l[j]?.join.map f := by
    rcases l[j]? with _ | _ | a
    · rfl
    · rfl
    · rfl
  rw [moveConstruct, moveConstruct, List.map_append, List.map_set, List.map_singleton,
    List.getElem?_map, hjoin]
  rfl

omit [DecidableEq Addr] in
theorem map_moveAssign {α β : Type*} (f : α → β) (l : List (Option α)) (i j : ℕ) :
    (moveAssign l i j).map (Option.map f) = moveAssign (l.map (Option.map f)) i j := by
  have hjoin : (l[j]?.map (Option.map f)).join = l[j]?.join.map f := by
    rcases l[j]? with _ | _ | a
    · rfl
    · rfl
    · rfl
  rw [moveAssign, moveAssign, List.map_set, List.map_set, List.getElem?_map, hjoin]
  rfl

theorem Shown.moveConstruct (h : Shown rcu l l') (j : ℕ) :
    Shown rcu (moveConstruct l j) (moveConstruct l' j) := by
  rw [Shown, map_moveConstruct, map_moveConstruct, h]

theorem Shown.moveAssign (h : Shown rcu l l') (i j : ℕ) :
    Shown rcu (moveAssign l i j) (moveAssign l' i j) := by
  rw [Shown, map_moveAssign, map_moveAssign, h]

theorem Shown.clear (h : Shown rcu l l') (i : ℕ) : Shown rcu (l.set i none) (l'.set i none) := by
  rw [Shown, List.map_set, List.map_set, h]
  rfl

theorem Shown.finish (h : Shown rcu l l') (op : WriterOp) :
    Shown rcu (op.finish l) (op.finish l') := by
  cases op with
  | destroy i => exact h.clear i
  | assign i j => exact h.moveAssign i j

theorem Shown.concat (h : Shown rcu l l') {a : Addr} {v : T} (ha : rcu.deref a = some v) :
    Shown rcu (l ++ [some a]) (l' ++ [some v]) := by
  rw [Shown, List.map_append, List.map_append, h, List.map_singleton, List.map_singleton,
    Option.map_some, Option.map_some, ha]

/-- Valid handles see no change of a node that is not theirs. -/
theorem Shown.congr (h : Shown rcu l l') (hderef : ∀ a, some a ∈ l → rcu'.deref a = rcu.deref a) :
    Shown rcu' l l' := by
  refine Eq.trans (List.map_congr_left fun t ht => ?_) h
  cases t with
  | none => rfl
  | some a => rw [Option.map_some, Option.map_some, hderef a ht]

theorem Shown.length (h : Shown rcu l l') : l.length = l'.length := by
  have hlength := congrArg List.length h
  rw [List.length_map, List.length_map] at hlength
  exact hlength

theorem Shown.getElem (h : Shown rcu l l') (i : ℕ) :
    l[i]?.join.map rcu.deref = l'[i]?.join.map some := by
  have hi := congrArg (·[i]?) h
  simp only [List.getElem?_map] at hi
  rcases hl : l[i]? with _ | _ | a
  · rcases hl' : l'[i]? with _ | _ | v
    · rfl
    · rfl
    · simp [hl, hl'] at hi
  · rcases hl' : l'[i]? with _ | _ | v
    · rfl
    · rfl
    · simp [hl, hl'] at hi
  · rcases hl' : l'[i]? with _ | _ | v
    · simp [hl, hl'] at hi
    · simp [hl, hl'] at hi
    · simpa [hl, hl'] using hi

/-- A valid handle is a copy of the value it leads to. -/
theorem Shown.valid (h : Shown rcu l l') {a : Addr} (hi : l[i]?.join = some a) :
    ∃ v, l'[i]?.join = some v ∧ rcu.deref a = some v := by
  have hget := h.getElem i
  rw [hi, Option.map_some] at hget
  obtain ⟨v, hv, heq⟩ := Option.map_eq_some_iff.mp hget.symm
  exact ⟨v, hv, heq.symm⟩

theorem Shown.invalid (h : Shown rcu l l') (hi : l[i]?.join = none) : l'[i]?.join = none := by
  have hget := h.getElem i
  rw [hi, Option.map_none] at hget
  exact Option.map_eq_none_iff.mp hget.symm

/-- There is no valid handle exactly if there is no copy. -/
theorem Shown.none_valid_iff (h : Shown rcu l l') : (∀ a, some a ∉ l) ↔ ∀ w ∈ l', w = none := by
  constructor
  · intro hnone w hw
    have hmem := List.mem_map_of_mem (f := Option.map some) hw
    rw [← h] at hmem
    obtain ⟨t, ht, heq⟩ := List.mem_map.mp hmem
    cases t with
    | none => exact Option.map_eq_none_iff.mp heq.symm
    | some a => exact absurd ht (hnone a)
  · intro hnone a ha
    have hmem := List.mem_map_of_mem (f := Option.map rcu.deref) ha
    rw [h] at hmem
    obtain ⟨w, hw, heq⟩ := List.mem_map.mp hmem
    rw [hnone w hw] at heq
    cases heq

end Shown

/-! ### The refinement -/

/-- Where an operation in progress is, as far as it can be observed. -/
def phase (p : WriterOp × UpdatePc Addr) : WriterOp × Bool :=
  (p.1, match p.2 with
    | .publish => false
    | _ => true)

/-- The abstract state `r` is what can be observed of `s`. -/
structure Shows (s : State Addr T) (r : Register T) : Prop where
  value : s.rcu.deref s.rcu.current = some r.value
  readers : Shown s.rcu s.readers r.readers
  writers : Shown s.rcu s.writers r.writers
  closing : s.updating.map phase = r.closing

/-- Nobody reads the draft of a session before it is published. -/
def Draft (s : State Addr T) : Prop :=
  s.rcu.locked = true → (∀ p ∈ s.updating, p.2 = .publish) →
    ∀ w, s.rcu.addrs.getLast? = some w → w ≠ s.rcu.current ∧ s.held w = 0

/-- The code has reached `s` and the abstract model `r`. -/
structure Refines (s : State Addr T) (r : Register T) : Prop where
  inv : Inv s
  draft : Draft s
  shows : Shows s r

theorem refines_start (addr : Addr) (v₀ : T) : Refines (State.start addr v₀) (Register.start v₀) :=
  { inv := inv_start addr v₀
    draft := fun hlock => nomatch hlock
    shows :=
      { value := by simp [State.start, Register.start, Rcu.create, Rcu.deref, KeyedList.lookup]
        readers := rfl
        writers := rfl
        closing := rfl } }

variable {s s' : State Addr T} {r : Register T}

theorem Shows.busy_iff (h : Shows s r) (i : ℕ) : s.Busy i ↔ r.Busy i := by
  rw [State.Busy, Register.Busy, ← h.closing]
  constructor
  · rintro ⟨p, hp, hi⟩
    exact ⟨phase p, by rw [Option.mem_def.mp hp]; rfl, hi⟩
  · rintro ⟨p, hp, hi⟩
    obtain ⟨q, hq, rfl⟩ := Option.map_eq_some_iff.mp (Option.mem_def.mp hp)
    exact ⟨q, hq, hi⟩

/-- A reader is not on the draft, and neither is a step that only gives readers to the
current node. -/
theorem Draft.of_held (h : Draft s) (haddrs : s'.rcu.addrs = s.rcu.addrs)
    (hcurrent : s'.rcu.current = s.rcu.current) (hlocked : s'.rcu.locked = s.rcu.locked)
    (hupdating : s'.updating = s.updating) (hheld : ∀ a, a ≠ s.rcu.current → s'.held a ≤ s.held a) :
    Draft s' := by
  intro hlock hpublish w hlast
  rw [hlocked] at hlock
  rw [hupdating] at hpublish
  rw [haddrs] at hlast
  obtain ⟨hne, hzero⟩ := h hlock hpublish w hlast
  refine ⟨hcurrent ▸ hne, Nat.eq_zero_of_le_zero (hzero ▸ hheld w hne)⟩

/-- What a reader gives up changes nothing that is observed. -/
theorem giveUp_frame (h : Inv s) (i : ℕ) :
    (State.giveUp s.rcu s.readers[i]?.join).current = s.rcu.current ∧
      ∀ a, (State.giveUp s.rcu s.readers[i]?.join).deref a = s.rcu.deref a := by
  cases hi : s.readers[i]?.join with
  | none => exact ⟨rfl, fun _ => rfl⟩
  | some t =>
    have hheld : s.held t ≠ 0 := by
      rw [State.held, Ne, List.count_eq_zero, not_not]
      exact List.mem_of_getElem? (Option.join_eq_some_iff.mp hi)
    rw [State.giveUp, Rcu.release_eq h.accounted (h.accounted.mem t hheld)]
    exact ⟨rfl, fun a => Rcu.deref_adjust _ _ a⟩

/-! ### The operations on readers -/

theorem Refines.read (h : Refines s r) (hs' : s.step .read = some s') :
    ∃ r', r.step .read = some r' ∧ Draft s' ∧ Shows s' r' := by
  rw [State.step, Rcu.read_eq h.inv.accounted, Option.map_some, Option.some.injEq] at hs'
  subst hs'
  have hframe : ∀ a, (s.rcu.adjust s.rcu.current 1).deref a = s.rcu.deref a :=
    fun a => Rcu.deref_adjust _ _ a
  refine ⟨_, rfl, h.draft.of_held (Rcu.addrs_adjust _ _) rfl rfl rfl fun a ha => ?_,
    { value := (hframe _).trans h.shows.value
      readers := (h.shows.readers.congr fun a _ => hframe a).concat
        ((hframe _).trans h.shows.value)
      writers := h.shows.writers.congr fun a _ => hframe a
      closing := h.shows.closing }⟩
  change (s.readers ++ [some s.rcu.current]).count (some a) ≤ s.readers.count (some a)
  rw [List.count_append, List.count_singleton]
  simp [Ne.symm ha]

theorem Refines.readerMove (h : Refines s r) {j : ℕ} (hs' : s.step (.readerMove j) = some s') :
    ∃ r', r.step (.readerMove j) = some r' ∧ Draft s' ∧ Shows s' r' := by
  rw [State.step, Option.ite_none_right_eq_some, Option.some.injEq] at hs'
  obtain ⟨hj, rfl⟩ := hs'
  refine ⟨_, if_pos (h.shows.readers.length ▸ hj),
    h.draft.of_held rfl rfl rfl rfl fun a _ => Nat.le_of_eq (count_moveConstruct hj a),
    { value := h.shows.value
      readers := h.shows.readers.moveConstruct j
      writers := h.shows.writers
      closing := h.shows.closing }⟩

/-- Giving up what the reader `i` held. -/
theorem Refines.giveUp (h : Refines s r) {i : ℕ} {readers : List (Option Addr)}
    {readers' : List (Option T)} (hreaders : Shown s.rcu readers readers')
    (hcount : ∀ a, (readers.count (some a) : Int) =
      s.held a - if s.readers[i]?.join = some a then 1 else 0) :
    Draft { s with rcu := State.giveUp s.rcu s.readers[i]?.join, readers } ∧
      Shows { s with rcu := State.giveUp s.rcu s.readers[i]?.join, readers }
        { r with readers := readers' } := by
  obtain ⟨hcurrent, hframe⟩ := giveUp_frame h.inv i
  have hquiet := h.inv.quiet_giveUp i hcount
  refine ⟨h.draft.of_held hquiet.addrs hcurrent hquiet.locked hquiet.updating hquiet.held,
    { value := ?_
      readers := hreaders.congr fun a _ => hframe a
      writers := h.shows.writers.congr fun a _ => hframe a
      closing := h.shows.closing }⟩
  rw [hcurrent, hframe]
  exact h.shows.value

theorem Refines.readerAssign (h : Refines s r) {i j : ℕ}
    (hs' : s.step (.readerAssign i j) = some s') :
    ∃ r', r.step (.readerAssign i j) = some r' ∧ Draft s' ∧ Shows s' r' := by
  rw [State.step, Option.ite_none_right_eq_some, Option.some.injEq] at hs'
  obtain ⟨hij, rfl⟩ := hs'
  have hlength := h.shows.readers.length
  exact ⟨_, if_pos ⟨hlength ▸ hij.1, hlength ▸ hij.2⟩,
    h.giveUp (h.shows.readers.moveAssign i j) fun a => count_moveAssign hij.1 hij.2 a⟩

theorem Refines.readerDestroy (h : Refines s r) {i : ℕ}
    (hs' : s.step (.readerDestroy i) = some s') :
    ∃ r', r.step (.readerDestroy i) = some r' ∧ Draft s' ∧ Shows s' r' := by
  rw [State.step, Option.ite_none_right_eq_some, Option.some.injEq] at hs'
  obtain ⟨hi, rfl⟩ := hs'
  refine ⟨_, if_pos (h.shows.readers.length ▸ hi),
    h.giveUp (h.shows.readers.clear i) fun a => ?_⟩
  have hcount := Rcu.count_pointer_set hi none a
  rw [if_neg (by simp : (none : Option Addr) ≠ some a), Int.add_zero] at hcount
  exact hcount

/-! ### The operations on writers -/

theorem Refines.write (h : Refines s r) {alloc : Option Addr}
    (hs' : s.step (.write alloc) = some s') :
    ∃ r', r.step (.write alloc.isSome) = some r' ∧ Draft s' ∧ Shows s' r' := by
  rw [State.step, Option.map_eq_some_iff] at hs'
  obtain ⟨⟨t, rcu⟩, hwrite, rfl⟩ := hs'
  cases alloc with
  | none =>
    obtain ⟨hlock, -, heq⟩ := Rcu.write_throws.mp hwrite
    obtain ⟨rfl, rfl⟩ := Prod.mk.inj heq
    obtain ⟨-, hnone, -⟩ := h.inv.unlocked hlock
    exact ⟨r, if_pos (h.shows.writers.none_valid_iff.mp hnone), h.draft, h.shows⟩
  | some addr =>
    obtain ⟨hlock, haddr, older, back, hnodes, heq⟩ := Rcu.write_eq_some.mp hwrite
    obtain ⟨rfl, rfl⟩ := Prod.mk.inj heq
    obtain ⟨hup, hnone, hlast⟩ := h.inv.unlocked hlock
    have hold : ∀ a, a ∈ s.rcu.addrs → (s.rcu.append addr back.value).deref a = s.rcu.deref a :=
      fun a ha => Rcu.deref_append ha _ _
    -- the draft starts as a copy of the last node, which is the current one
    have hback : back.addr = s.rcu.current := by
      rw [Rcu.addrs, hnodes] at hlast
      simpa using hlast
    have hvalue : back.value = r.value := by
      have hderef := Rcu.deref_of_mem h.inv.accounted (n := back) (by rw [hnodes]; simp)
      rw [hback, h.shows.value, Option.some.injEq] at hderef
      exact hderef.symm
    have hheld : s.held addr = 0 := by
      by_contra hne
      exact haddr (h.inv.accounted.mem addr hne)
    refine ⟨_, if_pos (h.shows.writers.none_valid_iff.mp hnone), ?_,
      { value := (hold _ h.inv.accounted.current).trans h.shows.value
        readers := h.shows.readers.congr fun a ha => hold a (h.inv.accounted.mem a ?_)
        writers := (h.shows.writers.congr fun a ha => absurd ha (hnone a)).concat ?_
        closing := h.shows.closing }⟩
    · intro _ _ w hw
      change (s.rcu.append addr back.value).addrs.getLast? = some w at hw
      rw [Rcu.addrs_append, List.getLast?_concat, Option.some.injEq] at hw
      subst hw
      exact ⟨fun heq => haddr (heq ▸ h.inv.accounted.current), hheld⟩
    · rw [State.held, Ne, List.count_eq_zero, not_not]
      exact ha
    · rw [← hvalue]
      exact Rcu.deref_append_self h.inv.accounted haddr back.value

theorem Refines.writerMove (h : Refines s r) {j : ℕ} (hs' : s.step (.writerMove j) = some s') :
    ∃ r', r.step (.writerMove j) = some r' ∧ Draft s' ∧ Shows s' r' := by
  rw [State.step, Option.ite_none_right_eq_some, Option.some.injEq] at hs'
  obtain ⟨⟨hj, hb⟩, rfl⟩ := hs'
  refine ⟨_, if_pos ⟨h.shows.writers.length ▸ hj, fun hbusy => hb ((h.shows.busy_iff j).mpr hbusy)⟩,
    h.draft.of_held rfl rfl rfl rfl fun _ _ => Nat.le_refl _,
    { value := h.shows.value
      readers := h.shows.readers
      writers := h.shows.writers.moveConstruct j
      closing := h.shows.closing }⟩

/-- The operation that gives up a writer starts. -/
theorem Refines.close (h : Refines s r) {op : WriterOp} (hs' : s.startUpdate op = some s') :
    ∃ r', r.close op = some r' ∧ Draft s' ∧ Shows s' r' := by
  rw [State.startUpdate, Option.ite_none_left_eq_some, Option.not_isSome_iff_eq_none,
    Option.some.injEq] at hs'
  obtain ⟨hup, rfl⟩ := hs'
  have hclosing : r.closing = none := by
    rw [← h.shows.closing, hup]
    rfl
  refine ⟨{ r with closing := some (op, false) }, ?_, fun hlock _ => h.draft hlock ?_,
    { value := h.shows.value
      readers := h.shows.readers
      writers := h.shows.writers
      closing := rfl }⟩
  · rw [Register.close, hclosing]
    rfl
  · intro p hp
    rw [hup] at hp
    cases hp

theorem Refines.writerAssign (h : Refines s r) {i j : ℕ}
    (hs' : s.step (.writerAssign i j) = some s') :
    ∃ r', r.step (.writerAssign i j) = some r' ∧ Draft s' ∧ Shows s' r' := by
  rw [State.step, Option.ite_none_right_eq_some] at hs'
  obtain ⟨⟨hi, hj, hbi, hbj⟩, hs'⟩ := hs'
  have hlength := h.shows.writers.length
  rw [Register.step, if_pos ⟨hlength ▸ hi, hlength ▸ hj,
    fun hb => hbi ((h.shows.busy_iff i).mpr hb), fun hb => hbj ((h.shows.busy_iff j).mpr hb)⟩]
  cases hvalid : s.writers[i]?.join with
  | some w =>
    obtain ⟨v, hv, -⟩ := h.shows.writers.valid hvalid
    rw [hvalid] at hs'
    rw [hv]
    exact h.close hs'
  | none =>
    rw [hvalid, Option.some.injEq] at hs'
    subst hs'
    rw [h.shows.writers.invalid hvalid]
    exact ⟨_, rfl, h.draft.of_held rfl rfl rfl rfl fun _ _ => Nat.le_refl _,
      { value := h.shows.value
        readers := h.shows.readers
        writers := h.shows.writers.moveAssign i j
        closing := h.shows.closing }⟩

theorem Refines.writerDestroy (h : Refines s r) {i : ℕ}
    (hs' : s.step (.writerDestroy i) = some s') :
    ∃ r', r.step (.writerDestroy i) = some r' ∧ Draft s' ∧ Shows s' r' := by
  rw [State.step, Option.ite_none_right_eq_some] at hs'
  obtain ⟨⟨hi, hb⟩, hs'⟩ := hs'
  rw [Register.step, if_pos ⟨h.shows.writers.length ▸ hi,
    fun hbusy => hb ((h.shows.busy_iff i).mpr hbusy)⟩]
  cases hvalid : s.writers[i]?.join with
  | some w =>
    obtain ⟨v, hv, -⟩ := h.shows.writers.valid hvalid
    rw [hvalid] at hs'
    rw [hv]
    exact h.close hs'
  | none =>
    rw [hvalid, Option.some.injEq] at hs'
    subst hs'
    rw [h.shows.writers.invalid hvalid]
    exact ⟨r, rfl, h.draft, h.shows⟩

/-- A writer that is not busy holds a draft that nobody reads. -/
theorem Refines.idle_writer (h : Refines s r) {i : ℕ} {w : Addr} (hb : ¬ s.Busy i)
    (hi : s.writers[i]?.join = some w) :
    s.updating = none ∧ Sole s.writers i w ∧ w ∈ s.rcu.addrs ∧ w ≠ s.rcu.current ∧
      s.held w = 0 := by
  obtain ⟨hlock, hsole, hlast, hbusy⟩ := h.inv.valid_writer (Option.join_eq_some_iff.mp hi)
  have hup : s.updating = none := by
    rw [← Option.not_isSome_iff_eq_none]
    exact fun hsome => hb (hbusy hsome)
  obtain ⟨hne, hzero⟩ := h.draft hlock (fun p hp => by rw [hup] at hp; cases hp) w hlast
  exact ⟨hup, hsole, List.mem_of_getLast? hlast, hne, hzero⟩

/-- Changing a draft leaves the list of nodes and the handles as they are. -/
theorem Inv.setValue (h : Inv s) (hup : s.updating = none) (t : Addr) (f : T → T) :
    Inv { s with rcu := s.rcu.setValue t f } := by
  refine
    { accounted := h.accounted.setValue t f
      writes := h.writes
      updates := h.updates
      writer := ?_ }
  have hw := h.writer
  rw [writerInv_none hup] at hw
  refine (writerInv_none (s := { s with rcu := s.rcu.setValue t f }) hup).mpr ?_
  rw [Rcu.addrs_setValue]
  exact hw

theorem Refines.mutate (h : Refines s r) {i : ℕ} {f : T → T}
    (hs' : step s (.mutate i f) = some s') :
    ∃ r', r.step (.mutate i f) = some r' ∧ Refines s' r' := by
  rw [step, Option.ite_none_left_eq_some, Option.bind_eq_some_iff] at hs'
  obtain ⟨hb, w, hi, hs'⟩ := hs'
  obtain ⟨hup, hsole, hmem, hne, hzero⟩ := h.idle_writer hb hi
  rw [Rcu.mutate_eq h.inv.accounted hmem, Option.map_some, Option.some.injEq] at hs'
  subst hs'
  obtain ⟨v, hv, hderef⟩ := h.shows.writers.valid hi
  have hother : ∀ a, a ≠ w → (s.rcu.setValue w f).deref a = s.rcu.deref a := by
    intro a ha
    rw [Rcu.deref_setValue, if_neg ha]
  have hwriters : Shown (s.rcu.setValue w f) (s.writers.set i (some w))
      (r.writers.set i (some (f v))) := by
    have hnone : ∀ a, some a ∉ (WriterOp.destroy i).finish s.writers := Sole.finish hsole
    have hclear : Shown (s.rcu.setValue w f) (s.writers.set i none) (r.writers.set i none) :=
      (h.shows.writers.clear i).congr fun a ha => absurd ha (hnone a)
    have hset : (s.rcu.setValue w f).deref w = some (f v) := by
      rw [Rcu.deref_setValue, if_pos rfl, hderef]
      rfl
    rw [Shown, List.map_set, List.map_set] at hclear ⊢
    have hagain := congrArg (fun l => l.set i (some (some (f v)))) hclear
    simp only [List.set_set] at hagain
    rw [Option.map_some, Option.map_some, hset]
    exact hagain
  have hself : s.writers.set i (some w) = s.writers := by
    obtain ⟨hlt, heq⟩ := List.getElem?_eq_some_iff.mp hsole.holds
    rw [← heq, List.set_getElem_self]
  refine ⟨{ r with writers := r.writers.set i (some (f v)), opened := f ∘ r.opened }, ?_,
    { inv := Inv.setValue h.inv hup w f
      draft := h.draft.of_held (Rcu.addrs_setValue _ _) rfl rfl rfl fun _ _ => Nat.le_refl _
      shows :=
        { value := (hother _ (Ne.symm hne)).trans h.shows.value
          readers := h.shows.readers.congr fun a ha => hother a fun heq => ?_
          writers := hself ▸ hwriters
          closing := h.shows.closing } }⟩
  · rw [Register.step, if_neg fun hbusy => hb ((h.shows.busy_iff i).mpr hbusy), hv]
    rfl
  · exact absurd ha (List.count_eq_zero.mp (heq ▸ hzero))

/-! ### The steps of `update()` -/

theorem deref_erase (h : Inv s) {it a : Addr} (hne : a ≠ it) :
    (s.rcu.erase it).deref a = s.rcu.deref a := by
  rw [Rcu.erase, KeyedList.erase_eq_filter h.accounted.nodup]
  exact Rcu.deref_filter fun n _ heq => decide_eq_true (heq ▸ hne)

/-- Once the draft is published there is none. -/
theorem draft_of_updating {op : WriterOp} {pc : UpdatePc Addr} (hup : s.updating = some (op, pc))
    (hpc : pc ≠ .publish) : Draft s :=
  fun _ hpublish => absurd (hpublish (op, pc) hup) hpc

/-- Publishing the last node publishes the draft of the writer. -/
theorem Refines.publish (h : Refines s r) {op : WriterOp} (hup : s.updating = some (op, .publish))
    (hs' : s.step .update = some s') :
    ∃ r', r.step .publish = some r' ∧ Draft s' ∧ Shows s' r' := by
  have hw := h.inv.writer
  rw [writerInv_some hup] at hw
  obtain ⟨-, ⟨w, hsole, hlast⟩, -⟩ := hw
  obtain ⟨front, rest, haddrs⟩ :=
    List.exists_cons_of_ne_nil (List.ne_nil_of_mem (List.mem_of_getLast? hlast))
  have hpublish := Rcu.updateStep_publish (by rw [haddrs]; rfl) hlast
  rw [step_update_some hup hpublish, Option.some.injEq] at hs'
  subst hs'
  obtain ⟨v, hv, hderef⟩ := h.shows.writers.valid (Option.join_eq_some_iff.mpr hsole.holds)
  have hclosing : r.closing = some (op, false) := by
    rw [← h.shows.closing, hup]
    rfl
  refine ⟨{ r with
      value := v, closing := some (op, true)
      committed := r.committed ++ [r.opened], opened := id }, ?_,
    draft_of_updating rfl (by simp),
    { value := hderef
      readers := h.shows.readers
      writers := h.shows.writers
      closing := rfl }⟩
  rw [Register.step, hclosing]
  simp only [hv, Option.map_some]

/-- A step of the cleanup that erases no node in use is not observed. -/
theorem Refines.clean (h : Refines s r) {op : WriterOp} {pc : UpdatePc Addr}
    (hup : s.updating = some (op, pc)) (rcu : Rcu Addr T) (pc' : UpdatePc Addr)
    (hpc : pc ≠ .publish) (hpc' : pc' ≠ .publish)
    (hcurrent : rcu.current = s.rcu.current)
    (hderef : ∀ a, a = s.rcu.current ∨ some a ∈ s.readers ∨ some a ∈ s.writers →
      rcu.deref a = s.rcu.deref a)
    {older : List Addr} {examined : List (Addr × Int32)} {quiet : Bool} :
    ∃ r', r.step .clean = some r' ∧
      Draft { s with rcu, updating := some (op, pc'), older, examined, quiet } ∧
      Shows { s with rcu, updating := some (op, pc'), older, examined, quiet } r' := by
  have hphase : ∀ {pc : UpdatePc Addr}, pc ≠ .publish → phase (op, pc) = (op, true) := by
    intro pc hpc
    cases pc with
    | publish => exact absurd rfl hpc
    | load it => rfl
    | decide it refcount => rfl
  have hclosing : r.closing = some (op, true) := by
    rw [← h.shows.closing, hup, Option.map_some, hphase hpc]
  refine ⟨r, ?_, draft_of_updating rfl hpc',
    { value := ?_
      readers := h.shows.readers.congr fun a ha => hderef a (Or.inr (Or.inl ha))
      writers := h.shows.writers.congr fun a ha => hderef a (Or.inr (Or.inr ha))
      closing := ?_ }⟩
  · rw [Register.step, hclosing]
  · rw [hcurrent, hderef _ (Or.inl rfl)]
    exact h.shows.value
  · rw [hclosing, Option.map_some, hphase hpc']

/-- The unlock is the end of the operation. -/
theorem Refines.finish (h : Refines s r) {op : WriterOp} {it : Addr}
    (hup : s.updating = some (op, .load it)) {pre : List Addr} (hcut : s.rcu.addrs = pre ++ [it])
    (hs' : s.step .update = some s') :
    ∃ r', r.step .finish = some r' ∧ Draft s' ∧ Shows s' r' := by
  rw [step_update_none hup (Rcu.updateStep_load_last h.inv.accounted hcut),
    Option.some.injEq] at hs'
  subst hs'
  have hclosing : r.closing = some (op, true) := by
    rw [← h.shows.closing, hup]
    rfl
  refine ⟨{ r with writers := op.finish r.writers, closing := none }, ?_,
    (fun hlock => nomatch hlock),
    { value := h.shows.value
      readers := h.shows.readers
      writers := h.shows.writers.finish op
      closing := rfl }⟩
  rw [Register.step, hclosing]

/-- What is erased is neither current nor in a handle. -/
theorem Refines.erase (h : Refines s r) {it following : Addr} {pre rest : List Addr}
    (hcut : s.rcu.addrs = pre ++ it :: following :: rest) (hne : it ≠ s.rcu.current)
    (hzero : s.held it = 0) {a : Addr}
    (ha : a = s.rcu.current ∨ some a ∈ s.readers ∨ some a ∈ s.writers) :
    (s.rcu.erase it).deref a = s.rcu.deref a := by
  refine deref_erase h.inv fun heq => ?_
  rcases ha with ha | ha | ha
  · exact hne (heq.symm.trans ha)
  · exact List.count_eq_zero.mp hzero (heq ▸ ha)
  · -- a valid writer is on the last node
    obtain ⟨i, hi⟩ := List.mem_iff_getElem?.mp ha
    obtain ⟨-, -, hlast, -⟩ := h.inv.valid_writer hi
    exact h.inv.accounted.ne_last hcut hlast heq.symm

theorem Refines.update (h : Refines s r) (hs' : s.step .update = some s') :
    ∃ r', r.step (act s (.op .update)) = some r' ∧ Draft s' ∧ Shows s' r' := by
  have hw := h.inv.writer
  obtain hup | ⟨⟨op, pc⟩, hup⟩ := Option.eq_none_or_eq_some s.updating
  · rw [State.step, State.updateStep, hup] at hs'
    cases hs'
  rw [writerInv_some hup] at hw
  obtain ⟨-, -, hphase⟩ := hw
  cases pc with
  | publish =>
    rw [act, hup]
    exact h.publish hup hs'
  | load it =>
    obtain ⟨hlast, hscan⟩ := hphase
    obtain ⟨post, hcut, -⟩ := hscan.cut
    simp only [act, hup]
    rcases KeyedList.getLast?_cut (hcut ▸ hlast) with ⟨rfl, hit⟩ | ⟨following, rest, rfl, -⟩
    · rw [if_pos (hlast.trans (congrArg some hit.symm))]
      exact h.finish hup hcut hs'
    · have hne := h.inv.accounted.ne_last hcut hlast
      rw [if_neg fun heq => hne (Option.some.inj (heq.symm.trans hlast))]
      rw [step_update_some hup (Rcu.updateStep_load h.inv.accounted hcut), Option.some.injEq] at hs'
      subst hs'
      exact h.clean hup _ _ (by simp) (by simp) rfl fun _ _ => rfl
  | decide it refcount =>
    obtain ⟨hlast, hne, hzero, -, seen, -, hscan⟩ := hphase
    obtain ⟨post, hcut, -⟩ := hscan.cut
    simp only [act, hup]
    rcases KeyedList.getLast?_cut (hcut ▸ hlast) with ⟨rfl, hit⟩ | ⟨following, rest, rfl, -⟩
    · exact absurd hit hne
    · by_cases hc : refcount = 0
      · subst hc
        rw [step_update_some hup (Rcu.updateStep_erase h.inv.accounted hcut),
          Option.some.injEq] at hs'
        subst hs'
        exact h.clean hup (s.rcu.erase it) (.load following) (by simp) (by simp) rfl fun a ha =>
          h.erase hcut hne (hzero rfl) ha
      · rw [step_update_some hup (Rcu.updateStep_advance h.inv.accounted hc hcut),
          Option.some.injEq] at hs'
        subst hs'
        exact h.clean hup _ (.load following) (by simp) (by simp) rfl fun _ _ => rfl

/-! ### The main result -/

/-- There is one draft at a time. -/
theorem Refines.sole (h : Refines s r) {i j : ℕ} {v w : T}
    (hi : r.writers[i]? = some (some v)) (hj : r.writers[j]? = some (some w)) : i = j := by
  have hvalid : ∀ {k : ℕ} {x : T}, r.writers[k]? = some (some x) →
      ∃ a, s.writers[k]? = some (some a) := by
    intro k x hk
    have hget := h.shows.writers.getElem k
    rw [Option.join_eq_some_iff.mpr hk, Option.map_some] at hget
    obtain ⟨a, ha, -⟩ := Option.map_eq_some_iff.mp hget
    exact ⟨a, Option.join_eq_some_iff.mp ha⟩
  obtain ⟨a, ha⟩ := hvalid hi
  obtain ⟨b, hb⟩ := hvalid hj
  obtain ⟨-, hsole, -⟩ := h.inv.valid_writer hb
  exact hsole.only i a ha

/-- A step of the code is one of the abstract model. -/
theorem Refines.simulates (h : Refines s r) {e : Event Addr T}
    (hs' : Copies.step s e = some s') :
    ∃ r', r.step (act s e) = some r' ∧ Draft s' ∧ Shows s' r' := by
  cases e with
  | mutate i f =>
    obtain ⟨r', hr', h'⟩ := h.mutate hs'
    exact ⟨r', hr', h'.draft, h'.shows⟩
  | op op =>
    cases op with
    | read => exact h.read hs'
    | readerMove j => exact h.readerMove hs'
    | readerAssign i j => exact h.readerAssign hs'
    | readerDestroy i => exact h.readerDestroy hs'
    | write alloc => exact h.write hs'
    | writerMove j => exact h.writerMove hs'
    | writerAssign i j => exact h.writerAssign hs'
    | writerDestroy i => exact h.writerDestroy hs'
    | update => exact h.update hs'

/-- **One step** keeps the refinement, a cleanup if it loads no wrapped counter. -/
theorem Refines.step (h : Refines s r) {e : Event Addr T} (hcount : Counted s e)
    (hs' : Copies.step s e = some s') : ∃ r', r.step (act s e) = some r' ∧ Refines s' r' := by
  obtain ⟨r', hr', hdraft, hshows⟩ := h.simulates hs'
  refine ⟨r', hr', { inv := ?_, draft := hdraft, shows := hshows }⟩
  cases e with
  | mutate i f =>
    obtain ⟨_, _, h'⟩ := h.mutate hs'
    exact h'.inv
  | op op => exact (h.inv.step op).2 s' hcount hs'

/-- The lock is free exactly if there is no draft. -/
theorem Refines.free_iff (h : Refines s r) :
    s.rcu.locked = false ↔ ∀ w ∈ r.writers, w = none := by
  rw [← h.shows.writers.none_valid_iff]
  constructor
  · exact fun hlock => (h.inv.unlocked hlock).2.1
  · intro hnone
    by_contra hlock
    obtain ⟨i, w, hsole⟩ := h.inv.holder (by simpa using hlock)
    exact hnone w (List.mem_of_getElem? hsole.holds)

/-- A step of the abstract model is one of the code, if the allocator gives a new
address where it is asked for one. -/
theorem Refines.possible (h : Refines s r) {e : Event Addr T} {r' : Register T}
    (hr' : r.step (act s e) = some r') (hfresh : Fresh s e) : (Copies.step s e).isSome := by
  have hreaders := h.shows.readers.length
  have hwriters := h.shows.writers.length
  have hbusy := h.shows.busy_iff
  cases e with
  | mutate i f =>
    rw [act, Register.step, Option.ite_none_left_eq_some, Option.map_eq_some_iff] at hr'
    obtain ⟨hb, v, hv, -⟩ := hr'
    have hb' : ¬ s.Busy i := fun hi => hb ((hbusy i).mp hi)
    cases hi : s.writers[i]?.join with
    | none =>
      rw [h.shows.writers.invalid hi] at hv
      cases hv
    | some w =>
      obtain ⟨-, -, hmem, -⟩ := h.idle_writer hb' hi
      rw [Copies.step, if_neg hb', hi, Option.bind_some, Rcu.mutate_eq h.inv.accounted hmem]
      rfl
  | op op =>
    refine (h.inv.step op).1.mp ?_
    cases op with
    | read => trivial
    | readerMove j =>
      rw [act, Register.step, Option.ite_none_right_eq_some, ← hreaders] at hr'
      exact hr'.1
    | readerAssign i j =>
      rw [act, Register.step, Option.ite_none_right_eq_some, ← hreaders] at hr'
      exact hr'.1
    | readerDestroy i =>
      rw [act, Register.step, Option.ite_none_right_eq_some, ← hreaders] at hr'
      exact hr'.1
    | write alloc =>
      rw [act, Register.step, Option.ite_none_right_eq_some, ← h.free_iff] at hr'
      refine ⟨hr'.1, fun addr haddr => ?_⟩
      obtain rfl := Option.mem_def.mp haddr
      exact hfresh
    | writerMove j =>
      rw [act, Register.step, Option.ite_none_right_eq_some, ← hwriters, ← hbusy] at hr'
      exact hr'.1
    | writerAssign i j =>
      rw [act, Register.step, Option.ite_none_right_eq_some, ← hwriters, ← hbusy, ← hbusy] at hr'
      exact hr'.1
    | writerDestroy i =>
      rw [act, Register.step, Option.ite_none_right_eq_some, ← hwriters, ← hbusy] at hr'
      exact hr'.1
    | update =>
      have hclosing := h.shows.closing
      obtain hup | hup := Option.eq_none_or_eq_some s.updating
      · rw [hup, Option.map_none] at hclosing
        simp only [act, hup, Register.step, ← hclosing] at hr'
        cases hr'
      · obtain ⟨p, hup⟩ := hup
        rw [State.Enabled, hup, Option.isSome_some]

/-- **`Rcu<T>` is a register that hands out copies.** Whatever a program does with its
handles between the single steps of `update()`, as long as no cleanup loads the counter
of a node with readers as `0`, it does the same over the abstract model:

* valid handles lead to the values that the abstract ones hold, and the same operations
  are possible;
* the value is that of the sessions published so far, one after the other, and a draft
  is what its session has made of the current value. -/
theorem rcu_refines_register (addr : Addr) (v₀ : T) (es : List (Event Addr T)) (s : State Addr T)
    (hcount : Along step Counted (State.start addr v₀) es)
    (hrun : run step (State.start addr v₀) es = some s) :
    ∃ r, run Register.step (Register.start v₀) (inputs step act (State.start addr v₀) es) = some r ∧
      Shows s r ∧
      (∀ e, Fresh s e → ((step s e).isSome ↔ (r.step (act s e)).isSome)) ∧
      r.value = Snapshot.commit v₀ r.committed ∧
      ∀ v, some v ∈ r.writers → v = r.opened r.value := by
  have hstart : Refines (State.start addr v₀) (Register.start v₀) ∧
      Sessions v₀ (Register.start v₀) :=
    ⟨refines_start addr v₀, rfl, fun v hv => absurd hv List.not_mem_nil⟩
  obtain ⟨r, hr, href, hsessions⟩ := run_refinement (fun s r => Refines s r ∧ Sessions v₀ r)
    (fun s r e s' hR hc hs' => by
      obtain ⟨r', hr', href⟩ := hR.1.step hc hs'
      exact ⟨r', hr', href, hR.2.step (fun _ _ _ _ hi hj => hR.1.sole hi hj) hr'⟩)
    hstart hcount hrun
  refine ⟨r, hr, href.shows, fun e hfresh => ⟨fun hs' => ?_, fun hr' => ?_⟩, hsessions.value,
    hsessions.drafts⟩
  · obtain ⟨s', hs'⟩ := Option.isSome_iff_exists.mp hs'
    obtain ⟨r', hr', -⟩ := href.simulates hs'
    rw [hr', Option.isSome_some]
  · obtain ⟨r', hr'⟩ := Option.isSome_iff_exists.mp hr'
    exact href.possible hr' hfresh

/-- A session adds one. Its writer and a reader are moved, and another reader comes in
the middle of the cleanup. -/
def movedDraft : List (Event ℕ ℕ) :=
  [.op .read, .op (.write (some 1)), .mutate 0 (· + 1), .op (.writerMove 0),
    .op (.writerDestroy 1), .op .update, .op .read, .op .update, .op (.readerMove 0), .op .update,
    .op .update]

theorem rcu_refines_register_moved : ∃ s r,
    run step (State.start 0 10) movedDraft = some s ∧
      run Register.step (Register.start 10) (inputs step act (State.start 0 10) movedDraft) =
        some r ∧
      Shows s r ∧ r.value = 11 ∧ r.readers = [none, some 11, some 10] := by
  obtain ⟨s, hs⟩ := Option.isSome_iff_exists.mp
    (rfl : (run step (State.start 0 10) movedDraft).isSome = true)
  have hfew : Always step (fun s => s.valid ≤ 2) (State.start 0 10) movedDraft := by decide
  have hcount : Along step Counted (State.start 0 10) movedDraft :=
    hfew.along.mono fun s e hle => counted_of_valid (hle.trans_lt (by decide)) e
  obtain ⟨r, hr, hshows, -⟩ := rcu_refines_register 0 10 movedDraft s hcount hs
  refine ⟨s, r, hs, hr, hshows, ?_⟩
  cases hs
  cases hr
  exact ⟨rfl, rfl⟩

end Brasa.Thread.Copies
