import Brasa.Lib.Run
import Brasa.Thread.Update

/-!
# Brasa.Thread.Handles

**Exact reclamation in `Rcu<T>`.** Programs work with `RcuReader` and `RcuWriter`
objects (construction, move construction, move assignment, destruction), and their
operations interleave with the single steps of `update()`.

A handle is the pointer it holds; its `value_` and `pool_` are set and cleared
together. A handle that was destroyed stays in its table as an invalid one. The two
handles that a writer operation works on are not touched by others while its
`update()` runs; using them then would be a data race of the program.

In every reachable state handles lead to nodes of the list, an erased node has no
reader, each `write()` is matched by one `update()` and one unlock, and what a cleanup
leaves is exactly what it found in use, as long as no cleanup takes `2^32` readers for
none. Each counter is the number of valid readers of its node, and is not negative, as
long as there are fewer than `2^31` of them; the main result
(`rcu_exact_reclamation_iff`) is that all this holds exactly as long as no `read()`
makes them more.
-/

namespace Brasa.Thread.Handles

open Brasa.Lib

variable {Addr T : Type*}

/-! ### Handles -/

/-- The handles after `Handle h(std::move(hⱼ))`, the new one being the last. -/
def moveConstruct (handles : List (Option Addr)) (j : ℕ) : List (Option Addr) :=
  handles.set j none ++ [handles[j]?.join]

/-- The handles after `hᵢ = std::move(hⱼ)`, once `hᵢ` has given up what it held. -/
def moveAssign (handles : List (Option Addr)) (i j : ℕ) : List (Option Addr) :=
  (handles.set i handles[j]?.join).set j none

/-- The destruction or assignment of a valid writer, which runs `update()` first. -/
inductive WriterOp
  | destroy (i : ℕ)
  | assign (i j : ℕ)
  deriving DecidableEq

namespace WriterOp

/-- The handle whose node is published. -/
def target : WriterOp → ℕ
  | destroy i => i
  | assign i _ => i

/-- What the operation does after `update()`. -/
def finish (handles : List (Option Addr)) : WriterOp → List (Option Addr)
  | destroy i => handles.set i none
  | assign i j => moveAssign handles i j

/-- Does the operation work on the handle `i`? -/
def Uses (i : ℕ) : WriterOp → Prop
  | destroy j => i = j
  | assign j k => i = j ∨ i = k

instance (i : ℕ) : ∀ op : WriterOp, Decidable (op.Uses i)
  | destroy _ => inferInstanceAs (Decidable (_ = _))
  | assign _ _ => inferInstanceAs (Decidable (_ ∨ _))

end WriterOp

/-- An operation on the handles, or the next step of the `update()` in progress. -/
inductive Op (Addr : Type*)
  | read
  | readerMove (j : ℕ)
  | readerAssign (i j : ℕ)
  | readerDestroy (i : ℕ)
  | write (alloc : Option Addr)
  | writerMove (j : ℕ)
  | writerAssign (i j : ℕ)
  | writerDestroy (i : ℕ)
  | update

/-- The `Rcu`, the handles, and the `update()` in progress. The rest is not part of the
program: counts of `write()`s that returned, of `update()`s and of unlocks; the
addresses that were not the last when the last `update()` published, those it has
examined so far with the counters it loaded, and whether no reader was valid then. -/
structure State (Addr T : Type*) where
  rcu : Rcu Addr T
  readers : List (Option Addr)
  writers : List (Option Addr)
  updating : Option (WriterOp × UpdatePc Addr)
  writes : ℕ
  updates : ℕ
  unlocks : ℕ
  older : List Addr
  examined : List (Addr × Int32)
  quiet : Bool

namespace State

/-- Before any operation. -/
def start (addr : Addr) (v : T) : State Addr T :=
  { rcu := Rcu.create addr v, readers := [], writers := [], updating := none
    writes := 0, updates := 0, unlocks := 0, older := [], examined := [], quiet := false }

/-- The handle `i` of a writer is in use by the operation in progress. -/
def Busy (s : State Addr T) (i : ℕ) : Prop := ∃ p ∈ s.updating, p.1.Uses i

instance (s : State Addr T) (i : ℕ) : Decidable (s.Busy i) :=
  match h : s.updating with
  | none => isFalse fun ⟨p, hp, _⟩ => by rw [h] at hp; cases hp
  | some p => decidable_of_iff (p.1.Uses i)
      ⟨fun hi => ⟨p, h, hi⟩, fun ⟨_, hq, hi⟩ => Option.some.inj (h.symm.trans hq) ▸ hi⟩

/-- Start the `update()` of a writer operation. -/
def startUpdate (s : State Addr T) (op : WriterOp) : Option (State Addr T) :=
  if s.updating.isSome then none
  else some { s with updating := some (op, .publish), updates := s.updates + 1 }

variable [DecidableEq Addr]

/-- `if (value_ != nullptr && pool_ != nullptr) { pool_->release(value_); }` -/
def giveUp (rcu : Rcu Addr T) : Option Addr → Rcu Addr T
  | some t => rcu.release t
  | none => rcu

/-- The record of a step of `update()` from one place to another. -/
def record (s : State Addr T) : UpdatePc Addr → UpdatePc Addr → State Addr T
  | .publish, _ =>
    { s with
      older := s.rcu.addrs.dropLast, examined := [], quiet := s.readers.all (· = none) }
  | _, .decide it refcount => { s with examined := s.examined ++ [(it, refcount)] }
  | _, _ => s

/-- The next step of `update()`, and of the operation that runs it. -/
def updateStep (s : State Addr T) : Option (State Addr T) :=
  s.updating.bind fun (op, pc) => (s.rcu.updateStep pc).map fun (rcu, next) =>
    match next with
    | some pc' => { s.record pc pc' with rcu, updating := some (op, pc') }
    | none =>
      { s with
        rcu, updating := none, writers := op.finish s.writers, unlocks := s.unlocks + 1 }

/-- One step; `none` if it is not possible. -/
def step (s : State Addr T) : Op Addr → Option (State Addr T)
  | .read => s.rcu.read.map fun (t, rcu) => { s with rcu, readers := s.readers ++ [some t] }
  | .readerMove j =>
    if j < s.readers.length then some { s with readers := moveConstruct s.readers j } else none
  | .readerAssign i j =>
    if i < s.readers.length ∧ j < s.readers.length then
      some { s with
        rcu := giveUp s.rcu s.readers[i]?.join, readers := moveAssign s.readers i j }
    else none
  | .readerDestroy i =>
    if i < s.readers.length then
      some { s with rcu := giveUp s.rcu s.readers[i]?.join, readers := s.readers.set i none }
    else none
  | .write alloc =>
    (s.rcu.write alloc).map fun (t, rcu) =>
      match t with
      | some t => { s with rcu, writers := s.writers ++ [some t], writes := s.writes + 1 }
      | none => { s with rcu }
  | .writerMove j =>
    if j < s.writers.length ∧ ¬ s.Busy j then
      some { s with writers := moveConstruct s.writers j }
    else none
  | .writerAssign i j =>
    if i < s.writers.length ∧ j < s.writers.length ∧ ¬ s.Busy i ∧ ¬ s.Busy j then
      match s.writers[i]?.join with
      | some _ => s.startUpdate (.assign i j)
      | none => some { s with writers := moveAssign s.writers i j }
    else none
  | .writerDestroy i =>
    if i < s.writers.length ∧ ¬ s.Busy i then
      match s.writers[i]?.join with
      | some _ => s.startUpdate (.destroy i)
      | none => some s
    else none
  | .update => s.updateStep

/-- The operations a program may do: on handles that exist and are not busy, and
`write()` when the lock is free, with a new address. -/
def Enabled (s : State Addr T) : Op Addr → Prop
  | .read => True
  | .readerMove j => j < s.readers.length
  | .readerAssign i j => i < s.readers.length ∧ j < s.readers.length
  | .readerDestroy i => i < s.readers.length
  | .write alloc => s.rcu.locked = false ∧ ∀ addr ∈ alloc, addr ∉ s.rcu.addrs
  | .writerMove j => j < s.writers.length ∧ ¬ s.Busy j
  | .writerAssign i j =>
    i < s.writers.length ∧ j < s.writers.length ∧ ¬ s.Busy i ∧ ¬ s.Busy j
  | .writerDestroy i => i < s.writers.length ∧ ¬ s.Busy i
  | .update => s.updating.isSome

/-- How many valid readers are on the node at `a`. -/
def held (s : State Addr T) (a : Addr) : ℕ := s.readers.count (some a)

/-- The cleanup, if it is about to load a counter, does not find it wrapped to `0`. -/
def Counted (s : State Addr T) : Op Addr → Prop
  | .update =>
    match s.updating with
    | some (_, .load it) => it ≠ s.rcu.current → 2 ^ 32 ∣ s.held it → s.held it = 0
    | _ => True
  | _ => True

/-- A `read()` leaves fewer than `2^31` valid readers on its node. -/
def ReadersFit (s : State Addr T) : Op Addr → Prop
  | .read => s.held s.rcu.current + 1 < 2 ^ 31
  | _ => True

/-- An upper bound on the steps that the `update()` in progress still takes. -/
def remaining (s : State Addr T) : ℕ :=
  match s.updating with
  | none => 0
  | some (_, .publish) => 2 * s.rcu.addrs.length + 1
  | some (_, .load it) => 2 * (s.rcu.addrs.dropWhile (· ≠ it)).length
  | some (_, .decide it _) => 2 * (s.rcu.addrs.dropWhile (· ≠ it)).length - 1

end State

/-- The addresses examined in use. -/
def kept (examined : List (Addr × Int32)) : List Addr :=
  (examined.filter fun p => p.2 ≠ 0).map Prod.fst

/-! ### Counting handles -/

section Counting

variable [DecidableEq Addr] {l : List (Option Addr)} {i j : ℕ}

theorem count_moveConstruct (hj : j < l.length) (a : Addr) :
    (moveConstruct l j).count (some a) = l.count (some a) := by
  have hset := Rcu.count_pointer_set hj none a
  rw [moveConstruct, List.count_append, List.count_singleton]
  simp only [beq_iff_eq, reduceCtorEq, if_false] at hset ⊢
  split at hset
  · next heq => rw [if_pos heq]; omega
  · next hne => rw [if_neg hne]; omega

theorem count_moveAssign (hi : i < l.length) (hj : j < l.length) (a : Addr) :
    ((moveAssign l i j).count (some a) : Int) =
      l.count (some a) - if l[i]?.join = some a then 1 else 0 := by
  have hset := Rcu.count_pointer_set hi l[j]?.join a
  have hset' := Rcu.count_pointer_set (l := l.set i l[j]?.join) (by simpa using hj) none a
  rw [moveAssign, hset', hset, List.getElem?_set]
  by_cases hij : i = j
  · simp [hij, hj]
  · simp [hij]

end Counting

/-! ### The invariant -/

variable [DecidableEq Addr]

/-- The cleanup has reached `it`, having examined `seen`. -/
structure Scan (s : State Addr T) (it : Addr) (seen : List (Addr × Int32)) : Prop where
  cut : ∃ post, s.rcu.addrs = kept seen ++ it :: post ∧
    s.older = seen.map Prod.fst ++ (it :: post).dropLast
  quiet : s.quiet = true → (∀ p ∈ seen, p.2 = 0) ∧ ∀ a, s.held a ≠ 0 → a = s.rcu.current

/-- What holds in each phase of `update()`. -/
def PhaseInv (s : State Addr T) : UpdatePc Addr → Prop
  | .publish => True
  | .load it => s.rcu.addrs.getLast? = some s.rcu.current ∧ Scan s it s.examined
  | .decide it refcount => s.rcu.addrs.getLast? = some s.rcu.current ∧ it ≠ s.rcu.current ∧
      (refcount = 0 → s.held it = 0) ∧ (s.quiet = true → refcount = 0) ∧
      ∃ seen, s.examined = seen ++ [(it, refcount)] ∧ Scan s it seen

/-- The handle `i` is the only valid one, and holds `w`. -/
structure Sole (l : List (Option Addr)) (i : ℕ) (w : Addr) : Prop where
  holds : l[i]? = some (some w)
  only : ∀ j a, l[j]? = some (some a) → j = i

/-- The writers: without the lock none is valid; with it exactly one is, on the last
node, and it is the one whose `update()` is in progress, if there is one. -/
def WriterInv (s : State Addr T) : Prop :=
  match s.updating with
  | none =>
    (s.rcu.locked = false ∧ (∀ a, some a ∉ s.writers) ∧
      s.rcu.addrs.getLast? = some s.rcu.current) ∨
    (s.rcu.locked = true ∧ ∃ i w, Sole s.writers i w ∧ s.rcu.addrs.getLast? = some w)
  | some (op, pc) => s.rcu.locked = true ∧
      (∃ w, Sole s.writers op.target w ∧ s.rcu.addrs.getLast? = some w) ∧ PhaseInv s pc

theorem writerInv_none {s : State Addr T} (hup : s.updating = none) :
    WriterInv s ↔
      (s.rcu.locked = false ∧ (∀ a, some a ∉ s.writers) ∧
        s.rcu.addrs.getLast? = some s.rcu.current) ∨
      (s.rcu.locked = true ∧ ∃ i w, Sole s.writers i w ∧ s.rcu.addrs.getLast? = some w) := by
  simp only [WriterInv, hup]

theorem writerInv_some {s : State Addr T} {op : WriterOp} {pc : UpdatePc Addr}
    (hup : s.updating = some (op, pc)) :
    WriterInv s ↔ s.rcu.locked = true ∧
      (∃ w, Sole s.writers op.target w ∧ s.rcu.addrs.getLast? = some w) ∧ PhaseInv s pc := by
  simp only [WriterInv, hup]

/-- What holds after any number of steps. -/
structure Inv (s : State Addr T) : Prop where
  accounted : s.rcu.Accounted s.held
  writes : s.writes = s.unlocks + if s.rcu.locked then 1 else 0
  updates : s.updates = s.unlocks + if s.updating.isSome then 1 else 0
  writer : WriterInv s

theorem inv_start (addr : Addr) (v : T) : Inv (State.start addr v) :=
  { accounted := Rcu.accounted_create addr v
    writes := rfl
    updates := rfl
    writer := Or.inl ⟨rfl, fun _ => List.not_mem_nil, rfl⟩ }

variable {s s' : State Addr T}

/-! ### The operations on readers -/

/-- Only the current node can gain a reader: what an operation on readers must keep,
for the invariant to be kept. -/
theorem Inv.of_readers (h : Inv s) {rcu : Rcu Addr T} {readers : List (Option Addr)}
    (hacc : rcu.Accounted { s with rcu, readers }.held) (haddrs : rcu.addrs = s.rcu.addrs)
    (hcurrent : rcu.current = s.rcu.current) (hlocked : rcu.locked = s.rcu.locked)
    (hheld : ∀ a, a ≠ s.rcu.current → { s with rcu, readers }.held a ≤ s.held a) :
    Inv { s with rcu, readers } := by
  have hscan : ∀ it seen, Scan s it seen → Scan { s with rcu, readers } it seen := by
    intro it seen hscan
    refine { cut := ?_, quiet := fun hquiet => ⟨(hscan.quiet hquiet).1, fun a ha => ?_⟩ }
    · obtain ⟨post, hcut, holder⟩ := hscan.cut
      exact ⟨post, haddrs.trans hcut, holder⟩
    · by_contra hne
      have hle := hheld a (hcurrent ▸ hne)
      exact hne (((hscan.quiet hquiet).2 a (by omega)).trans hcurrent.symm)
  refine
    { accounted := hacc
      writes := ?_
      updates := h.updates
      writer := ?_ }
  · rw [hlocked]
    exact h.writes
  · have hw := h.writer
    obtain hup | ⟨⟨op, pc⟩, hup⟩ := Option.eq_none_or_eq_some s.updating
    · rw [writerInv_none hup] at hw
      refine (writerInv_none (s := { s with rcu, readers }) hup).mpr ?_
      rw [hlocked, haddrs, hcurrent]
      exact hw
    · rw [writerInv_some hup] at hw
      refine (writerInv_some (s := { s with rcu, readers }) hup).mpr ?_
      obtain ⟨hlock, ⟨w, hsole, hw⟩, hphase⟩ := hw
      refine ⟨hlocked.trans hlock, ⟨w, hsole, (congrArg _ haddrs).trans hw⟩, ?_⟩
      have hlast' (hlast : s.rcu.addrs.getLast? = some s.rcu.current) :
          rcu.addrs.getLast? = some rcu.current := by
        rw [haddrs, hcurrent]
        exact hlast
      cases pc with
      | publish => trivial
      | load it =>
        obtain ⟨hlast, hs⟩ := hphase
        exact ⟨hlast' hlast, hscan _ _ hs⟩
      | decide it refcount =>
        obtain ⟨hlast, hne, hzero, hquiet, seen, hseen, hs⟩ := hphase
        refine ⟨hlast' hlast, fun heq => hne (heq.trans hcurrent), fun hc => ?_, hquiet, seen,
          hseen, hscan _ _ hs⟩
        exact Nat.eq_zero_of_le_zero (hzero hc ▸ hheld it hne)

/-- Giving up what a handle held. -/
theorem Inv.giveUp (h : Inv s) {t : Option Addr} {readers : List (Option Addr)}
    (hcount : ∀ a, (readers.count (some a) : Int) =
      s.held a - if t = some a then 1 else 0) :
    Inv { s with rcu := State.giveUp s.rcu t, readers } := by
  have hle : ∀ a, readers.count (some a) ≤ s.held a := by
    intro a
    have ha := hcount a
    split at ha <;> omega
  cases t with
  | none =>
    have hheld : ∀ a, readers.count (some a) = s.held a := by
      intro a
      have ha := hcount a
      simp only [reduceCtorEq, if_false] at ha
      omega
    refine h.of_readers ?_ rfl rfl rfl fun a _ => hle a
    have heq : State.held { s with readers } = s.held := funext hheld
    exact heq ▸ h.accounted
  | some t =>
    have hmem : t ∈ s.rcu.addrs := by
      refine h.accounted.mem t fun hzero => ?_
      have ht := hcount t
      rw [if_pos rfl, hzero] at ht
      omega
    rw [State.giveUp, Rcu.release_eq h.accounted hmem]
    refine h.of_readers (h.accounted.adjust hmem fun a => ?_) (Rcu.addrs_adjust _ _) rfl rfl
      fun a _ => hle a
    refine (hcount a).trans ?_
    by_cases ha : a = t
    · rw [if_pos (congrArg some ha.symm), if_pos ha]
      rfl
    · rw [if_neg fun heq => ha (Option.some.inj heq).symm, if_neg ha, Int.sub_zero, Int.add_zero]

/-- The operations on readers are possible on handles that exist, and keep the
invariant. -/
theorem Inv.step_read (h : Inv s) : ∃ s', s.step .read = some s' ∧ Inv s' := by
  have hread := Rcu.read_eq h.accounted
  have hheld : ∀ a, ((s.readers ++ [some s.rcu.current]).count (some a) : Int) =
      s.held a + if a = s.rcu.current then 1 else 0 := by
    intro a
    rw [List.count_append, List.count_singleton, State.held]
    by_cases ha : a = s.rcu.current
    · simp [ha]
    · simp [ha, Ne.symm ha]
  have hstep : s.step .read = some { s with
      rcu := s.rcu.adjust s.rcu.current 1, readers := s.readers ++ [some s.rcu.current] } := by
    rw [State.step, hread]
    rfl
  refine ⟨_, hstep, h.of_readers (h.accounted.adjust h.accounted.current hheld)
    (Rcu.addrs_adjust _ _) rfl rfl fun a ha => ?_⟩
  have heq := hheld a
  rw [if_neg ha, Int.add_zero, Int.natCast_inj] at heq
  exact Nat.le_of_eq heq

theorem Inv.step_readerMove (h : Inv s) {j : ℕ} (hj : j < s.readers.length) :
    ∃ s', s.step (.readerMove j) = some s' ∧ Inv s' := by
  have hcount : ∀ a, (moveConstruct s.readers j).count (some a) = s.held a :=
    fun a => count_moveConstruct hj a
  refine ⟨_, if_pos hj, h.of_readers ?_ rfl rfl rfl fun a _ => Nat.le_of_eq (hcount a)⟩
  have heq : State.held { s with readers := moveConstruct s.readers j } = s.held := funext hcount
  exact heq ▸ h.accounted

theorem Inv.step_readerAssign (h : Inv s) {i j : ℕ} (hi : i < s.readers.length)
    (hj : j < s.readers.length) : ∃ s', s.step (.readerAssign i j) = some s' ∧ Inv s' :=
  ⟨_, if_pos ⟨hi, hj⟩, h.giveUp fun a => count_moveAssign hi hj a⟩

theorem Inv.step_readerDestroy (h : Inv s) {i : ℕ} (hi : i < s.readers.length) :
    ∃ s', s.step (.readerDestroy i) = some s' ∧ Inv s' := by
  refine ⟨_, if_pos hi, h.giveUp fun a => ?_⟩
  have hcount := Rcu.count_pointer_set hi none a
  rw [if_neg (by simp : (none : Option Addr) ≠ some a), Int.add_zero] at hcount
  exact hcount

/-! ### The operations on writers -/

omit [DecidableEq Addr] in
theorem moveConstruct_valid {l : List (Option Addr)} {j k : ℕ} {a : Addr} (hj : j < l.length) :
    (moveConstruct l j)[k]? = some (some a) ↔
      (k ≠ j ∧ l[k]? = some (some a)) ∨ (k = l.length ∧ l[j]? = some (some a)) := by
  have hjoin : l[j]?.join = l[j] := by rw [List.getElem?_eq_getElem hj]; rfl
  have hj' : l[j]? = some l[j] := List.getElem?_eq_getElem hj
  rw [moveConstruct, hjoin, hj', List.getElem?_append, List.length_set]
  by_cases hk : k < l.length
  · rw [if_pos hk, List.getElem?_set]
    by_cases hjk : j = k
    · simp [hjk, hk, Nat.ne_of_lt hk]
    · simp [hjk, Ne.symm hjk, Nat.ne_of_lt hk]
  · rw [if_neg hk, List.getElem?_eq_none (Nat.le_of_not_lt hk)]
    by_cases hlen : k = l.length
    · simp [hlen]
    · have hpos : k - l.length ≠ 0 := by omega
      simp [hlen, hpos]

omit [DecidableEq Addr] in
theorem moveAssign_valid {l : List (Option Addr)} {i j k : ℕ} {a : Addr} (hi : i < l.length)
    (hj : j < l.length) :
    (moveAssign l i j)[k]? = some (some a) ↔
      k ≠ j ∧ ((k = i ∧ l[j]? = some (some a)) ∨ (k ≠ i ∧ l[k]? = some (some a))) := by
  have hjoin : l[j]?.join = l[j] := by rw [List.getElem?_eq_getElem hj]; rfl
  have hj' : l[j]? = some l[j] := List.getElem?_eq_getElem hj
  rw [moveAssign, hjoin, hj', List.getElem?_set, List.length_set]
  by_cases hjk : j = k
  · simp [hjk]
  · rw [if_neg hjk, List.getElem?_set]
    by_cases hik : i = k
    · simp [hik, Ne.symm hjk, hik ▸ hi]
    · simp [hik, Ne.symm hik, Ne.symm hjk]

omit [DecidableEq Addr] in
/-- Moving from another handle leaves the valid one alone. -/
theorem Sole.moveConstruct {l : List (Option Addr)} {i j : ℕ} {w : Addr} (h : Sole l i w)
    (hj : j < l.length) (hij : i ≠ j) : Sole (moveConstruct l j) i w := by
  refine ⟨(moveConstruct_valid hj).mpr (Or.inl ⟨hij, h.holds⟩), fun k a hk => ?_⟩
  rcases (moveConstruct_valid hj).mp hk with ⟨-, hk⟩ | ⟨-, hk⟩
  · exact h.only k a hk
  · exact absurd (h.only j a hk).symm hij

omit [DecidableEq Addr] in
/-- Moving from the valid handle makes the new one valid. -/
theorem Sole.moveConstruct_self {l : List (Option Addr)} {i : ℕ} {w : Addr} (h : Sole l i w)
    (hi : i < l.length) : Sole (Handles.moveConstruct l i) l.length w := by
  refine ⟨(moveConstruct_valid hi).mpr (Or.inr ⟨rfl, h.holds⟩), fun k a hk => ?_⟩
  rcases (moveConstruct_valid hi).mp hk with ⟨hne, hk⟩ | ⟨heq, -⟩
  · exact absurd (h.only k a hk) hne
  · exact heq

omit [DecidableEq Addr] in
/-- Assigning to an invalid handle leaves one valid, or moves it there. -/
theorem Sole.moveAssign {l : List (Option Addr)} {i j k : ℕ} {w : Addr} (h : Sole l k w)
    (hi : i < l.length) (hj : j < l.length) (hki : k ≠ i) :
    Sole (moveAssign l i j) (if k = j then i else k) w := by
  by_cases hkj : k = j
  · rw [if_pos hkj]
    refine ⟨(moveAssign_valid hi hj).mpr ⟨fun hij => hki (hkj.trans hij.symm),
      Or.inl ⟨rfl, hkj ▸ h.holds⟩⟩, fun m a hm => ?_⟩
    obtain ⟨hmj, ⟨hmi, -⟩ | ⟨-, hm⟩⟩ := (moveAssign_valid hi hj).mp hm
    · exact hmi
    · exact absurd ((h.only m a hm).trans hkj) hmj
  · rw [if_neg hkj]
    refine ⟨(moveAssign_valid hi hj).mpr ⟨hkj, Or.inr ⟨hki, h.holds⟩⟩, fun m a hm => ?_⟩
    obtain ⟨-, ⟨-, hm⟩ | ⟨-, hm⟩⟩ := (moveAssign_valid hi hj).mp hm
    · exact absurd (h.only j a hm).symm hkj
    · exact h.only m a hm

omit [DecidableEq Addr] in
/-- After the `update()` of the only valid writer, none is valid. -/
theorem Sole.finish {l : List (Option Addr)} {op : WriterOp} {w : Addr}
    (h : Sole l op.target w) (a : Addr) : some a ∉ op.finish l := by
  intro hmem
  obtain ⟨k, hk⟩ := List.mem_iff_getElem?.mp hmem
  cases op with
  | destroy i =>
    rw [WriterOp.finish, List.getElem?_set] at hk
    by_cases hik : i = k
    · rw [if_pos hik] at hk
      split at hk <;> cases hk
    · rw [if_neg hik] at hk
      exact hik (h.only k a hk).symm
  | assign i j =>
    rw [WriterOp.finish, Handles.moveAssign, List.getElem?_set] at hk
    by_cases hjk : j = k
    · rw [if_pos hjk] at hk
      split at hk <;> cases hk
    · rw [if_neg hjk, List.getElem?_set] at hk
      by_cases hik : i = k
      · rw [if_pos hik] at hk
        split at hk
        · rw [Option.some.injEq, Option.join_eq_some_iff] at hk
          exact hjk ((h.only j a hk).trans hik)
        · cases hk
      · rw [if_neg hik] at hk
        exact hik (h.only k a hk).symm

/-- While the lock is free there is no `update()` and no valid writer. -/
theorem Inv.unlocked (h : Inv s) (hlock : s.rcu.locked = false) :
    s.updating = none ∧ (∀ a, some a ∉ s.writers) ∧
      s.rcu.addrs.getLast? = some s.rcu.current := by
  have hw := h.writer
  obtain hup | ⟨⟨op, pc⟩, hup⟩ := Option.eq_none_or_eq_some s.updating
  · rw [writerInv_none hup] at hw
    rcases hw with ⟨-, hnone, hlast⟩ | ⟨hlocked, -⟩
    · exact ⟨hup, hnone, hlast⟩
    · rw [hlock] at hlocked
      cases hlocked
  · rw [writerInv_some hup, hlock] at hw
    cases hw.1

/-- A valid writer is the only one, holds the lock, and is busy if there is an
`update()`. -/
theorem Inv.valid_writer (h : Inv s) {i : ℕ} {w : Addr} (hi : s.writers[i]? = some (some w)) :
    s.rcu.locked = true ∧ Sole s.writers i w ∧ s.rcu.addrs.getLast? = some w ∧
      (s.updating.isSome → s.Busy i) := by
  have hw := h.writer
  obtain hup | ⟨⟨op, pc⟩, hup⟩ := Option.eq_none_or_eq_some s.updating
  · rw [writerInv_none hup] at hw
    rcases hw with ⟨-, hnone, -⟩ | ⟨hlocked, j, v, hsole, hlast⟩
    · exact absurd (List.mem_of_getElem? hi) (hnone w)
    · obtain rfl := hsole.only i w hi
      have hwv : w = v := by
        have heq := hi.symm.trans hsole.holds
        simpa using heq
      refine ⟨hlocked, hwv ▸ hsole, hwv ▸ hlast, fun hsome => ?_⟩
      rw [hup] at hsome
      cases hsome
  · rw [writerInv_some hup] at hw
    obtain ⟨hlocked, ⟨v, hsole, hlast⟩, -⟩ := hw
    obtain rfl := hsole.only i w hi
    have hwv : w = v := by
      have heq := hi.symm.trans hsole.holds
      simpa using heq
    refine ⟨hlocked, hwv ▸ hsole, hwv ▸ hlast, fun _ => ⟨(op, pc), hup, ?_⟩⟩
    cases op with
    | destroy i => rfl
    | assign i j => exact Or.inl rfl

/-- Operations that leave the `Rcu` and the `update()` alone, and keep the valid
writers that are not busy apart from where they are. -/
theorem Inv.of_writers (h : Inv s) {writers : List (Option Addr)}
    (hnone : (∀ a, some a ∉ s.writers) → ∀ a, some a ∉ writers)
    (hidle : ∀ i w, Sole s.writers i w → ∃ j, Sole writers j w)
    (hbusy : ∀ i w, s.Busy i → Sole s.writers i w → Sole writers i w) :
    Inv { s with writers } := by
  refine { accounted := h.accounted, writes := h.writes, updates := h.updates, writer := ?_ }
  have hw := h.writer
  obtain hup | ⟨⟨op, pc⟩, hup⟩ := Option.eq_none_or_eq_some s.updating
  · rw [writerInv_none hup] at hw
    refine (writerInv_none (s := { s with writers }) hup).mpr ?_
    rcases hw with ⟨hlock, hempty, hlast⟩ | ⟨hlock, i, w, hsole, hlast⟩
    · exact Or.inl ⟨hlock, hnone hempty, hlast⟩
    · obtain ⟨j, hj⟩ := hidle i w hsole
      exact Or.inr ⟨hlock, j, w, hj, hlast⟩
  · rw [writerInv_some hup] at hw
    refine (writerInv_some (s := { s with writers }) hup).mpr ?_
    obtain ⟨hlock, ⟨w, hsole, hlast⟩, hphase⟩ := hw
    obtain ⟨-, -, -, hb⟩ := h.valid_writer hsole.holds
    refine ⟨hlock, ⟨w, hbusy _ w (hb (by rw [hup, Option.isSome_some])) hsole, hlast⟩, ?_⟩
    cases pc with
    | publish => trivial
    | load it => exact ⟨hphase.1, ⟨hphase.2.cut, hphase.2.quiet⟩⟩
    | decide it refcount =>
      obtain ⟨hlast, hne, hzero, hquiet, seen, hseen, hs⟩ := hphase
      exact ⟨hlast, hne, hzero, hquiet, seen, hseen, ⟨hs.cut, hs.quiet⟩⟩

theorem Inv.step_writerMove (h : Inv s) {j : ℕ} (hj : j < s.writers.length) (hb : ¬ s.Busy j) :
    ∃ s', s.step (.writerMove j) = some s' ∧ Inv s' := by
  refine ⟨_, if_pos ⟨hj, hb⟩, h.of_writers ?_ ?_ ?_⟩
  · intro hnone a hmem
    obtain ⟨k, hk⟩ := List.mem_iff_getElem?.mp hmem
    rcases (moveConstruct_valid hj).mp hk with ⟨-, hk⟩ | ⟨-, hk⟩
    · exact hnone a (List.mem_of_getElem? hk)
    · exact hnone a (List.mem_of_getElem? hk)
  · intro i w hsole
    by_cases hij : i = j
    · exact ⟨_, (hij ▸ hsole : Sole s.writers j w).moveConstruct_self hj⟩
    · exact ⟨i, hsole.moveConstruct hj hij⟩
  · intro i w hbusy hsole
    exact hsole.moveConstruct hj fun hij => hb (hij ▸ hbusy)

/-- Destroying or assigning to the valid writer starts an `update()`. -/
theorem Inv.startUpdate (h : Inv s) {op : WriterOp} {w : Addr}
    (hvalid : s.writers[op.target]? = some (some w)) (hb : ¬ s.Busy op.target) :
    ∃ s', s.startUpdate op = some s' ∧ Inv s' := by
  obtain ⟨hlock, hsole, hlast, hbusy⟩ := h.valid_writer hvalid
  have hup : s.updating = none := by
    rw [← Option.not_isSome_iff_eq_none]
    exact fun hsome => hb (hbusy hsome)
  have hstep : s.startUpdate op =
      some { s with updating := some (op, .publish), updates := s.updates + 1 } := by
    rw [State.startUpdate, hup]
    rfl
  have hupdates := h.updates
  rw [hup] at hupdates
  refine ⟨_, hstep,
    { accounted := h.accounted
      writes := h.writes
      updates := congrArg (· + 1) hupdates
      writer := ⟨hlock, ⟨w, hsole, hlast⟩, trivial⟩ }⟩

theorem Inv.step_writerAssign (h : Inv s) {i j : ℕ} (hi : i < s.writers.length)
    (hj : j < s.writers.length) (hbi : ¬ s.Busy i) (hbj : ¬ s.Busy j) :
    ∃ s', s.step (.writerAssign i j) = some s' ∧ Inv s' := by
  cases hvalid : s.writers[i]?.join with
  | some w =>
    obtain ⟨s', hs', h'⟩ : ∃ s', s.startUpdate (.assign i j) = some s' ∧ Inv s' :=
      h.startUpdate (Option.join_eq_some_iff.mp hvalid) hbi
    refine ⟨s', ?_, h'⟩
    rw [State.step, if_pos ⟨hi, hj, hbi, hbj⟩, hvalid]
    exact hs'
  | none =>
    have hinvalid : ∀ k w, Sole s.writers k w → k ≠ i := by
      intro k w hsole hki
      rw [← hki, hsole.holds] at hvalid
      cases hvalid
    have hstep : s.step (.writerAssign i j) =
        some { s with writers := moveAssign s.writers i j } := by
      rw [State.step, if_pos ⟨hi, hj, hbi, hbj⟩, hvalid]
    refine ⟨_, hstep, h.of_writers ?_ ?_ ?_⟩
    · intro hnone a hmem
      obtain ⟨k, hk⟩ := List.mem_iff_getElem?.mp hmem
      obtain ⟨-, ⟨-, hk⟩ | ⟨-, hk⟩⟩ := (moveAssign_valid hi hj).mp hk
      · exact hnone a (List.mem_of_getElem? hk)
      · exact hnone a (List.mem_of_getElem? hk)
    · exact fun k w hsole => ⟨_, hsole.moveAssign hi hj (hinvalid k w hsole)⟩
    · intro k w hbusy hsole
      have hassign := hsole.moveAssign hi hj (hinvalid k w hsole)
      rw [if_neg fun hkj : k = j => hbj (hkj ▸ hbusy)] at hassign
      exact hassign

theorem Inv.step_writerDestroy (h : Inv s) {i : ℕ} (hi : i < s.writers.length)
    (hb : ¬ s.Busy i) : ∃ s', s.step (.writerDestroy i) = some s' ∧ Inv s' := by
  cases hvalid : s.writers[i]?.join with
  | some w =>
    obtain ⟨s', hs', h'⟩ : ∃ s', s.startUpdate (.destroy i) = some s' ∧ Inv s' :=
      h.startUpdate (Option.join_eq_some_iff.mp hvalid) hb
    refine ⟨s', ?_, h'⟩
    rw [State.step, if_pos ⟨hi, hb⟩, hvalid]
    exact hs'
  | none =>
    refine ⟨s, ?_, h⟩
    rw [State.step, if_pos ⟨hi, hb⟩, hvalid]

theorem Inv.step_write (h : Inv s) {alloc : Option Addr} (hlock : s.rcu.locked = false)
    (halloc : ∀ addr ∈ alloc, addr ∉ s.rcu.addrs) :
    ∃ s', s.step (.write alloc) = some s' ∧ Inv s' := by
  obtain ⟨hup, hnone, hlast⟩ := h.unlocked hlock
  obtain ⟨older, back, hnodes⟩ := h.accounted.exists_last
  cases alloc with
  | none =>
    have hwrite := Rcu.write_throws.mpr ⟨hlock, by simp [hnodes], rfl⟩
    refine ⟨s, ?_, h⟩
    rw [State.step, hwrite]
    rfl
  | some addr =>
    have hnew := halloc addr rfl
    have hwrite := Rcu.write_eq_some.mpr ⟨hlock, hnew, older, back, hnodes, rfl⟩
    have hstep : s.step (.write (some addr)) = some { s with
        rcu := s.rcu.append addr back.value
        writers := s.writers ++ [some addr]
        writes := s.writes + 1 } := by
      rw [State.step, hwrite]
      rfl
    have hwrites := h.writes
    rw [hlock] at hwrites
    have hsole : Sole (s.writers ++ [some addr]) s.writers.length addr := by
      refine ⟨by simp, fun k a hk => ?_⟩
      rw [List.getElem?_append] at hk
      by_cases hlt : k < s.writers.length
      · rw [if_pos hlt] at hk
        exact absurd (List.mem_of_getElem? hk) (hnone a)
      · rw [if_neg hlt] at hk
        have hlast := (List.getElem?_eq_some_iff.mp hk).1
        rw [List.length_singleton] at hlast
        omega
    refine ⟨_, hstep,
      { accounted := h.accounted.append hnew back.value
        writes := congrArg (· + 1) hwrites
        updates := h.updates
        writer := ?_ }⟩
    refine (writerInv_none (s := { s with
      rcu := s.rcu.append addr back.value
      writers := s.writers ++ [some addr]
      writes := s.writes + 1 }) hup).mpr (Or.inr ⟨rfl, _, addr, hsole, ?_⟩)
    rw [Rcu.addrs_append]
    simp

/-! ### The steps of `update()` -/

/-- What the end of an `update()` leaves: the published node, and the older ones that
the cleanup examined in use. -/
structure Finished (s s' : State Addr T) : Prop where
  examined : s.examined.map Prod.fst = s.older
  addrs : s'.rcu.addrs = kept s.examined ++ [s'.rcu.current]
  quiet : s.quiet = true → s'.rcu.addrs = [s'.rcu.current]

/-- What every step of `update()` gives, the invariant if it loads no wrapped counter. -/
structure Updated (s s' : State Addr T) : Prop where
  inv : s.Counted .update → Inv s'
  remaining : s'.remaining < s.remaining
  finished : s'.updating = none → Finished s s'

omit [DecidableEq Addr] in
theorem kept_eq_nil {seen : List (Addr × Int32)} (h : ∀ p ∈ seen, p.2 = 0) : kept seen = [] := by
  rw [kept, List.map_eq_nil_iff, List.filter_eq_nil_iff]
  intro p hp
  simp [h p hp]

theorem remaining_load {op : WriterOp} {pre post : List Addr} {it : Addr}
    (hup : s.updating = some (op, .load it)) (hnodup : s.rcu.addrs.Nodup)
    (hcut : s.rcu.addrs = pre ++ it :: post) : s.remaining = 2 * (post.length + 1) := by
  rw [hcut] at hnodup
  simp only [State.remaining, hup]
  rw [hcut, KeyedList.dropWhile_cut hnodup, List.length_cons]

theorem remaining_decide {op : WriterOp} {pre post : List Addr} {it : Addr} {refcount : Int32}
    (hup : s.updating = some (op, .decide it refcount)) (hnodup : s.rcu.addrs.Nodup)
    (hcut : s.rcu.addrs = pre ++ it :: post) : s.remaining = 2 * (post.length + 1) - 1 := by
  rw [hcut] at hnodup
  simp only [State.remaining, hup]
  rw [hcut, KeyedList.dropWhile_cut hnodup, List.length_cons]

theorem step_update_some {op : WriterOp} {pc pc' : UpdatePc Addr} {rcu : Rcu Addr T}
    (hup : s.updating = some (op, pc)) (hstep : s.rcu.updateStep pc = some (rcu, some pc')) :
    s.step .update = some { s.record pc pc' with rcu, updating := some (op, pc') } := by
  simp only [State.step, State.updateStep, hup, Option.bind_some, hstep, Option.map_some]

theorem step_update_none {op : WriterOp} {pc : UpdatePc Addr} {rcu : Rcu Addr T}
    (hup : s.updating = some (op, pc)) (hstep : s.rcu.updateStep pc = some (rcu, none)) :
    s.step .update = some { s with
      rcu, updating := none, writers := op.finish s.writers, unlocks := s.unlocks + 1 } := by
  simp only [State.step, State.updateStep, hup, Option.bind_some, hstep, Option.map_some]

/-- What a step inside `update()` must keep, for the invariant to be kept. -/
theorem Inv.advance (h : Inv s) {op : WriterOp} {pc pc' : UpdatePc Addr} {rcu : Rcu Addr T}
    {older : List Addr} {examined : List (Addr × Int32)} {quiet : Bool}
    (hup : s.updating = some (op, pc)) (hacc : rcu.Accounted s.held)
    (hlocked : rcu.locked = s.rcu.locked) (hlast : rcu.addrs.getLast? = s.rcu.addrs.getLast?)
    (hphase : PhaseInv { s with rcu, updating := some (op, pc'), older, examined, quiet } pc') :
    Inv { s with rcu, updating := some (op, pc'), older, examined, quiet } := by
  have hw := h.writer
  rw [writerInv_some hup] at hw
  obtain ⟨hlock, ⟨w, hsole, hw⟩, -⟩ := hw
  have hupdates := h.updates
  rw [hup] at hupdates
  refine
    { accounted := hacc
      writes := ?_
      updates := hupdates
      writer := ⟨hlocked.trans hlock, ⟨w, hsole, hlast.trans hw⟩, hphase⟩ }
  rw [hlocked]
  exact h.writes

theorem Inv.step_publish (h : Inv s) {op : WriterOp} (hup : s.updating = some (op, .publish)) :
    ∃ s', s.step .update = some s' ∧ Updated s s' := by
  have hw := h.writer
  rw [writerInv_some hup] at hw
  obtain ⟨-, ⟨w, -, hlast⟩, -⟩ := hw
  have hmem := List.mem_of_getLast? hlast
  obtain ⟨front, rest, haddrs⟩ := List.exists_cons_of_ne_nil (List.ne_nil_of_mem hmem)
  have hpublish := Rcu.updateStep_publish (by rw [haddrs]; rfl) hlast
  have hinv : Inv { s with
      rcu := { s.rcu with current := w }, updating := some (op, .load front)
      older := s.rcu.addrs.dropLast, examined := [], quiet := s.readers.all (· = none) } := by
    refine h.advance hup (h.accounted.setCurrent hmem) rfl rfl ⟨hlast, ⟨rest, haddrs, ?_⟩, ?_⟩
    · exact congrArg List.dropLast haddrs
    · intro hquiet
      refine ⟨by simp, fun a ha => ?_⟩
      refine absurd (List.count_eq_zero.mpr fun hmem => ?_) ha
      simpa using List.all_eq_true.mp hquiet _ hmem
  refine ⟨_, step_update_some hup hpublish, fun _ => hinv, ?_, fun hnone => nomatch hnone⟩
  have hcut : s.rcu.addrs = [] ++ front :: rest := haddrs
  have hafter := remaining_load (s := { s with
      rcu := { s.rcu with current := w }, updating := some (op, .load front)
      older := s.rcu.addrs.dropLast, examined := [], quiet := s.readers.all (· = none) })
    rfl h.accounted.nodup hcut
  have hbefore : s.remaining = 2 * s.rcu.addrs.length + 1 := by simp only [State.remaining, hup]
  rw [haddrs, List.length_cons] at hbefore
  exact Nat.lt_of_le_of_lt (Nat.le_of_eq hafter) (by omega)

/-- At the last node, `update()` unlocks and returns. -/
theorem Inv.step_unlock (h : Inv s) {op : WriterOp} {it : Addr}
    (hup : s.updating = some (op, .load it)) (hscan : Scan s it s.examined)
    (hcut : s.rcu.addrs = kept s.examined ++ [it]) (hit : it = s.rcu.current)
    (holder : s.older = s.examined.map Prod.fst) :
    ∃ s', s.step .update = some s' ∧ Updated s s' := by
  have hw := h.writer
  rw [writerInv_some hup] at hw
  obtain ⟨hlock, ⟨w, hsole, hlast⟩, -⟩ := hw
  have hwrites := h.writes
  have hupdates := h.updates
  rw [hlock] at hwrites
  rw [hup] at hupdates
  have hcurrent : s.rcu.addrs.getLast? = some s.rcu.current := by
    rw [hcut, hit]
    simp
  have hinv : Inv { s with
      rcu := { s.rcu with locked := false }, updating := none
      writers := op.finish s.writers, unlocks := s.unlocks + 1 } :=
    { accounted := h.accounted.setLocked false
      writes := hwrites
      updates := hupdates
      writer := Or.inl ⟨rfl, hsole.finish, hcurrent⟩ }
  have hbefore := remaining_load hup h.accounted.nodup hcut
  refine ⟨_, step_update_none hup (Rcu.updateStep_load_last h.accounted hcut), fun _ => hinv, ?_,
    fun _ => { examined := holder.symm, addrs := hcut.trans (by rw [hit]), quiet := ?_ }⟩
  · rw [hbefore]
    exact Nat.succ_pos _
  · intro hquiet
    refine hcut.trans ?_
    rw [kept_eq_nil (hscan.quiet hquiet).1, hit, List.nil_append]

/-- Before the last node, `update()` loads the number of readers. -/
theorem Inv.step_load (h : Inv s) {op : WriterOp} {it following : Addr} {rest : List Addr}
    (hup : s.updating = some (op, .load it)) (hscan : Scan s it s.examined)
    (hlast : s.rcu.addrs.getLast? = some s.rcu.current)
    (hcut : s.rcu.addrs = kept s.examined ++ it :: following :: rest) :
    ∃ s', s.step .update = some s' ∧ Updated s s' := by
  have hne := h.accounted.ne_last hcut hlast
  have hload := Rcu.updateStep_load h.accounted hcut
  have hinv : s.Counted .update → Inv { s with
      rcu := s.rcu, updating := some (op, .decide it (Int32.ofNat (s.held it)))
      examined := s.examined ++ [(it, Int32.ofNat (s.held it))] } := by
    intro hcount
    simp only [State.Counted, hup] at hcount
    refine h.advance hup h.accounted rfl rfl ⟨hlast, hne, fun hzero => ?_, fun hquiet => ?_,
      s.examined, rfl, ⟨hscan.cut, hscan.quiet⟩⟩
    · exact Rcu.eq_zero_of_ofNat (hcount hne) hzero
    · by_contra hheld
      exact hne ((hscan.quiet hquiet).2 it fun hzero => hheld (congrArg Int32.ofNat hzero))
  refine ⟨_, step_update_some hup hload, hinv, ?_, fun hnone => nomatch hnone⟩
  have hbefore := remaining_load hup h.accounted.nodup hcut
  have hafter := remaining_decide (s := { s with
      rcu := s.rcu, updating := some (op, .decide it (Int32.ofNat (s.held it)))
      examined := s.examined ++ [(it, Int32.ofNat (s.held it))] }) rfl h.accounted.nodup hcut
  exact Nat.lt_of_le_of_lt (Nat.le_of_eq hafter) (by omega)

/-- A node that was loaded as unread is still unread, and is erased. -/
theorem Inv.step_erase (h : Inv s) {op : WriterOp} {it following : Addr}
    {seen : List (Addr × Int32)} {rest : List Addr} (hup : s.updating = some (op, .decide it 0))
    (hseen : s.examined = seen ++ [(it, 0)]) (hscan : Scan s it seen) (hzero : s.held it = 0)
    (hlast : s.rcu.addrs.getLast? = some s.rcu.current)
    (hlast' : (kept seen ++ following :: rest).getLast? = some s.rcu.current)
    (hcut : s.rcu.addrs = kept seen ++ it :: following :: rest)
    (holder : s.older = seen.map Prod.fst ++ (it :: following :: rest).dropLast) :
    ∃ s', s.step .update = some s' ∧ Updated s s' := by
  have hne := h.accounted.ne_last hcut hlast
  have hacc := h.accounted.erase hzero hne
  have haddrs : (s.rcu.erase it).addrs = kept seen ++ following :: rest :=
    Rcu.addrs_erase h.accounted hcut
  have hkept : kept s.examined = kept seen := by simp [kept, hseen]
  have hinv : Inv { s with
      rcu := s.rcu.erase it, updating := some (op, .load following) } := by
    refine h.advance hup hacc rfl ?_ ⟨?_, ⟨rest, ?_, ?_⟩, fun hquiet => ?_⟩
    · rw [haddrs, hlast', hlast]
    · exact (congrArg _ haddrs).trans hlast'
    · exact haddrs.trans (by rw [hkept])
    · refine holder.trans ?_
      simp [hseen]
    · obtain ⟨hall, hcurrent⟩ := hscan.quiet hquiet
      refine ⟨fun p hp => ?_, hcurrent⟩
      rcases List.mem_append.mp (hseen ▸ hp) with hp | hp
      · exact hall p hp
      · rw [List.mem_singleton.mp hp]
  refine ⟨_, step_update_some hup (Rcu.updateStep_erase h.accounted hcut), fun _ => hinv, ?_,
    fun hnone => nomatch hnone⟩
  have hbefore := remaining_decide hup h.accounted.nodup hcut
  have hafter := remaining_load (s := { s with
      rcu := s.rcu.erase it, updating := some (op, .load following) }) rfl hacc.nodup haddrs
  rw [List.length_cons] at hbefore
  exact Nat.lt_of_le_of_lt (Nat.le_of_eq hafter) (by omega)

/-- A node that was loaded with readers is kept. -/
theorem Inv.step_keep (h : Inv s) {op : WriterOp} {it following : Addr} {refcount : Int32}
    {seen : List (Addr × Int32)} {rest : List Addr}
    (hup : s.updating = some (op, .decide it refcount)) (hne : refcount ≠ 0)
    (hquiet : s.quiet = true → refcount = 0) (hseen : s.examined = seen ++ [(it, refcount)])
    (hlast : s.rcu.addrs.getLast? = some s.rcu.current)
    (hcut : s.rcu.addrs = kept seen ++ it :: following :: rest)
    (holder : s.older = seen.map Prod.fst ++ (it :: following :: rest).dropLast) :
    ∃ s', s.step .update = some s' ∧ Updated s s' := by
  have hkept : kept s.examined = kept seen ++ [it] := by simp [kept, hseen, hne]
  have hcut' : s.rcu.addrs = kept s.examined ++ following :: rest := by simp [hkept, hcut]
  have hinv : Inv { s with rcu := s.rcu, updating := some (op, .load following) } := by
    refine h.advance hup h.accounted rfl rfl ⟨hlast, ⟨rest, hcut', ?_⟩, fun hq => ?_⟩
    · refine holder.trans ?_
      simp [hseen]
    · exact absurd (hquiet hq) hne
  refine ⟨_, step_update_some hup (Rcu.updateStep_advance h.accounted hne hcut), fun _ => hinv, ?_,
    fun hnone => nomatch hnone⟩
  have hbefore := remaining_decide hup h.accounted.nodup hcut
  have hafter := remaining_load (s := { s with
      rcu := s.rcu, updating := some (op, .load following) }) rfl h.accounted.nodup hcut'
  rw [List.length_cons] at hbefore
  exact Nat.lt_of_le_of_lt (Nat.le_of_eq hafter) (by omega)

/-- Every step of an `update()` in progress is possible. -/
theorem Inv.step_update (h : Inv s) (hup : s.updating.isSome) :
    ∃ s', s.step .update = some s' ∧ Updated s s' := by
  obtain ⟨⟨op, pc⟩, hup⟩ := Option.isSome_iff_exists.mp hup
  have hw := h.writer
  rw [writerInv_some hup] at hw
  obtain ⟨-, -, hphase⟩ := hw
  cases pc with
  | publish => exact h.step_publish hup
  | load it =>
    obtain ⟨hlast, hscan⟩ := hphase
    obtain ⟨post, hcut, holder⟩ := hscan.cut
    rcases KeyedList.getLast?_cut (hcut ▸ hlast) with ⟨rfl, hit⟩ | ⟨following, rest, rfl, -⟩
    · exact h.step_unlock hup hscan hcut hit (by simpa using holder)
    · exact h.step_load hup hscan hlast hcut
  | decide it refcount =>
    obtain ⟨hlast, hne, hzero, hquiet, seen, hseen, hscan⟩ := hphase
    obtain ⟨post, hcut, holder⟩ := hscan.cut
    rcases KeyedList.getLast?_cut (hcut ▸ hlast) with ⟨rfl, hit⟩ | ⟨following, rest, rfl, hlast'⟩
    · exact absurd hit hne
    · by_cases hc : refcount = 0
      · rw [hc] at hup hseen
        exact h.step_erase hup hseen hscan (hzero hc) hlast (hlast' _) hcut holder
      · exact h.step_keep hup hc hquiet hseen hlast hcut holder

omit [DecidableEq Addr] in
theorem of_guard_isSome {P : Prop} {_ : Decidable P} {o : Option (State Addr T)}
    (h : (if P then o else none).isSome) : P := by
  by_contra hP
  rw [if_neg hP] at h
  cases h

/-- Outside `update()`, exactly the enabled steps are possible, and each of them keeps the
invariant. -/
theorem Inv.step_outside (h : Inv s) {op : Op Addr} (hop : op ≠ .update) :
    (s.Enabled op ↔ (s.step op).isSome) ∧ ∀ s', s.step op = some s' → Inv s' := by
  cases op with
  | read => exact possible_iff (fun _ => h.step_read) fun _ => trivial
  | readerMove j =>
    refine possible_iff h.step_readerMove fun hsome => of_guard_isSome hsome
  | readerAssign i j =>
    refine possible_iff (fun hij => h.step_readerAssign hij.1 hij.2)
      fun hsome => of_guard_isSome hsome
  | readerDestroy i =>
    refine possible_iff h.step_readerDestroy fun hsome => of_guard_isSome hsome
  | write alloc =>
    refine possible_iff (fun hen => h.step_write hen.1 hen.2) fun hsome => ?_
    obtain ⟨s', hs'⟩ := Option.isSome_iff_exists.mp hsome
    rw [State.step, Option.map_eq_some_iff] at hs'
    obtain ⟨r, hr, -⟩ := hs'
    cases alloc with
    | none => exact ⟨(Rcu.write_throws.mp hr).1, fun addr haddr => nomatch haddr⟩
    | some addr =>
      obtain ⟨hlock, haddr, -⟩ := Rcu.write_eq_some.mp hr
      exact ⟨hlock, fun a ha => Option.some.inj ha ▸ haddr⟩
  | writerMove j =>
    refine possible_iff (fun hj => h.step_writerMove hj.1 hj.2)
      fun hsome => of_guard_isSome hsome
  | writerAssign i j =>
    refine possible_iff (fun hij => h.step_writerAssign hij.1 hij.2.1 hij.2.2.1 hij.2.2.2)
      fun hsome => of_guard_isSome hsome
  | writerDestroy i =>
    refine possible_iff (fun hi => h.step_writerDestroy hi.1 hi.2)
      fun hsome => of_guard_isSome hsome
  | update => exact absurd rfl hop

/-- **One step.** Exactly the enabled steps are possible, and each of them keeps the
invariant, a cleanup if it loads no wrapped counter. -/
theorem Inv.step (h : Inv s) (op : Op Addr) :
    (s.Enabled op ↔ (s.step op).isSome) ∧
      ∀ s', s.Counted op → s.step op = some s' → Inv s' := by
  by_cases hop : op = .update
  · subst hop
    obtain hup | ⟨p, hup⟩ := Option.eq_none_or_eq_some s.updating
    · simp [State.Enabled, State.step, State.updateStep, hup]
    · obtain ⟨s', hs', hupdated⟩ := h.step_update (by rw [hup, Option.isSome_some])
      simp only [State.Enabled, hs', hup, Option.isSome_some, true_and]
      exact fun s'' hcount heq => Option.some.inj heq ▸ hupdated.inv hcount
  · obtain ⟨hpossible, hkeeps⟩ := h.step_outside hop
    exact ⟨hpossible, fun s' _ => hkeeps s'⟩

/-- Giving up a handle frees no node. -/
theorem Inv.addrs_giveUp (h : Inv s) (i : ℕ) :
    (State.giveUp s.rcu s.readers[i]?.join).addrs = s.rcu.addrs := by
  cases hi : s.readers[i]?.join with
  | none => rfl
  | some t =>
    have hheld : s.held t ≠ 0 := by
      rw [State.held, Ne, List.count_eq_zero, not_not]
      exact List.mem_of_getElem? (Option.join_eq_some_iff.mp hi)
    rw [State.giveUp, Rcu.release_eq h.accounted (h.accounted.mem t hheld), Rcu.addrs_adjust]

/-! ### The operations outside `update()` -/

/-- A step of a handle that frees no node, and gives readers to none but the current
one. -/
structure Quiet (s s' : State Addr T) : Prop where
  addrs : s'.rcu.addrs = s.rcu.addrs
  locked : s'.rcu.locked = s.rcu.locked
  updating : s'.updating = s.updating
  held : ∀ a, a ≠ s.rcu.current → s'.held a ≤ s.held a

/-- What an operation outside `update()` can do: nothing that concerns the sessions, start
one, or start the `update()` that ends one. -/
inductive Outside (s : State Addr T) (op : Op Addr) (s' : State Addr T) : Prop
  | quiet (quiet : Quiet s s') (held : op ≠ .read → ∀ a, s'.held a ≤ s.held a)
  | write {addr : Addr} (free : s.rcu.locked = false) (before : s.updating = none)
      (after : s'.updating = none) (locked : s'.rcu.locked = true)
      (addrs : s'.rcu.addrs = s.rcu.addrs ++ [addr]) (readers : s'.readers = s.readers)
  | finish {op' : WriterOp} (before : s.updating = none)
      (after : s'.updating = some (op', .publish)) (rcu : s'.rcu = s.rcu)
      (readers : s'.readers = s.readers)

omit [DecidableEq Addr] in
theorem startUpdate_eq_some {op : WriterOp} (hs' : s.startUpdate op = some s') :
    s.updating = none ∧
      s' = { s with updating := some (op, .publish), updates := s.updates + 1 } := by
  rw [State.startUpdate, Option.ite_none_left_eq_some, Option.not_isSome_iff_eq_none,
    Option.some.injEq] at hs'
  exact ⟨hs'.1, hs'.2.symm⟩

theorem outside_startUpdate {op : Op Addr} {op' : WriterOp} (hs' : s.startUpdate op' = some s') :
    Outside s op s' := by
  obtain ⟨hup, rfl⟩ := startUpdate_eq_some hs'
  exact .finish hup rfl rfl rfl

/-- An operation that leaves the `Rcu` and the readers alone. -/
theorem Outside.same {op : Op Addr} (hrcu : s'.rcu = s.rcu) (hreaders : s'.readers = s.readers)
    (hupdating : s'.updating = s.updating) : Outside s op s' := by
  have hheld (a : Addr) : s'.held a ≤ s.held a := by rw [State.held, State.held, hreaders]
  exact .quiet ⟨congrArg Rcu.addrs hrcu, congrArg Rcu.locked hrcu, hupdating, fun a _ => hheld a⟩
    fun _ => hheld

theorem le_of_count {m n : ℕ} {P : Prop} [Decidable P]
    (hcount : (m : Int) = n - if P then 1 else 0) : m ≤ n := by
  split at hcount <;> omega

/-- Giving up what a handle held is quiet. -/
theorem Inv.quiet_giveUp (h : Inv s) (i : ℕ) {readers : List (Option Addr)}
    (hcount : ∀ a, (readers.count (some a) : Int) =
      s.held a - if s.readers[i]?.join = some a then 1 else 0) :
    Quiet s { s with rcu := State.giveUp s.rcu s.readers[i]?.join, readers } := by
  have hrest : (State.giveUp s.rcu s.readers[i]?.join).locked = s.rcu.locked := by
    cases hi : s.readers[i]?.join with
    | none => rfl
    | some t =>
      rw [State.giveUp, Rcu.release]
      split <;> rfl
  exact
    { addrs := h.addrs_giveUp i
      locked := hrest
      updating := rfl
      held := fun a _ => le_of_count (hcount a) }

theorem Inv.outside_giveUp (h : Inv s) {op : Op Addr} (i : ℕ) {readers : List (Option Addr)}
    (hcount : ∀ a, (readers.count (some a) : Int) =
      s.held a - if s.readers[i]?.join = some a then 1 else 0) :
    Outside s op { s with rcu := State.giveUp s.rcu s.readers[i]?.join, readers } :=
  .quiet (h.quiet_giveUp i hcount) fun _ a => le_of_count (hcount a)

theorem Inv.outside (h : Inv s) {op : Op Addr} (hop : op ≠ .update) (hs' : s.step op = some s') :
    Outside s op s' := by
  cases op with
  | read =>
    rw [State.step, Rcu.read_eq h.accounted, Option.map_some, Option.some.injEq] at hs'
    subst hs'
    refine .quiet ⟨Rcu.addrs_adjust _ _, rfl, rfl, fun a ha => ?_⟩ fun hne => absurd rfl hne
    change (s.readers ++ [some s.rcu.current]).count (some a) ≤ s.readers.count (some a)
    rw [List.count_append, List.count_singleton]
    simp [Ne.symm ha]
  | readerMove j =>
    rw [State.step, Option.ite_none_right_eq_some, Option.some.injEq] at hs'
    obtain ⟨hj, rfl⟩ := hs'
    have hheld (a : Addr) := Nat.le_of_eq (count_moveConstruct hj a)
    exact .quiet ⟨rfl, rfl, rfl, fun a _ => hheld a⟩ fun _ => hheld
  | readerAssign i j =>
    rw [State.step, Option.ite_none_right_eq_some, Option.some.injEq] at hs'
    obtain ⟨hij, rfl⟩ := hs'
    exact h.outside_giveUp i fun a => count_moveAssign hij.1 hij.2 a
  | readerDestroy i =>
    rw [State.step, Option.ite_none_right_eq_some, Option.some.injEq] at hs'
    obtain ⟨hi, rfl⟩ := hs'
    refine h.outside_giveUp i fun a => ?_
    have hcount := Rcu.count_pointer_set hi none a
    rw [if_neg (by simp : (none : Option Addr) ≠ some a), Int.add_zero] at hcount
    exact hcount
  | write alloc =>
    rw [State.step, Option.map_eq_some_iff] at hs'
    obtain ⟨r, hr, rfl⟩ := hs'
    cases alloc with
    | none =>
      obtain ⟨-, -, rfl⟩ := Rcu.write_throws.mp hr
      exact .same rfl rfl rfl
    | some addr =>
      obtain ⟨hlock, -, older, back, -, rfl⟩ := Rcu.write_eq_some.mp hr
      have hup := (h.unlocked hlock).1
      exact .write hlock hup hup rfl (Rcu.addrs_append _ _) rfl
  | writerMove j =>
    rw [State.step, Option.ite_none_right_eq_some, Option.some.injEq] at hs'
    obtain ⟨-, rfl⟩ := hs'
    exact .same rfl rfl rfl
  | writerAssign i j =>
    rw [State.step, Option.ite_none_right_eq_some] at hs'
    obtain ⟨-, hs'⟩ := hs'
    split at hs'
    · exact outside_startUpdate hs'
    · cases hs'
      exact .same rfl rfl rfl
  | writerDestroy i =>
    rw [State.step, Option.ite_none_right_eq_some] at hs'
    obtain ⟨-, hs'⟩ := hs'
    split at hs'
    · exact outside_startUpdate hs'
    · cases hs'
      exact .same rfl rfl rfl
  | update => exact absurd rfl hop

/-- The other operations neither delay nor disturb an `update()` in progress. -/
theorem Inv.remaining_eq (h : Inv s) (hup : s.updating.isSome) {op : Op Addr}
    (hop : op ≠ .update) (hs' : s.step op = some s') :
    s'.updating = s.updating ∧ s'.remaining = s.remaining := by
  cases h.outside hop hs' with
  | quiet hq =>
    refine ⟨hq.updating, ?_⟩
    rw [State.remaining, State.remaining, hq.updating, hq.addrs]
  | write _ hnone => exact absurd hup (by simp [hnone])
  | finish hnone => exact absurd hup (by simp [hnone])

/-! ### The main result -/

/-- Exact reclamation in the state `s`. -/
structure ExactReclamation (s : State Addr T) : Prop where
  /-- Each counter is the number of valid readers of its node. -/
  refcount : ∀ n ∈ s.rcu.nodes, n.refcount.toInt = s.readers.count (some n.addr)
  nonneg : ∀ n ∈ s.rcu.nodes, 0 ≤ n.refcount.toInt
  /-- The pointers lead to nodes of the list. -/
  readers : ∀ a, some a ∈ s.readers → a ∈ s.rcu.addrs
  writers : ∀ a, some a ∈ s.writers → a ∈ s.rcu.addrs
  current : s.rcu.current ∈ s.rcu.addrs
  /-- A node whose counter was loaded as `0` has no reader when it is erased. -/
  erased : ∀ op it, s.updating = some (op, .decide it 0) → some it ∉ s.readers
  /-- Each `write()` is followed by one unlock, and each `update()` ends with one; one
  writer is valid while the lock is held, and none otherwise. -/
  writes : s.writes = s.unlocks + if s.rcu.locked then 1 else 0
  updates : s.updates = s.unlocks + if s.updating.isSome then 1 else 0
  held : s.rcu.locked = true → ∃! i : ℕ, ∃ a, s.writers[i]? = some (some a)
  free : s.rcu.locked = false → ∀ a, some a ∉ s.writers
  /-- An `update()` ends after finitely many steps of its own, whatever happens in
  between, and leaves exactly the nodes it found in use before the new one. -/
  finished : s.updating.isSome →
    ∃ s', s.step .update = some s' ∧ s'.remaining < s.remaining ∧
      (s'.updating = none → Finished s s')
  undisturbed : s.updating.isSome → ∀ op s', op ≠ .update → s.step op = some s' →
    s'.updating = s.updating ∧ s'.remaining = s.remaining
  /-- Exactly the operations that the lock, the handles and the allocator allow are
  possible. -/
  enabled : ∀ op, s.Enabled op ↔ (s.step op).isSome

/-- The lock is held by the one valid writer. -/
theorem Inv.holder (h : Inv s) (hlock : s.rcu.locked = true) : ∃ i w, Sole s.writers i w := by
  have hw := h.writer
  obtain hup | ⟨⟨op, pc⟩, hup⟩ := Option.eq_none_or_eq_some s.updating
  · rw [writerInv_none hup, hlock] at hw
    rcases hw with ⟨hfree, -⟩ | ⟨-, i, w, hsole, -⟩
    · cases hfree
    · exact ⟨i, w, hsole⟩
  · rw [writerInv_some hup] at hw
    obtain ⟨-, ⟨w, hsole, -⟩, -⟩ := hw
    exact ⟨_, w, hsole⟩

/-- The invariant is exact reclamation, where the counters hold the numbers of readers. -/
theorem Inv.exactReclamation (h : Inv s) (hfit : ∀ a, s.held a < 2 ^ 31) :
    ExactReclamation s := by
  have hshown : ∀ n ∈ s.rcu.nodes, n.refcount.toInt = s.held n.addr := by
    intro n hn
    rw [h.accounted.refcount n hn]
    exact (Rcu.toInt_ofNat_iff _).mpr (hfit n.addr)
  have hvalid : ∀ {a}, some a ∈ s.writers → ∃ i, s.rcu.locked = true ∧ Sole s.writers i a ∧
      s.rcu.addrs.getLast? = some a := by
    intro a ha
    obtain ⟨i, hi⟩ := List.mem_iff_getElem?.mp ha
    obtain ⟨hlock, hsole, hlast, -⟩ := h.valid_writer hi
    exact ⟨i, hlock, hsole, hlast⟩
  exact
    { refcount := hshown
      nonneg := fun n hn => by
        rw [hshown n hn]
        exact Int.natCast_nonneg _
      readers := fun a ha => h.accounted.mem a (by
        rw [State.held, Ne, List.count_eq_zero, not_not]
        exact ha)
      writers := fun a ha => by
        obtain ⟨i, -, -, hlast⟩ := hvalid ha
        exact List.mem_of_getLast? hlast
      current := h.accounted.current
      erased := fun op it hup => by
        have hw := h.writer
        rw [writerInv_some hup] at hw
        obtain ⟨-, -, -, -, hzero, -⟩ := hw
        exact List.count_eq_zero.mp (hzero rfl)
      writes := h.writes
      updates := h.updates
      held := fun hlock => by
        obtain ⟨i, w, hsole⟩ := h.holder hlock
        exact ⟨i, ⟨w, hsole.holds⟩, fun j hj => hsole.only j hj.choose hj.choose_spec⟩
      free := fun hlock => (h.unlocked hlock).2.1
      finished := fun hup => by
        obtain ⟨s', hs', hupdated⟩ := h.step_update hup
        exact ⟨s', hs', hupdated.remaining, hupdated.finished⟩
      undisturbed := fun hup _ _ hop hs' => h.remaining_eq hup hop hs'
      enabled := fun op => (h.step op).1 }

/-- `update()` works on no reader. -/
theorem readers_update (hs' : s.step .update = some s') : s'.readers = s.readers := by
  rw [State.step, State.updateStep, Option.bind_eq_some_iff] at hs'
  obtain ⟨⟨op, pc⟩, -, hs'⟩ := hs'
  obtain ⟨⟨rcu, next⟩, -, rfl⟩ := Option.map_eq_some_iff.mp hs'
  cases next with
  | none => rfl
  | some pc' =>
    change (s.record pc pc').readers = s.readers
    unfold State.record
    split <;> rfl

/-- Only `read()` makes readers. -/
theorem Inv.held_le (h : Inv s) {op : Op Addr} (hop : op ≠ .read) (hs' : s.step op = some s')
    (a : Addr) : s'.held a ≤ s.held a := by
  have hsame (hreaders : s'.readers = s.readers) : s'.held a ≤ s.held a := by
    rw [State.held, State.held, hreaders]
  by_cases hup : op = .update
  · exact hsame (readers_update (hup ▸ hs'))
  cases h.outside hup hs' with
  | quiet _ hheld => exact hheld hop a
  | write _ _ _ _ _ hreaders => exact hsame hreaders
  | finish _ _ _ hreaders => exact hsame hreaders

/-- While the counters hold the numbers of readers, none is wrapped. -/
theorem counted_of_fit (hfit : ∀ a, s.held a < 2 ^ 32) (op : Op Addr) : s.Counted op := by
  unfold State.Counted
  split
  · split
    · next it _ => exact fun _ hdvd => Nat.eq_zero_of_dvd_of_lt hdvd (hfit it)
    · trivial
  · trivial

/-- A `read()` that makes a counter overflow shows. -/
theorem Inv.readersFit (h : Inv s) {op : Op Addr}
    (hexact : ∀ s', s.step op = some s' → ExactReclamation s') : s.ReadersFit op := by
  cases op with
  | read =>
    have hread : s.step .read = some { s with
        rcu := s.rcu.adjust s.rcu.current 1, readers := s.readers ++ [some s.rcu.current] } := by
      rw [State.step, Rcu.read_eq h.accounted]
      rfl
    obtain ⟨s', hs', h'⟩ := h.step_read
    have hmem : s.rcu.current ∈ s'.rcu.addrs := by
      rw [hread, Option.some.injEq] at hs'
      rw [← hs', Rcu.addrs_adjust]
      exact h.accounted.current
    have hheld : s'.held s.rcu.current = s.held s.rcu.current + 1 := by
      rw [hread, Option.some.injEq] at hs'
      rw [← hs', State.held, List.count_append, List.count_singleton_self, State.held]
    obtain ⟨n, hn, hnaddr⟩ := List.mem_map.mp hmem
    have hshown := (hexact s' hs').refcount n hn
    rw [h'.accounted.refcount n hn, hnaddr] at hshown
    rw [State.ReadersFit, ← hheld]
    exact (Rcu.toInt_ofNat_iff _).mp hshown
  | readerMove j => trivial
  | readerAssign i j => trivial
  | readerDestroy i => trivial
  | write alloc => trivial
  | writerMove j => trivial
  | writerAssign i j => trivial
  | writerDestroy i => trivial
  | update => trivial

/-- **When the reclamation of `Rcu<T>` is exact.** For every program of handle operations
interleaved in any way with the steps of `update()`: it is exact in every state of the
run if and only if no `read()` makes the valid readers of a node `2^31` or more. -/
theorem rcu_exact_reclamation_iff (addr : Addr) (v : T) (ops : List (Op Addr)) :
    Always State.step ExactReclamation (State.start addr v) ops ↔
      Along State.step State.ReadersFit (State.start addr v) ops := by
  refine always_iff_along (I := fun s => Inv s ∧ ∀ a, s.held a < 2 ^ 31)
    (fun s hI => hI.1.exactReclamation hI.2) (fun s op s' hI hfit hs' => ?_)
    (fun s op hI hexact => hI.1.readersFit hexact)
    ⟨inv_start addr v, fun _ => Nat.two_pow_pos 31⟩
  have hcount : s.Counted op :=
    counted_of_fit (fun a => (hI.2 a).trans (by decide)) op
  refine ⟨(hI.1.step op).2 s' hcount hs', fun a => ?_⟩
  by_cases hop : op = .read
  · subst hop
    rw [State.step, Rcu.read_eq hI.1.accounted, Option.map_some, Option.some.injEq] at hs'
    subst hs'
    change (s.readers ++ [some s.rcu.current]).count (some a) < 2 ^ 31
    rw [List.count_append]
    by_cases ha : a = s.rcu.current
    · rw [ha, List.count_singleton_self]
      exact hfit
    · rw [List.count_singleton, if_neg (by simpa using Ne.symm ha)]
      exact hI.2 a
  · exact Nat.lt_of_le_of_lt (hI.1.held_le hop hs' a) (hI.2 a)

theorem run_reads (k : ℕ) : run State.step (State.start 0 7) (List.replicate k Op.read) =
    some { (State.start 0 7 : State ℕ ℕ) with
      rcu := { nodes := [⟨0, Int32.ofNat k, 7⟩], current := 0, locked := false }
      readers := List.replicate k (some 0) } := by
  induction k with
  | zero => rfl
  | succ k ih =>
    rw [List.replicate_succ', run_append, ih, Option.bind_some, run_cons]
    simp [State.step, State.start, Rcu.read, KeyedList.modify, Int32.ofNat_add,
      List.replicate_succ']

/-- With `2^31` readers, the counter is negative. -/
theorem rcu_not_exact_reclamation :
    ¬ ∀ s, run State.step (State.start 0 7) (List.replicate (2 ^ 31) Op.read) = some s →
      ExactReclamation s := by
  intro h
  have hshown := (h _ (run_reads (2 ^ 31))).refcount _ (List.mem_singleton_self _)
  rw [List.count_replicate_self] at hshown
  exact Nat.lt_irrefl _ ((Rcu.toInt_ofNat_iff _).mp hshown)

/-- A reader is taken and moved onto itself around a cleanup that found it. -/
def movedReader : List (Op ℕ) :=
  [.read, .write (some 1), .writerMove 0, .writerDestroy 1, .update, .update, .update,
    .readerAssign 0 0, .update]

/-- The state they lead to: the reader is gone, and its node is left to the next
cleanup. -/
def movedReaderState : State ℕ ℕ :=
  { rcu := { nodes := [⟨0, 0, 7⟩, ⟨1, 0, 7⟩], current := 1, locked := false }
    readers := [none], writers := [none, none], updating := none
    writes := 1, updates := 1, unlocks := 1, older := [0], examined := [(0, 1)], quiet := false }

end Brasa.Thread.Handles
