import Mathlib.Data.List.Induction
import Brasa.Lib.Run
import Brasa.Thread.Rcu

/-!
# Brasa.Thread.Snapshot

**`Rcu<T>` is a linearizable, snapshot-isolated register with no lost update.**
Readers and writer sessions interleave, `read()`, `release()` and `update()` each
being one step.

The abstract model is the `History` of the sessions: the mutations of those that
have executed `update()`, in that order, those of the open one, and, for each
reader, the sessions that had been committed when it was obtained. `Represents`
relates it to the list of nodes, and every step keeps it (`Represents.step`), but for a
cleanup that takes readers for none: `2^32` of them on one version wrap its counter to
`0`. The main result (`rcu_snapshot_isolated_iff`) is that nothing else can go wrong.
-/

namespace Brasa.Thread.Snapshot

open Brasa.Lib

variable {Addr T : Type*}

/-- A step of a reader or of a writer session. Readers have names; `write` throws
(`none`) or is given an address by the allocator. -/
inductive Event (Addr T : Type*)
  /-- `read()`, the reader being called `r`. -/
  | read (r : ℕ)
  /-- The destruction of the reader `r`. -/
  | release (r : ℕ)
  /-- `write()`. -/
  | write (alloc : Option Addr)
  /-- A change of the value of the writer. -/
  | mutate (f : T → T)
  /-- The destruction of the writer. -/
  | destroy

/-- The `Rcu`, the live readers with their pointers, and the pointer of the writer. -/
structure State (Addr T : Type*) where
  rcu : Rcu Addr T
  readers : List (ℕ × Addr)
  writer : Option Addr

namespace State

/-- Before any step. -/
def start (addr : Addr) (v : T) : State Addr T :=
  { rcu := Rcu.create addr v, readers := [], writer := none }

/-- The readers that exist. -/
def names (s : State Addr T) : List ℕ := s.readers.map Prod.fst

/-- How many readers hold a pointer to the node at `a`. -/
def held [DecidableEq Addr] (s : State Addr T) (a : Addr) : ℕ := (s.readers.map Prod.snd).count a

variable [DecidableEq Addr]

/-- The `value()` of the reader `r`. -/
def value (s : State Addr T) (r : ℕ) : Option T :=
  (KeyedList.lookup Prod.fst r s.readers).bind fun p => s.rcu.deref p.2

/-- The value that `read()` gives. -/
def current (s : State Addr T) : Option T := s.rcu.deref s.rcu.current

/-- The `value()` of the writer. -/
def draft (s : State Addr T) : Option T := s.writer.bind s.rcu.deref

/-- One step; `none` if it is not possible. -/
def step (s : State Addr T) : Event Addr T → Option (State Addr T)
  | .read r =>
    if r ∈ s.names then none
    else s.rcu.read.map fun (t, rcu) => { s with rcu, readers := (r, t) :: s.readers }
  | .release r =>
    (KeyedList.lookup Prod.fst r s.readers).map fun p =>
      { s with rcu := s.rcu.release p.2, readers := KeyedList.erase Prod.fst r s.readers }
  | .write alloc =>
    (s.rcu.write alloc).map fun (t, rcu) => { s with rcu, writer := t.or s.writer }
  | .mutate f =>
    s.writer.bind fun t => (s.rcu.mutate t f).map fun rcu => { s with rcu }
  | .destroy =>
    s.writer.bind fun _ => s.rcu.update.map fun rcu => { s with rcu, writer := none }

/-- The steps that readers, writers and the allocator may take: names and addresses
are not reused while in use, a writer is needed to change the value, and `write()`
waits for the lock. -/
def Enabled (s : State Addr T) : Event Addr T → Prop
  | .read r => r ∉ s.names
  | .release r => r ∈ s.names
  | .write alloc => s.rcu.locked = false ∧ ∀ addr ∈ alloc, addr ∉ s.rcu.addrs
  | .mutate _ => s.writer.isSome
  | .destroy => s.writer.isSome

/-- The cleanup of this step, if it is one, finds no reader on a version whose number of
readers is a multiple of `2^32`, so that its counter shows `0`. -/
def Counted (s : State Addr T) : Event Addr T → Prop
  | .destroy => s.writer.isSome → ∀ p ∈ s.readers, ¬ 2 ^ 32 ∣ s.held p.2
  | _ => True

end State

/-! ### The history of the sessions -/

/-- The mutations of the committed sessions, in the order of their updates, those of
the open session, and the sessions that a reader was obtained after. -/
structure History (T : Type*) where
  committed : List (T → T)
  opened : T → T
  snapshots : ℕ → Option (List (T → T))

namespace History

/-- Before any step. -/
def start : History T := { committed := [], opened := id, snapshots := fun _ => none }

/-- What a step adds to the history. -/
def step (h : History T) : Event Addr T → History T
  | .read r => { h with snapshots := Function.update h.snapshots r (some h.committed) }
  | .release r => { h with snapshots := Function.update h.snapshots r none }
  | .write (some _) => { h with opened := id }
  | .write none => h
  | .mutate f => { h with opened := f ∘ h.opened }
  | .destroy => { h with committed := h.committed ++ [h.opened], opened := id }

end History

/-- The history of a sequence of steps. -/
def history (es : List (Event Addr T)) : History T := es.foldl History.step History.start

/-- The value after the sessions with mutations `fs`. -/
def commit (v₀ : T) (fs : List (T → T)) : T := fs.foldl (fun v f => f v) v₀

theorem commit_concat (v₀ : T) (fs : List (T → T)) (f : T → T) :
    commit v₀ (fs ++ [f]) = f (commit v₀ fs) := by
  rw [commit, List.foldl_append]
  rfl

theorem history_concat (es : List (Event Addr T)) (e : Event Addr T) :
    history (es ++ [e]) = (history es).step e := by
  rw [history, List.foldl_append]
  rfl

/-- Is this step the destruction of a writer, and so an `update()`? -/
def Event.isDestroy : Event Addr T → Bool
  | .destroy => true
  | _ => false

/-- One session is committed by each `update()`. -/
theorem committed_length (es : List (Event Addr T)) :
    (history es).committed.length = es.countP Event.isDestroy := by
  induction es using List.reverseRecOn with
  | nil => rfl
  | append_singleton es e ih =>
    rw [history_concat, List.countP_append, ← ih, List.countP_singleton]
    cases e with
    | read r => rfl
    | release r => rfl
    | write alloc => cases alloc <;> rfl
    | mutate f => rfl
    | destroy => simp [History.step, Event.isDestroy]

/-- A reader in the history was obtained by a `read()` and not released since. -/
theorem exists_of_snapshot {es : List (Event Addr T)} {r : ℕ} {fs : List (T → T)}
    (h : (history es).snapshots r = some fs) :
    ∃ es₁ es₂, es = es₁ ++ .read r :: es₂ ∧ (∀ e ∈ es₂, e ≠ .release r) ∧
      fs = (history es₁).committed := by
  induction es using List.reverseRecOn generalizing fs with
  | nil => cases h
  | append_singleton es e ih =>
    -- a step that leaves the entry of `r` alone extends what follows the `read()`
    have hext : (history es).snapshots r = some fs → e ≠ .release r →
        ∃ es₁ es₂, es ++ [e] = es₁ ++ .read r :: es₂ ∧ (∀ e ∈ es₂, e ≠ .release r) ∧
          fs = (history es₁).committed := by
      intro hold hne
      obtain ⟨es₁, es₂, hes, hes₂, hfs⟩ := ih hold
      refine ⟨es₁, es₂ ++ [e], by rw [hes]; simp, fun e' he' => ?_, hfs⟩
      rcases List.mem_append.mp he' with he' | he'
      · exact hes₂ e' he'
      · rw [List.mem_singleton.mp he']
        exact hne
    rw [history_concat] at h
    cases e with
    | read r' =>
      by_cases hr : r = r'
      · rw [hr] at h ⊢
        simp only [History.step, Function.update_self, Option.some.injEq] at h
        exact ⟨es, [], rfl, fun e he => absurd he List.not_mem_nil, h.symm⟩
      · simp only [History.step, Function.update_of_ne hr] at h
        exact hext h (by simp)
    | release r' =>
      by_cases hr : r = r'
      · simp [History.step, hr] at h
      · simp only [History.step, Function.update_of_ne hr] at h
        exact hext h (by simpa using fun heq => hr heq.symm)
    | write alloc =>
      refine hext ?_ (by simp)
      cases alloc <;> exact h
    | mutate f => exact hext h (by simp)
    | destroy => exact hext h (by simp)

/-! ### The history of a state -/

variable [DecidableEq Addr]

/-- The writer of a state: without one, the current version is the last node; with
one, its node is the last, nobody reads it, and it holds the mutations so far of
the current value. -/
def WriterRepresents (v₀ : T) (s : State Addr T) (h : History T) : Prop :=
  match s.writer with
  | none => s.rcu.locked = false ∧ s.rcu.addrs.getLast? = some s.rcu.current
  | some w => s.rcu.locked = true ∧ s.rcu.addrs.getLast? = some w ∧ w ≠ s.rcu.current ∧
      s.held w = 0 ∧ s.rcu.deref w = some (h.opened (commit v₀ h.committed))

/-- The state `s` has the history `h`. -/
structure Represents (v₀ : T) (s : State Addr T) (h : History T) : Prop where
  names : s.names.Nodup
  accounted : s.rcu.Accounted s.held
  current : s.current = some (commit v₀ h.committed)
  snapshots : ∀ r, s.value r = (h.snapshots r).map (commit v₀)
  writer : WriterRepresents v₀ s h

theorem represents_start (addr : Addr) (v₀ : T) :
    Represents v₀ (State.start addr v₀) History.start :=
  { names := List.nodup_nil
    accounted := Rcu.accounted_create addr v₀
    current := by simp [State.current, State.start, Rcu.create, Rcu.deref, KeyedList.lookup,
      History.start, commit]
    snapshots := fun _ => rfl
    writer := ⟨rfl, rfl⟩ }

variable {v₀ : T} {s s' : State Addr T} {h : History T}

/-- A pointer of a live reader is accounted for. -/
theorem State.held_ne_zero {p : ℕ × Addr} (hp : p ∈ s.readers) : s.held p.2 ≠ 0 := by
  rw [State.held, Ne, List.count_eq_zero, not_not]
  exact List.mem_map_of_mem hp

/-- Readers see no change of a node that is not theirs. -/
theorem State.value_congr {rcu : Rcu Addr T}
    (hderef : ∀ a, s.held a ≠ 0 → rcu.deref a = s.rcu.deref a) (r : ℕ) :
    { s with rcu }.value r = s.value r := by
  unfold State.value
  refine Option.bind_congr fun p hp => ?_
  exact hderef p.2 (State.held_ne_zero (KeyedList.lookup_eq_some hp).1)

/-- A writer that has the lock is in the state. -/
theorem Represents.writer_none (h' : Represents v₀ s h) (hlock : s.rcu.locked = false) :
    s.writer = none ∧ s.rcu.addrs.getLast? = some s.rcu.current := by
  have hw := h'.writer
  unfold WriterRepresents at hw
  cases hwriter : s.writer with
  | none =>
    simp only [hwriter] at hw
    exact ⟨rfl, hw.2⟩
  | some w =>
    simp only [hwriter, hlock] at hw
    cases hw.1

theorem Represents.writer_some (h' : Represents v₀ s h) {w : Addr} (hw : s.writer = some w) :
    s.rcu.locked = true ∧ s.rcu.addrs.getLast? = some w ∧ w ≠ s.rcu.current ∧
      s.held w = 0 ∧ s.rcu.deref w = some (h.opened (commit v₀ h.committed)) := by
  have hw' := h'.writer
  simp only [WriterRepresents, hw] at hw'
  exact hw'

/-- The step of a new reader. -/
theorem Represents.read (h' : Represents v₀ s h) {r : ℕ} (hr : r ∉ s.names) :
    ∃ s', s.step (.read r) = some s' ∧
      Represents v₀ s' (h.step (.read r : Event Addr T)) := by
  have hread := Rcu.read_eq h'.accounted
  have hheld : ∀ a, ((List.map Prod.snd ((r, s.rcu.current) :: s.readers)).count a : Int) =
      s.held a + if a = s.rcu.current then 1 else 0 := by
    intro a
    rw [List.map_cons, List.count_cons, State.held]
    by_cases ha : a = s.rcu.current
    · simp [ha]
    · simp [ha, Ne.symm ha]
  have hstep : s.step (.read r) = some { s with
      rcu := s.rcu.adjust s.rcu.current 1, readers := (r, s.rcu.current) :: s.readers } := by
    rw [State.step, if_neg hr, hread]
    rfl
  refine ⟨_, hstep,
    { names := List.nodup_cons.mpr ⟨hr, h'.names⟩
      accounted := h'.accounted.adjust h'.accounted.current hheld
      current := ?_
      snapshots := ?_
      writer := ?_ }⟩
  · exact (Rcu.deref_adjust _ _ _).trans h'.current
  · intro r'
    by_cases heq : r = r'
    · rw [← heq]
      simp only [State.value, KeyedList.lookup, if_true, Option.bind_some, Rcu.deref_adjust,
        History.step, Function.update_self, Option.map_some]
      exact h'.current
    · simp only [State.value, KeyedList.lookup, if_neg heq, Rcu.deref_adjust, History.step,
        Function.update_of_ne (Ne.symm heq)]
      exact h'.snapshots r'
  · have hw := h'.writer
    unfold WriterRepresents at hw ⊢
    cases hwriter : s.writer with
    | none =>
      simp only [hwriter, Rcu.addrs_adjust] at hw ⊢
      exact hw
    | some w =>
      simp only [hwriter, Rcu.addrs_adjust, Rcu.deref_adjust] at hw ⊢
      obtain ⟨hlock, hlast, hne, hzero, hderef⟩ := hw
      refine ⟨hlock, hlast, hne, ?_, hderef⟩
      have hcount := hheld w
      rw [if_neg hne, hzero] at hcount
      exact Int.natCast_eq_zero.mp hcount

/-- The step that releases a reader. -/
theorem Represents.release (h' : Represents v₀ s h) {r : ℕ} (hr : r ∈ s.names) :
    ∃ s', s.step (.release r) = some s' ∧
      Represents v₀ s' (h.step (.release r : Event Addr T)) := by
  obtain ⟨p, hp⟩ : ∃ p, KeyedList.lookup Prod.fst r s.readers = some p := by
    rw [← Option.isSome_iff_exists, ← Option.ne_none_iff_isSome, Ne, KeyedList.lookup_eq_none,
      not_not]
    exact hr
  obtain ⟨hmem, hname⟩ := KeyedList.lookup_eq_some hp
  have hperm := KeyedList.perm_erase hp
  have hcount : ∀ a, s.held a =
      ((KeyedList.erase Prod.fst r s.readers).map Prod.snd).count a + if a = p.2 then 1 else 0 := by
    intro a
    rw [State.held, ← (hperm.map Prod.snd).count_eq, List.map_cons, List.count_cons]
    by_cases ha : a = p.2
    · simp [ha]
    · simp [ha, Ne.symm ha]
  have hmemAddr := h'.accounted.mem p.2 (State.held_ne_zero hmem)
  have hnames : (r :: (KeyedList.erase Prod.fst r s.readers).map Prod.fst).Nodup := by
    have hnodup := ((hperm.map Prod.fst).nodup_iff).mpr h'.names
    rw [List.map_cons, hname] at hnodup
    exact hnodup
  have hstep : s.step (.release r) = some { s with
      rcu := s.rcu.adjust p.2 (-1), readers := KeyedList.erase Prod.fst r s.readers } := by
    rw [State.step, hp, Option.map_some, Rcu.release_eq h'.accounted hmemAddr]
  refine ⟨_, hstep,
    { names := (List.nodup_cons.mp hnames).2
      accounted := h'.accounted.adjust hmemAddr fun a => ?_
      current := ?_
      snapshots := ?_
      writer := ?_ }⟩
  · have ha := hcount a
    rw [ha, State.held, Int.natCast_add, Int.add_assoc]
    split <;> simp
  · exact (Rcu.deref_adjust _ _ _).trans h'.current
  · intro r'
    by_cases heq : r' = r
    · have hnone := KeyedList.lookup_eq_none.mpr (List.nodup_cons.mp hnames).1
      rw [heq]
      simp [State.value, hnone, History.step]
    · simp only [State.value, KeyedList.lookup_erase_ne heq, Rcu.deref_adjust, History.step,
        Function.update_of_ne heq]
      exact h'.snapshots r'
  · have hw := h'.writer
    unfold WriterRepresents at hw ⊢
    cases hwriter : s.writer with
    | none =>
      simp only [hwriter, Rcu.addrs_adjust] at hw ⊢
      exact hw
    | some w =>
      simp only [hwriter, Rcu.addrs_adjust, Rcu.deref_adjust] at hw ⊢
      obtain ⟨hlock, hlast, hne, hzero, hderef⟩ := hw
      refine ⟨hlock, hlast, hne, ?_, hderef⟩
      exact Nat.eq_zero_of_add_eq_zero_right ((hcount w).symm.trans hzero)

/-- The step of a `write()` that returns: the draft is the current value. -/
theorem Represents.write (h' : Represents v₀ s h) {addr : Addr} (hlock : s.rcu.locked = false)
    (haddr : addr ∉ s.rcu.addrs) :
    ∃ s', s.step (.write (some addr)) = some s' ∧ s'.writer = some addr ∧
      Represents v₀ s' (h.step (.write (some addr))) := by
  obtain ⟨hnone, hlast⟩ := h'.writer_none hlock
  obtain ⟨older, back, hnodes⟩ := h'.accounted.exists_last
  have hwrite := Rcu.write_eq_some.mpr ⟨hlock, haddr, older, back, hnodes, rfl⟩
  have hback : s.rcu.current = back.addr := by
    rw [Rcu.addrs, hnodes] at hlast
    simpa using hlast.symm
  have hvalue : s.rcu.deref s.rcu.current = some back.value := by
    rw [hback]
    exact Rcu.deref_of_mem h'.accounted (by rw [hnodes]; simp)
  have hcommit : back.value = commit v₀ h.committed :=
    Option.some.inj (hvalue.symm.trans h'.current)
  have hheld : s.held addr = 0 := by
    by_contra hne
    exact haddr (h'.accounted.mem addr hne)
  have hstep : s.step (.write (some addr)) =
      some { s with rcu := s.rcu.append addr back.value, writer := some addr } := by
    rw [State.step, hwrite]
    rfl
  refine ⟨_, hstep, rfl,
    { names := h'.names
      accounted := h'.accounted.append haddr back.value
      current := ?_
      snapshots := ?_
      writer := ?_ }⟩
  · exact (Rcu.deref_append h'.accounted.current _ _).trans h'.current
  · intro r
    refine Eq.trans ?_ (h'.snapshots r)
    exact State.value_congr (fun a ha => Rcu.deref_append (h'.accounted.mem a ha) _ _) r
  · refine ⟨rfl, ?_, ?_, hheld, ?_⟩
    · simp [Rcu.addrs_append]
    · intro heq
      exact haddr (heq ▸ h'.accounted.current)
    · exact (Rcu.deref_append_self h'.accounted haddr back.value).trans (congrArg some hcommit)

/-- A `write()` that throws changes nothing. -/
theorem step_write_throws (hstep : s.step (.write none) = some s') : s' = s := by
  rw [State.step, Option.map_eq_some_iff] at hstep
  obtain ⟨⟨t, rcu⟩, hwrite, rfl⟩ := hstep
  obtain ⟨-, -, heq⟩ := Rcu.write_throws.mp hwrite
  rw [Prod.mk.injEq] at heq
  rw [heq.1, heq.2]
  rfl

/-- The step that changes the value of the writer. -/
theorem Represents.mutate (h' : Represents v₀ s h) {w : Addr} (hw : s.writer = some w)
    (f : T → T) :
    ∃ s', s.step (.mutate f) = some s' ∧
      Represents v₀ s' (h.step (.mutate f : Event Addr T)) := by
  obtain ⟨hlock, hlast, hne, hzero, hderef⟩ := h'.writer_some hw
  have hmem : w ∈ s.rcu.addrs := List.mem_of_getLast? hlast
  have hother : ∀ a, a ≠ w → (s.rcu.setValue w f).deref a = s.rcu.deref a := by
    intro a ha
    rw [Rcu.deref_setValue, if_neg ha]
  have hstep : s.step (.mutate f) = some { s with rcu := s.rcu.setValue w f } := by
    rw [State.step, hw, Option.bind_some, Rcu.mutate_eq h'.accounted hmem]
    rfl
  refine ⟨_, hstep,
    { names := h'.names
      accounted := h'.accounted.setValue w f
      current := ?_
      snapshots := ?_
      writer := ?_ }⟩
  · exact (hother _ (Ne.symm hne)).trans h'.current
  · intro r
    refine Eq.trans ?_ (h'.snapshots r)
    exact State.value_congr (fun a ha => hother a fun heq => ha (heq ▸ hzero)) r
  · simp only [WriterRepresents, hw, Rcu.addrs_setValue]
    refine ⟨hlock, hlast, hne, hzero, ?_⟩
    rw [Rcu.deref_setValue, if_pos rfl, hderef]
    rfl

/-- The step that destroys the writer: the draft becomes the current value. -/
theorem Represents.destroy (h' : Represents v₀ s h) {w : Addr} (hw : s.writer = some w)
    (hcount : ∀ p ∈ s.readers, ¬ 2 ^ 32 ∣ s.held p.2) :
    ∃ s', s.step .destroy = some s' ∧
      Represents v₀ s' (h.step (.destroy : Event Addr T)) := by
  have hcount' : ∀ a, 2 ^ 32 ∣ s.held a → s.held a = 0 := by
    intro a hdvd
    by_contra hne
    rw [State.held, List.count_eq_zero, not_not] at hne
    obtain ⟨p, hp, rfl⟩ := List.mem_map.mp hne
    exact hcount p hp hdvd
  obtain ⟨-, hlast, -, -, hderef⟩ := h'.writer_some hw
  obtain ⟨rcu, hupdate, hacc, hlock, hcurrent, hlast', hvalue⟩ :=
    h'.accounted.update hcount' hlast
  have hstep : s.step .destroy = some { s with rcu, writer := none } := by
    rw [State.step, hw, Option.bind_some, hupdate]
    rfl
  refine ⟨_, hstep,
    { names := h'.names
      accounted := hacc
      current := ?_
      snapshots := ?_
      writer := ⟨hlock, hlast'.trans (congrArg some hcurrent.symm)⟩ }⟩
  · rw [State.current, hcurrent, hvalue w (Or.inr rfl), hderef, History.step, commit_concat]
  · intro r
    refine Eq.trans ?_ (h'.snapshots r)
    exact State.value_congr (fun a ha => hvalue a (Or.inl ha)) r

/-- A cleanup is possible, whatever its counters show. -/
theorem Represents.possible_destroy (h' : Represents v₀ s h) :
    s.Enabled .destroy ↔ (s.step .destroy).isSome := by
  obtain ⟨older, last, hnodes⟩ := h'.accounted.exists_last
  cases hw : s.writer with
  | none => simp [State.Enabled, State.step, hw]
  | some w => simp [State.Enabled, State.step, hw, Rcu.update_eq hnodes]

/-- Outside `update()`, exactly the enabled steps are possible, and each of them keeps the
representation. -/
theorem Represents.step_outside (h' : Represents v₀ s h) {e : Event Addr T} (he : e ≠ .destroy) :
    (s.Enabled e ↔ (s.step e).isSome) ∧
      ∀ s', s.step e = some s' → Represents v₀ s' (h.step e) := by
  cases e with
  | read r =>
    refine possible_iff h'.read fun hsome => ?_
    by_contra hr
    rw [State.Enabled, not_not] at hr
    rw [State.step, if_pos hr] at hsome
    cases hsome
  | release r =>
    refine possible_iff h'.release fun hsome => ?_
    rw [State.step, Option.isSome_map, ← Option.ne_none_iff_isSome, Ne,
      KeyedList.lookup_eq_none, not_not] at hsome
    exact hsome
  | write alloc =>
    cases alloc with
    | none =>
      refine possible_iff (fun henabled => ⟨s, ?_, h'⟩) fun hsome => ?_
      · obtain ⟨older, back, hnodes⟩ := h'.accounted.exists_last
        have hwrite := Rcu.write_throws.mpr ⟨henabled.1, by simp [hnodes], rfl⟩
        rw [State.step, hwrite]
        rfl
      · obtain ⟨s', hs'⟩ := Option.isSome_iff_exists.mp hsome
        rw [State.step, Option.map_eq_some_iff] at hs'
        obtain ⟨r, hr, -⟩ := hs'
        exact ⟨(Rcu.write_throws.mp hr).1, fun addr haddr => nomatch haddr⟩
    | some addr =>
      refine possible_iff (fun henabled => ?_) fun hsome => ?_
      · obtain ⟨s', hs', -, hrep⟩ := h'.write henabled.1 (henabled.2 addr rfl)
        exact ⟨s', hs', hrep⟩
      · obtain ⟨s', hs'⟩ := Option.isSome_iff_exists.mp hsome
        rw [State.step, Option.map_eq_some_iff] at hs'
        obtain ⟨r, hr, -⟩ := hs'
        obtain ⟨hlock, haddr, -⟩ := Rcu.write_eq_some.mp hr
        refine ⟨hlock, fun a ha => ?_⟩
        rw [← Option.some.inj ha]
        exact haddr
  | mutate f =>
    refine possible_iff (fun henabled => ?_) fun hsome => ?_
    · obtain ⟨w, hw⟩ := Option.isSome_iff_exists.mp henabled
      exact h'.mutate hw f
    · cases hw : s.writer with
      | none => simp [State.step, hw] at hsome
      | some w => simp [State.Enabled, hw]
  | destroy => exact absurd rfl he

/-- **One step.** Exactly the enabled steps are possible, and each of them keeps the
representation, a cleanup if it finds no counter wrapped. -/
theorem Represents.step (h' : Represents v₀ s h) (e : Event Addr T) :
    (s.Enabled e ↔ (s.step e).isSome) ∧
      ∀ s', s.Counted e → s.step e = some s' → Represents v₀ s' (h.step e) := by
  by_cases he : e = .destroy
  · subst he
    refine ⟨h'.possible_destroy, fun s' hcount hs' => ?_⟩
    have henabled : s.Enabled .destroy := h'.possible_destroy.mpr (by rw [hs', Option.isSome_some])
    obtain ⟨w, hw⟩ := Option.isSome_iff_exists.mp henabled
    obtain ⟨s'', hs'', hrep⟩ := h'.destroy hw (hcount henabled)
    rw [hs', Option.some.injEq] at hs''
    exact hs'' ▸ hrep
  · obtain ⟨hpossible, hkeeps⟩ := h'.step_outside he
    exact ⟨hpossible, fun s' _ => hkeeps s'⟩

/-- Every run whose cleanups find no counter wrapped keeps the representation. -/
theorem represents_run {addr : Addr} {es : List (Event Addr T)}
    (hcount : Along State.step State.Counted (State.start addr v₀) es)
    (hrun : run State.step (State.start addr v₀) es = some s) : Represents v₀ s (history es) :=
  run_simulation (Represents v₀) (fun _ _ e s' hR hC hs' => (hR.step e).2 s' hC hs')
    (represents_start addr v₀) hcount hrun

/-- While a reader is not released, the sessions it was obtained after do not change. -/
theorem snapshot_run {h : History T} {r : ℕ} {fs : List (T → T)} (h' : Represents v₀ s h)
    (hr : h.snapshots r = some fs) {es : List (Event Addr T)} (hes : ∀ e ∈ es, e ≠ .release r)
    (hcount : Along State.step State.Counted s es) (hrun : run State.step s es = some s') :
    (es.foldl History.step h).snapshots r = some fs := by
  have hstep : ∀ (s : State Addr T) (h : History T) (e : Event Addr T) (s' : State Addr T),
      Represents v₀ s h ∧ h.snapshots r = some fs → s.Counted e ∧ e ≠ .release r →
        s.step e = some s' →
          Represents v₀ s' (h.step e) ∧ (h.step e).snapshots r = some fs := by
    intro s h e s' hR hne hs'
    obtain ⟨hrep, hsnap⟩ := hR
    refine ⟨(hrep.step e).2 s' hne.1 hs', ?_⟩
    cases e with
    | read r' =>
      -- the name of a live reader is not given away
      have hfresh : s.Enabled (.read r') := (hrep.step _).1.mpr (by rw [hs', Option.isSome_some])
      have hlive : r ∈ s.names := by
        by_contra hnot
        have hvalue := hrep.snapshots r
        rw [State.value, KeyedList.lookup_eq_none.mpr hnot, hsnap] at hvalue
        cases hvalue
      have hother : r ≠ r' := fun heq => hfresh (heq ▸ hlive)
      exact (Function.update_of_ne hother _ _).trans hsnap
    | release r' =>
      have hother : r ≠ r' := fun heq => hne.2 (by rw [heq])
      exact (Function.update_of_ne hother _ _).trans hsnap
    | write alloc => cases alloc <;> exact hsnap
    | mutate f => exact hsnap
    | destroy => exact hsnap
  exact (run_simulation (fun s h => Represents v₀ s h ∧ h.snapshots r = some fs) hstep
    ⟨h', hr⟩ (along_and hcount (along_of_forall_mem fun e he _ => hes e he)) hrun).2

/-! ### The main result -/

/-- What a run `es` from the initial value `v₀` to the state `s` guarantees. The
sessions are numbered in the order of their updates: `(history es).committed` lists
the mutations of each. -/
structure SnapshotIsolated (v₀ : T) (es : List (Event Addr T)) (s : State Addr T) : Prop where
  /-- One session is committed by each `update()`. -/
  updates : (history es).committed.length = es.countP Event.isDestroy
  /-- The current value is that of all the sessions, one after the other. -/
  current : s.current = some (commit v₀ (history es).committed)
  /-- A reader sees the sessions committed before it was obtained, until it is
  released. -/
  snapshot : ∀ es₁ r es₂, es = es₁ ++ .read r :: es₂ → (∀ e ∈ es₂, e ≠ .release r) →
    s.value r = some (commit v₀ (history es₁).committed)
  /-- A reader sees nothing else. -/
  observed : ∀ r v, s.value r = some v → ∃ es₁ es₂, es = es₁ ++ .read r :: es₂ ∧
    (∀ e ∈ es₂, e ≠ .release r) ∧ v = commit v₀ (history es₁).committed
  /-- A session starts from what the previous one committed. -/
  draft : ∀ addr s', s.step (.write (some addr)) = some s' →
    s'.draft = some (commit v₀ (history es).committed)
  /-- A `write()` that throws changes nothing. -/
  throws : ∀ s', s.step (.write none) = some s' → s' = s
  /-- Exactly the steps that the lock, the handles and the allocator allow are
  possible. -/
  enabled : ∀ e, s.Enabled e ↔ (s.step e).isSome

/-- The guarantees after a run whose cleanups find no counter wrapped. -/
theorem snapshotIsolated {addr : Addr} {es : List (Event Addr T)}
    (hcount : Along State.step State.Counted (State.start addr v₀) es)
    (hrun : run State.step (State.start addr v₀) es = some s) : SnapshotIsolated v₀ es s := by
  have hrep := represents_run hcount hrun
  refine
    { updates := committed_length es
      current := hrep.current
      snapshot := ?_
      observed := ?_
      draft := ?_
      throws := fun s' => step_write_throws
      enabled := fun e => (hrep.step e).1 }
  · intro es₁ r es₂ hes hes₂
    have hsplit : es = (es₁ ++ [.read r]) ++ es₂ := by rw [hes]; simp
    rw [hsplit, run_append_eq_some] at hrun
    obtain ⟨m, hm, hrest⟩ := hrun
    rw [hsplit, along_append] at hcount
    have hsnap : (history (es₁ ++ [.read r])).snapshots r = some (history es₁).committed := by
      rw [history_concat]
      exact Function.update_self ..
    have hlast := snapshot_run (represents_run hcount.1 hm) hsnap hes₂ (hcount.2 m hm) hrest
    have hhistory : history es = es₂.foldl History.step (history (es₁ ++ [.read r])) := by
      rw [hsplit, history, List.foldl_append]
      rfl
    rw [hrep.snapshots, hhistory, hlast, Option.map_some]
  · intro r v hv
    rw [hrep.snapshots, Option.map_eq_some_iff] at hv
    obtain ⟨fs, hfs, rfl⟩ := hv
    obtain ⟨es₁, es₂, hes, hes₂, rfl⟩ := exists_of_snapshot hfs
    exact ⟨es₁, es₂, hes, hes₂, rfl⟩
  · intro addr s' hs'
    have hen : s.Enabled (.write (some addr)) :=
      (hrep.step _).1.mpr (by rw [hs', Option.isSome_some])
    obtain ⟨s'', hs'', hwriter, hrep'⟩ := hrep.write hen.1 (hen.2 addr rfl)
    rw [hs', Option.some.injEq] at hs''
    rw [← hs''] at hwriter hrep'
    rw [State.draft, hwriter, Option.bind_some, (hrep'.writer_some hwriter).2.2.2.2]
    rfl

/-- A cleanup that finds a counter wrapped takes the version away from its readers. -/
theorem not_snapshotIsolated {es : List (Event Addr T)} (h' : Represents v₀ s (history es))
    (hcount : ¬ s.Counted .destroy) :
    ∃ s', s.step .destroy = some s' ∧ ¬ SnapshotIsolated v₀ (es ++ [.destroy]) s' := by
  rw [State.Counted, Classical.not_imp] at hcount
  obtain ⟨hwriter, hcount⟩ := hcount
  push Not at hcount
  obtain ⟨p, hp, hdvd⟩ := hcount
  obtain ⟨w, hw⟩ := Option.isSome_iff_exists.mp hwriter
  obtain ⟨-, hlast, -, hzero, -⟩ := h'.writer_some hw
  obtain ⟨older, last, hnodes⟩ := h'.accounted.exists_last
  obtain ⟨s', hs'⟩ := Option.isSome_iff_exists.mp (h'.possible_destroy.mp hwriter)
  refine ⟨s', hs', fun hisolated => ?_⟩
  have hlookup : KeyedList.lookup Prod.fst p.1 s.readers = some p :=
    KeyedList.lookup_of_mem h'.names hp
  -- the reader was obtained by a `read()`, and is not released
  obtain ⟨v, hv⟩ : ∃ v, s.value p.1 = some v := by
    obtain ⟨n, hn, hnp⟩ := List.mem_map.mp (h'.accounted.mem p.2 (State.held_ne_zero hp))
    refine ⟨n.value, ?_⟩
    rw [State.value, hlookup, Option.bind_some, ← hnp, Rcu.deref_of_mem h'.accounted hn]
  rw [h'.snapshots, Option.map_eq_some_iff] at hv
  obtain ⟨fs, hfs, -⟩ := hv
  obtain ⟨es₁, es₂, hes, hes₂, -⟩ := exists_of_snapshot hfs
  have hvalue := hisolated.snapshot es₁ p.1 (es₂ ++ [.destroy]) (by rw [hes]; simp) (by
    intro e he
    rcases List.mem_append.mp he with he | he
    · exact hes₂ e he
    · rw [List.mem_singleton.mp he]
      simp)
  -- but its node is not in the list any more
  rw [State.step, hw, Option.bind_some, Rcu.update_eq hnodes, Option.map_some,
    Option.some.injEq] at hs'
  rw [← hs', State.value, hlookup, Option.bind_some, Rcu.deref, Option.map_eq_some_iff] at hvalue
  obtain ⟨n, hn, -⟩ := hvalue
  obtain ⟨hmem, haddr⟩ := KeyedList.lookup_eq_some hn
  rcases List.mem_append.mp hmem with hmem | hmem
  · obtain ⟨hold, hrefcount⟩ := List.mem_filter.mp hmem
    refine of_decide_eq_true hrefcount ?_
    rw [h'.accounted.refcount n (by rw [hnodes]; exact List.mem_append_left _ hold), haddr]
    exact (Rcu.ofNat_eq_zero_iff _).mpr hdvd
  · have hlast' : last.addr = w := by simpa [Rcu.addrs, hnodes] using hlast
    rw [List.mem_singleton.mp hmem, hlast'] at haddr
    exact State.held_ne_zero hp (haddr ▸ hzero)

/-- **When `Rcu<T>` is a linearizable, snapshot-isolated register with no lost update.**
For every initial value, every set of sessions and readers and every interleaving of their
steps, it is one after every part of the run if and only if no cleanup finds a reader on a
version whose number of readers is a multiple of `2^32`. -/
theorem rcu_snapshot_isolated_iff (v₀ : T) (addr : Addr) (es : List (Event Addr T)) :
    (∀ es₁ es₂ s, es = es₁ ++ es₂ → run State.step (State.start addr v₀) es₁ = some s →
        SnapshotIsolated v₀ es₁ s) ↔
      Along State.step State.Counted (State.start addr v₀) es := by
  constructor
  · -- a run is counted if it is without its last step, and that step finds no counter wrapped
    induction es using List.reverseRecOn with
    | nil => exact fun _ => trivial
    | append_singleton es e ih =>
      intro hall
      have hes := ih fun es₁ es₂ s heq => hall es₁ (es₂ ++ [e]) s (by rw [heq]; simp)
      refine along_append.mpr ⟨hes, fun s hs => along_cons.mpr ⟨?_, fun _ _ => trivial⟩⟩
      by_contra hcount
      have he : e = .destroy := by
        cases e with
        | destroy => rfl
        | read r => exact absurd trivial hcount
        | release r => exact absurd trivial hcount
        | write alloc => exact absurd trivial hcount
        | mutate f => exact absurd trivial hcount
      subst he
      obtain ⟨s', hs', hnot⟩ := not_snapshotIsolated (represents_run hes hs) hcount
      refine hnot (hall (es ++ [.destroy]) [] s' (by simp) ?_)
      rw [run_append_eq_some]
      exact ⟨s, hs, by rw [run_cons, hs']; rfl⟩
  · intro hcount es₁ es₂ s hes hrun
    rw [hes, along_append] at hcount
    exact snapshotIsolated hcount.1 hrun

/-- Readers on the first version, and then a session. -/
def manyReaders (k : ℕ) : List (Event ℕ ℕ) :=
  (List.range k).map .read ++ [.write (some 1), .destroy]

theorem run_reads (k : ℕ) : run State.step (State.start 0 10) ((List.range k).map Event.read) =
    some
      { rcu := { nodes := [⟨0, Int32.ofNat k, 10⟩], current := 0, locked := false }
        readers := (List.range k).reverse.map fun r => (r, 0)
        writer := none } := by
  induction k with
  | zero => rfl
  | succ k ih =>
    rw [List.range_succ, List.map_append, run_append, ih, Option.bind_some, List.map_singleton,
      run_cons]
    simp [State.step, State.names, Rcu.read, KeyedList.modify, Function.comp_def, Int32.ofNat_add]

/-- A multiple of `2^32` readers lose their version to the cleanup of the session. -/
theorem not_snapshotIsolated_manyReaders {k : ℕ} (hpos : 0 < k) (hdvd : 2 ^ 32 ∣ k) :
    ∃ s, run State.step (State.start 0 10) (manyReaders k) = some s ∧
      ¬ SnapshotIsolated 10 (manyReaders k) s := by
  obtain ⟨s, hs, hcount⟩ : ∃ s, run State.step (State.start 0 10)
      ((List.range k).map Event.read ++ [.write (some 1)]) = some s ∧ ¬ s.Counted .destroy := by
    refine ⟨_, by rw [run_append, run_reads, Option.bind_some, run_cons]; rfl, ?_⟩
    intro hcount
    refine hcount rfl (0, 0) ?_ ?_
    · exact List.mem_map.mpr ⟨0, by simpa using hpos, rfl⟩
    · rw [State.held, List.map_map]
      simpa [Function.comp_def] using hdvd
  have hcounted : Along State.step State.Counted (State.start 0 10)
      ((List.range k).map Event.read ++ [.write (some 1)]) := by
    refine along_of_forall_mem fun e he s => ?_
    rcases List.mem_append.mp he with he | he
    · obtain ⟨r, -, rfl⟩ := List.mem_map.mp he
      trivial
    · rw [List.mem_singleton.mp he]
      trivial
  obtain ⟨s', hs', hnot⟩ := not_snapshotIsolated (represents_run hcounted hs) hcount
  have hsplit : manyReaders k =
      ((List.range k).map Event.read ++ [.write (some 1)]) ++ [.destroy] := by simp [manyReaders]
  rw [hsplit]
  refine ⟨s', ?_, hnot⟩
  rw [run_append_eq_some]
  exact ⟨s, hs, by rw [run_cons, hs']; rfl⟩

theorem rcu_not_snapshot_isolated :
    ¬ ∀ s, run State.step (State.start 0 10) (manyReaders (2 ^ 32)) = some s →
      SnapshotIsolated 10 (manyReaders (2 ^ 32)) s := by
  intro h
  obtain ⟨s, hs, hnot⟩ := not_snapshotIsolated_manyReaders (Nat.two_pow_pos 32) (Nat.dvd_refl _)
  exact hnot (h s hs)

end Brasa.Thread.Snapshot
