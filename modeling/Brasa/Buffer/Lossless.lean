import Brasa.Buffer.Interleaved

/-!
# Brasa.Buffer.Lossless

**The consumer has to be faster than the producer.** The writer never waits, so the reader
gets the stream that was written only if it keeps up. For one writer and one reader
interleaved on whole heads, as in `Interleaved`, keeping up means that

* at each load of the heads at most `N` positions are unread, and
* at each copy the slot has not been stored again.

A reader that keeps up gets every value once and in order, however many laps there are. Of
a stream without repetitions, and less than `2^32` laps behind, no other reader does
(`lossless_iff_keepsUp`).
-/

namespace Brasa.Buffer.Interleaved

open Brasa.Lib

variable {α : Type*} {N : Capacity}

/-- The reader is fast enough at its next step. -/
def KeepsUp (s : State ℕ α N) (party : Party) : Prop :=
  match party, s.reader with
  | .reader, .load => s.block.writeHead.pos N ≤ s.block.readHead.pos N + N.size
  | .reader, .copy head _ => s.stores ≤ head.pos N + N.size
  | _, _ => True

instance (s : State ℕ α N) (party : Party) : Decidable (KeepsUp s party) :=
  match party, hr : s.reader with
  | .reader, .load =>
    decidable_of_iff (s.block.writeHead.pos N ≤ s.block.readHead.pos N + N.size)
      (by simp only [KeepsUp, hr])
  | .reader, .copy head _ =>
    decidable_of_iff (s.stores ≤ head.pos N + N.size) (by simp only [KeepsUp, hr])
  | .reader, .commit _ _ _ _ => isTrue (by simp only [KeepsUp, hr])
  | .writer, _ => isTrue trivial

/-- The reads have returned the first values of the stream, each once and in order. -/
def Lossless {Lap : Type} (values : ℕ → α) (s : State Lap α N) : Prop :=
  s.delivered.map Delivery.value = (List.range s.delivered.length).map values

/-- The read in progress is of the next position and, from its copy on, has its value. -/
def ReaderIntact (values : ℕ → α) (s : State ℕ α N) : Prop :=
  match s.reader with
  | .load => True
  | .copy head _ => head.pos N = s.delivered.length
  | .commit head value _ _ =>
    head.pos N = s.delivered.length ∧ value = values s.delivered.length

/-- Nothing is lost or dirty, in the reads that have ended and in the one in progress. -/
structure Intact (values : ℕ → α) (s : State ℕ α N) : Prop where
  lossless : Lossless values s
  reader : ReaderIntact values s

variable {values : ℕ → α}

/-! ### Lists of reads -/

/-- The reads took as many positions, at least. -/
theorem Trail.length_le {ds : List (Delivery ℕ α)} {r : ℕ} (h : Trail N values ds r) :
    ds.length ≤ r := by
  induction h with
  | nil => exact Nat.le_refl 0
  | @snoc ds r d _ hread ih =>
    rw [List.length_append, List.length_singleton]
    exact Nat.succ_le_succ (ih.trans hread.le_pos)

/-- One more read returns the next value. -/
theorem map_value_concat {d : Delivery ℕ α} {ds : List (Delivery ℕ α)} :
    (ds ++ [d]).map Delivery.value = (List.range (ds ++ [d]).length).map values ↔
      ds.map Delivery.value = (List.range ds.length).map values ∧ d.value = values ds.length := by
  rw [List.length_append, List.length_singleton, List.range_succ, List.map_append, List.map_append,
    List.map_singleton, List.map_singleton]
  constructor
  · intro heq
    obtain ⟨hinit, hlast⟩ := List.append_inj' heq rfl
    exact ⟨hinit, List.singleton_inj.mp hlast⟩
  · rintro ⟨hinit, hlast⟩
    rw [hinit, hlast]

theorem lossless_wrap {s : State ℕ α N} : Lossless values s.wrap ↔ Lossless values s := by
  have hvalue : Delivery.value ∘ Delivery.wrap = (Delivery.value : Delivery ℕ α → α) := rfl
  rw [Lossless, Lossless, State.wrap, List.map_map, List.length_map, hvalue]

/-! ### The steps -/

/-- What a step can do to the reader. -/
inductive Moves (s : State ℕ α N) : Party → State ℕ α N → Prop
  | writer {s' : State ℕ α N} (reader : s'.reader = s.reader)
      (delivered : s'.delivered = s.delivered)
      (readHead : s'.block.readHead = s.block.readHead) : Moves s .writer s'
  | wait (reader : s.reader = .load)
      (heads : selectHead s.block.writeHead s.block.readHead = none) : Moves s .reader s
  | load {head : Head ℕ} (reader : s.reader = .load) :
      Moves s .reader { s with reader := .copy head s.published }
  | copy {head : Head ℕ} {published : ℕ} {value : α}
      (reader : s.reader = .copy head published)
      (slot : loadSlot s.block.data head.index = some value) :
      Moves s .reader { s with reader := .commit head value published s.stores }
  | commit {head : Head ℕ} {value : α} {published stores : ℕ}
      (reader : s.reader = .commit head value published stores) :
      Moves s .reader
        { s with
          block := { s.block with readHead := advance N head }
          reader := .load
          delivered := s.delivered ++ [{ head, value, published, stores }] }

variable {s s' : State ℕ α N} {party : Party}

theorem moves (hs' : step values s party = some s') : Moves s party s' := by
  cases party with
  | writer =>
    rw [step, writerStep] at hs'
    split at hs'
    · obtain ⟨data, -, rfl⟩ := Option.map_eq_some_iff.mp hs'
      exact .writer rfl rfl rfl
    · cases hs'
      exact .writer rfl rfl rfl
  | reader =>
    rw [step, readerStep] at hs'
    split at hs'
    · next hr =>
      split at hs'
      · next hsel =>
        cases hs'
        exact .wait hr hsel
      · cases hs'
        exact .load hr
    · next head published hr =>
      obtain ⟨value, hvalue, rfl⟩ := Option.map_eq_some_iff.mp hs'
      exact .copy hr hvalue
    · next head value published stores hr =>
      cases hs'
      exact .commit hr

/-- The invariant of a run whose reader keeps up: nothing is lost or dirty, and the reader
is at the first position that it has not delivered. -/
structure Kept (values : ℕ → α) (s : State ℕ α N) : Prop where
  inv : Inv values s
  intact : Intact values s
  next : s.block.readHead = headAt N s.delivered.length

theorem kept_start (values : ℕ → α) (key : UInt64) (block : BufferData UInt32 α N) :
    Kept values (State.start (initializeBlock key block).unwrap) :=
  { inv := inv_start values key block
    intact := { lossless := rfl, reader := trivial }
    next := headAt_zero.symm }

/-- Where the reader is, it is as the invariant of all runs says. -/
theorem Kept.reader (h : Kept values s) :
    s.delivered.length ≤ s.published ∧ ReaderInv values s s.delivered.length := by
  obtain ⟨r, hread, hle, -, hreader⟩ := h.inv.read
  obtain rfl := headAt_inj.mp (hread.symm.trans h.next)
  exact ⟨hle, hreader⟩

/-- What is selected is the next position if and only if at most `N` are unread. -/
theorem Selected.pos_eq_iff {r published : ℕ} {head : Head ℕ} (h : Selected N r published head) :
    head.pos N = r ↔ published ≤ r + N.size := by
  rw [h.eq, pos_headAt]
  omega

theorem Inv.of_step (h : Inv values s) (hs' : step values s party = some s') : Inv values s' := by
  obtain ⟨s'', hs'', hinv⟩ := h.step_total party
  rw [hs', Option.some.injEq] at hs''
  exact hs'' ▸ hinv

/-- A step of a reader that keeps up loses nothing. -/
theorem Kept.step (h : Kept values s) (hkeeps : KeepsUp s party)
    (hs' : step values s party = some s') : Kept values s' := by
  have hinv := h.inv.of_step hs'
  have hread := h.intact.reader
  cases moves hs' with
  | writer hreader hdelivered hhead =>
    refine { inv := hinv, intact := { lossless := ?_, reader := ?_ }, next := ?_ }
    · rw [Lossless, hdelivered]
      exact h.intact.lossless
    · rw [ReaderIntact, hreader, hdelivered]
      exact hread
    · rw [hhead, hdelivered]
      exact h.next
  | wait hr => exact h
  | load hr =>
    obtain ⟨r, hr', -, -, hsel, -⟩ := hinv.read
    obtain rfl := headAt_inj.mp (hr'.symm.trans h.next)
    simp only [KeepsUp, hr] at hkeeps
    rw [h.inv.write, h.next, pos_headAt, pos_headAt] at hkeeps
    exact { inv := hinv
            intact := { lossless := h.intact.lossless, reader := hsel.pos_eq_iff.mpr hkeeps }
            next := h.next }
  | copy hr hslot =>
    obtain ⟨r, -, -, -, -, -, q, -, -, -, hvalue, hq⟩ := hinv.read
    simp only [KeepsUp, hr] at hkeeps
    simp only [ReaderIntact, hr] at hread
    -- the slot has not been stored again
    have hqp := hq.resolve_right (Nat.not_lt.mpr hkeeps)
    exact { inv := hinv
            intact := { lossless := h.intact.lossless
                        reader := ⟨hread, by rw [hvalue, hqp, hread]⟩ }
            next := h.next }
  | @commit head value published stores hr =>
    obtain ⟨-, hreader⟩ := h.reader
    simp only [ReaderInv, hr] at hreader
    simp only [ReaderIntact, hr] at hread
    obtain ⟨hsel, -, -⟩ := hreader
    have hhead : head = headAt N s.delivered.length := by
      rw [← hread.1, hsel.eq, pos_headAt]
    refine { inv := hinv, intact := { lossless := ?_, reader := trivial }, next := ?_ }
    · exact map_value_concat.mpr ⟨h.intact.lossless, hread.2⟩
    · rw [hhead, advance_headAt, List.length_append, List.length_singleton]

/-- Of a stream without repetitions, a reader that does not keep up misses a value or
gets a later one. -/
theorem Kept.keepsUp (h : Kept values s) (hvalues : Function.Injective values)
    (hnext : ∀ s', Interleaved.step values s party = some s' → Intact values s') :
    KeepsUp s party := by
  obtain ⟨s', hs', hinv⟩ := h.inv.step_total party
  have hread := (hnext s' hs').reader
  obtain ⟨hle, hreader⟩ := h.reader
  cases moves hs' with
  | writer => trivial
  | wait hr hsel =>
    rw [h.inv.write, h.next, selectHead_headAt hle] at hsel
    have heq : s.delivered.length = s.published := by
      by_contra hne
      rw [if_neg hne] at hsel
      cases hsel
    simp only [KeepsUp, hr]
    rw [h.inv.write, h.next, pos_headAt, pos_headAt, heq]
    exact Nat.le_add_right _ _
  | load hr =>
    obtain ⟨r, hr', -, -, hsel, -⟩ := hinv.read
    obtain rfl := headAt_inj.mp (hr'.symm.trans h.next)
    simp only [KeepsUp, hr]
    rw [h.inv.write, h.next, pos_headAt, pos_headAt]
    exact hsel.pos_eq_iff.mp hread
  | @copy head published value hr hslot =>
    simp only [ReaderInv, hr] at hreader
    obtain ⟨hsel, hpub⟩ := hreader
    obtain ⟨hpos, hvalue⟩ := hread
    have hlt : head.pos N < s.stores :=
      Nat.lt_of_lt_of_le (hsel.pos_lt.trans_le hpub) h.inv.published_le
    have hhead : head = headAt N (head.pos N) := by rw [hsel.eq, pos_headAt]
    rw [hhead, loadSlot_headAt, Option.some.injEq, hvalue, ← hpos] at hslot
    simp only [KeepsUp, hr]
    exact (h.inv.filled.cell_eq_self_iff hvalues hlt).mp hslot
  | commit hr => simp only [KeepsUp, hr]

/-- No read is in progress if none is in the program. -/
theorem readerIntact_of_idle (hidle : s.wrap.reader = .load) : ReaderIntact values s := by
  simp only [State.wrap] at hidle
  cases hr : s.reader with
  | load => simp only [ReaderIntact, hr]
  | copy head published =>
    rw [hr] at hidle
    cases hidle
  | commit head value published stores =>
    rw [hr] at hidle
    cases hidle

/-- What a read has lost, no later one brings back. -/
theorem Inv.intact_of_step (h : Inv values s) (hvalues : Function.Injective values)
    (hs' : Interleaved.step values s party = some s') (hintact : Intact values s') :
    Intact values s := by
  have hread := hintact.reader
  cases moves hs' with
  | writer hreader hdelivered _ =>
    have hlossless := hintact.lossless
    rw [Lossless, hdelivered] at hlossless
    rw [ReaderIntact, hreader, hdelivered] at hread
    exact ⟨hlossless, hread⟩
  | wait => exact hintact
  | load hr => exact ⟨hintact.lossless, by simp only [ReaderIntact, hr]⟩
  | copy hr =>
    refine ⟨hintact.lossless, ?_⟩
    simp only [ReaderIntact, hr]
    exact hread.1
  | @commit head value published stores hr =>
    obtain ⟨hlossless, hvalue⟩ := map_value_concat.mp hintact.lossless
    obtain ⟨r, -, -, htrail, hreader⟩ := h.read
    simp only [ReaderInv, hr] at hreader
    obtain ⟨hsel, -, q, hpq, -, -, heq, -⟩ := hreader
    -- the value of the next position has been stored at that position only
    have hq : q = s.delivered.length := hvalues (heq.symm.trans hvalue)
    have hpos : head.pos N = s.delivered.length := by
      have hle := htrail.length_le
      rw [hsel.eq, pos_headAt] at hpq ⊢
      omega
    refine ⟨hlossless, ?_⟩
    simp only [ReaderIntact, hr]
    exact ⟨hpos, hvalue⟩

/-! ### The main result -/

/-- A reader that keeps up is not a whole round of the lap counter behind. -/
theorem Inv.gapBelow (h : Inv values s) (hkeeps : KeepsUp s party) : GapBelow s party := by
  obtain ⟨r, hread, -⟩ := h.read
  cases party with
  | writer => trivial
  | reader =>
    cases hr : s.reader with
    | load =>
      simp only [KeepsUp, hr] at hkeeps
      rw [h.write, hread, pos_headAt, pos_headAt] at hkeeps
      have hlap : s.published / N.size ≤ r / N.size + 1 := by
        rw [← Nat.add_div_right _ N.size_pos]
        exact Nat.div_le_div_right hkeeps
      simp only [GapBelow, hr, lapGap, h.write, hread, headAt_lap]
      omega
    | copy head published => simp only [GapBelow, hr]
    | commit head value published stores => simp only [GapBelow, hr]

/-- **When nothing is lost.** Let one writer and one reader be interleaved in any way from
an initialised empty block. If the reader keeps up, the reads have returned the first
values of the stream, each once and in order. If they have, when no read is in progress,
then the reader has kept up, provided that the stream is without repetitions and that the
true lap gap was below `2^32` at each load of the heads. -/
theorem lossless_iff_keepsUp (N : Capacity) (key : UInt64) (block : BufferData UInt32 α N)
    (values : ℕ → α) (schedule : List Party) (s : State UInt32 α N)
    (hrun : run (step values) (State.start (initializeBlock key block)) schedule = some s) :
    (Along (step values) KeepsUp (State.start (initializeBlock key block).unwrap) schedule →
        Lossless values s) ∧
      (Function.Injective values → s.reader = .load →
        Along (step values) GapBelow (State.start (initializeBlock key block).unwrap) schedule →
        Lossless values s →
          Along (step values) KeepsUp (State.start (initializeBlock key block).unwrap)
            schedule) := by
  have hstart := kept_start values key block
  constructor
  · intro hkeeps
    have hgap : Along (step values) GapBelow
        (State.start (initializeBlock key block).unwrap) schedule :=
      Along.of_invariant (I := Inv values) (fun _ _ _ h _ hs' => h.of_step hs')
        (fun _ _ h hk => h.gapBelow hk) hstart.inv hkeeps
    obtain ⟨s', t, hs', ht, rfl, -⟩ := run_wrap hgap
    obtain rfl := Option.some.inj (hrun.symm.trans hs')
    have hkept : Kept values t :=
      run_invariant (fun _ _ _ h hk hs' => h.step hk hs') hstart hkeeps ht
    exact lossless_wrap.mpr hkept.intact.lossless
  · intro hvalues hidle hgap hlossless
    obtain ⟨s', t, hs', ht, rfl, -⟩ := run_wrap hgap
    obtain rfl := Option.some.inj (hrun.symm.trans hs')
    have hintact : Intact values t :=
      { lossless := lossless_wrap.mp hlossless
        reader := readerIntact_of_idle hidle }
    -- nothing was lost at the end, so nothing was lost on the way
    have hall := always_of_last (fun _ _ _ h hs' => h.of_step hs')
      (fun _ _ _ h hs' => h.intact_of_step hvalues hs') hstart.inv ht hintact
    exact (always_iff_along (fun _ h => h.intact) (fun _ _ _ h hk hs' => h.step hk hs')
      (fun _ _ h hnext => h.keepsUp hvalues hnext) hstart).mp hall

/-- Three values through two slots: the reader finds both slots full, and the writer
stores the third value while the second is being read. -/
def pacedSchedule : List Party :=
  [.writer, .writer, .writer, .writer, .reader, .reader, .reader,
    .reader, .writer, .reader, .writer, .reader, .reader, .reader, .reader]

/-- The reader keeps up, and gets the three values. -/
theorem lossless_iff_keepsUp_paced :
    ∃ s : State UInt32 ℕ ⟨2, by decide⟩,
      run (step id) (State.start (initializeBlock 0 emptyBlock)) pacedSchedule = some s ∧
      s.delivered.map Delivery.value = [0, 1, 2] ∧ Lossless id s ∧
      Along (step id) KeepsUp (State.start (initializeBlock 0 emptyBlock).unwrap)
        pacedSchedule := by
  have hrun := Option.eq_some_of_isSome
    (o := run (step id) (State.start (initializeBlock 0 emptyBlock)) pacedSchedule)
    (by decide +kernel)
  have hlossless := (lossless_iff_keepsUp _ 0 emptyBlock id pacedSchedule _ hrun).1
    (by decide +kernel)
  refine ⟨_, hrun, by decide +kernel, hlossless, ?_⟩
  exact (lossless_iff_keepsUp _ 0 emptyBlock id pacedSchedule _ hrun).2
    Function.injective_id rfl (by decide +kernel) hlossless

end Brasa.Buffer.Interleaved
