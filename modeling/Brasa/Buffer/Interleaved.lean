import Brasa.Buffer.Laps
import Brasa.Lib.Run

/-!
# Brasa.Buffer.Interleaved

**One writer and one reader, interleaved**, with every slot access and every load
or store of a whole head taken as one atomic step:

* the writer stores the slot, then publishes the advanced write head;
* the reader loads both heads (and returns `false` when they are equal), then
  copies the selected slot, then stores the read head.

A schedule is a list of parties; each party always has exactly one next step, so
every interleaving is a schedule. The `n`-th value written is `values n`, so in a
block that starts empty the value written at position `p` is `values p`.

Positions consumed are strictly increasing, are skipped only by an overrun, and
the value delivered for a position is the one written there unless the writer
came round to the same slot before the copy (`interleaved_reads`).
-/

namespace Brasa.Buffer

open Brasa.Lib

/-- The two parties of a run. -/
inductive Party
  | writer
  | reader
  deriving DecidableEq, Repr

namespace Interleaved

variable {α : Type*} {N : Capacity}

/-- Where `do_write` is. -/
inductive WriterPc
  /-- About to store the slot. -/
  | store
  /-- About to publish the advanced head. -/
  | publish
  deriving DecidableEq

/-- Where `do_read` is, with its locals. The counts are not part of the program:
they record how many heads had been published at the load of the heads, and how
many slots had been stored at the copy. -/
inductive ReaderPc (Lap : Type) (α : Type*)
  /-- About to load both heads. -/
  | load
  /-- About to copy the slot of the selected head. -/
  | copy (head : Head Lap) (published : ℕ)
  /-- About to store the advanced read head and return `true`. -/
  | commit (head : Head Lap) (value : α) (published stores : ℕ)

/-- A successful `read`: the head it consumed, the value it returned, and the
counts recorded on the way. -/
structure Delivery (Lap : Type) (α : Type*) where
  head : Head Lap
  value : α
  published : ℕ
  stores : ℕ

/-- The state of the run: the block, both programs, the number of slot stores and
publications so far, and the successful reads so far, in order. -/
structure State (Lap : Type) (α : Type*) (N : Capacity) where
  block : BufferData Lap α N
  writer : WriterPc
  reader : ReaderPc Lap α
  stores : ℕ
  published : ℕ
  delivered : List (Delivery Lap α)

/-- Before any step. -/
def State.start {Lap : Type} (block : BufferData Lap α N) : State Lap α N :=
  { block, writer := .store, reader := .load, stores := 0, published := 0, delivered := [] }

section Steps

variable {Lap : Type} [OfNat Lap 0] [OfNat Lap 1] [Add Lap] [Sub Lap] [DecidableEq Lap]

/-- The next step of `do_write`. -/
def writerStep (values : ℕ → α) (s : State Lap α N) : Option (State Lap α N) :=
  match s.writer with
  | .store =>
    (storeSlot s.block.data s.block.writeHead.index (values s.stores)).map fun data =>
      { s with block := { s.block with data }, writer := .publish, stores := s.stores + 1 }
  | .publish =>
    some { s with
      block := { s.block with writeHead := advance N s.block.writeHead }
      writer := .store
      published := s.published + 1 }

/-- The next step of `do_read`. -/
def readerStep (s : State Lap α N) : Option (State Lap α N) :=
  match s.reader with
  | .load =>
    match selectHead s.block.writeHead s.block.readHead with
    | none => some s
    | some head => some { s with reader := .copy head s.published }
  | .copy head published =>
    (loadSlot s.block.data head.index).map fun value =>
      { s with reader := .commit head value published s.stores }
  | .commit head value published stores =>
    some { s with
      block := { s.block with readHead := advance N head }
      reader := .load
      delivered := s.delivered ++ [{ head, value, published, stores }] }

/-- The next step of a party; `none` if it accesses memory outside the slots. -/
def step (values : ℕ → α) (s : State Lap α N) : Party → Option (State Lap α N)
  | .writer => writerStep values s
  | .reader => readerStep s

end Steps

/-! ### The 32-bit state of a true state -/

def ReaderPc.wrap : ReaderPc ℕ α → ReaderPc UInt32 α
  | .load => .load
  | .copy head published => .copy head.wrap published
  | .commit head value published stores => .commit head.wrap value published stores

def Delivery.wrap (d : Delivery ℕ α) : Delivery UInt32 α :=
  { head := d.head.wrap, value := d.value, published := d.published, stores := d.stores }

/-- The state of the code when the true heads are those of `s`. -/
def State.wrap (s : State ℕ α N) : State UInt32 α N :=
  { block := s.block.wrap
    writer := s.writer
    reader := s.reader.wrap
    stores := s.stores
    published := s.published
    delivered := s.delivered.map Delivery.wrap }

/-- When the reader loads the heads, the true lap gap is below `2^32`. -/
def GapBelow (s : State ℕ α N) (party : Party) : Prop :=
  match party, s.reader with
  | .reader, .load => lapGap s.block.writeHead s.block.readHead < 2 ^ 32
  | _, _ => True

instance (s : State ℕ α N) (party : Party) : Decidable (GapBelow s party) :=
  match party, hr : s.reader with
  | .reader, .load =>
    decidable_of_iff (lapGap s.block.writeHead s.block.readHead < 2 ^ 32)
      (by simp only [GapBelow, hr])
  | .reader, .copy _ _ => isTrue (by simp only [GapBelow, hr])
  | .reader, .commit _ _ _ _ => isTrue (by simp only [GapBelow, hr])
  | .writer, _ => isTrue trivial

/-! ### What has been delivered -/

/-- The position a read consumed. -/
def Delivery.pos (N : Capacity) (d : Delivery ℕ α) : ℕ := d.head.pos N

/-- `v` was written at some position `q ≥ p` of the residue class of `p` whose slot
store was among the first `stores`; and `q = p` unless the store of position
`p + N` was, too. -/
def Written (N : Capacity) (values : ℕ → α) (p : ℕ) (v : α) (stores : ℕ) : Prop :=
  ∃ q, p ≤ q ∧ q < stores ∧ q % N.size = p % N.size ∧ v = values q ∧
    (q = p ∨ p + N.size < stores)

/-- A read that found the reader at `r`: it took the oldest position that was not
overwritten among the `published` ones, and returned what was written there. -/
structure Reads (N : Capacity) (values : ℕ → α) (r : ℕ) (d : Delivery ℕ α) : Prop where
  pos : d.pos N = max r (d.published - N.size)
  lt : r < d.published
  written : Written N values (d.pos N) d.value d.stores

/-- The reads of a run, in order, with the reader's position after them. -/
inductive Trail (N : Capacity) (values : ℕ → α) : List (Delivery ℕ α) → ℕ → Prop
  | nil : Trail N values [] 0
  | snoc {ds r d} : Trail N values ds r → Reads N values r d →
      Trail N values (ds ++ [d]) (d.pos N + 1)

theorem Reads.le_pos {values : ℕ → α} {r : ℕ} {d : Delivery ℕ α} (h : Reads N values r d) :
    r ≤ d.pos N := by
  rw [h.pos]
  exact Nat.le_max_left ..

theorem Trail.pos_lt {values : ℕ → α} {ds : List (Delivery ℕ α)} {r : ℕ}
    (h : Trail N values ds r) : ∀ d ∈ ds, d.pos N < r := by
  induction h with
  | nil => intro d hd; simp at hd
  | @snoc ds r d _ hread ih =>
    intro e he
    rcases List.mem_append.mp he with he | he
    · have := ih e he
      have := hread.le_pos
      omega
    · rw [List.mem_singleton.mp he]
      exact Nat.lt_succ_self _

/-- A position past everything consumed is not before the reader. -/
theorem Trail.le_of_past {values : ℕ → α} {ds : List (Delivery ℕ α)} {r q : ℕ}
    (h : Trail N values ds r) (hq : ∀ d ∈ ds, d.pos N < q) : r ≤ q := by
  cases h with
  | nil => exact Nat.zero_le q
  | snoc _ _ => exact hq _ (by simp)

theorem Trail.pairwise {values : ℕ → α} {ds : List (Delivery ℕ α)} {r : ℕ}
    (h : Trail N values ds r) : (ds.map (Delivery.pos N)).Pairwise (· < ·) := by
  induction h with
  | nil => exact List.Pairwise.nil
  | @snoc ds r d htrail hread ih =>
    rw [List.map_append, List.map_singleton, List.pairwise_append]
    refine ⟨ih, List.pairwise_singleton _ _, ?_⟩
    intro p hp q hq
    obtain ⟨e, he, rfl⟩ := List.mem_map.mp hp
    rw [List.mem_singleton.mp hq]
    exact Nat.lt_of_lt_of_le (htrail.pos_lt e he) hread.le_pos

/-- A position is skipped only by a read that found `N` later ones published. -/
theorem Trail.skipped {values : ℕ → α} {ds : List (Delivery ℕ α)} {r : ℕ}
    (h : Trail N values ds r) :
    ∀ {earlier later : List (Delivery ℕ α)} {d : Delivery ℕ α} {q : ℕ},
      ds = earlier ++ d :: later → (∀ e ∈ earlier, e.pos N < q) → q < d.pos N →
        q + N.size < d.published := by
  induction h with
  | nil => intro earlier later d q heq; simp at heq
  | @snoc ds r d htrail hread ih =>
    intro earlier later e q heq hpast hq
    rcases List.eq_nil_or_concat later with rfl | ⟨later, last, rfl⟩
    · -- the skipping read is the last one
      obtain ⟨rfl, hd⟩ := List.append_inj' heq rfl
      obtain rfl : d = e := by simpa using hd
      have := htrail.le_of_past hpast
      rw [hread.pos] at hq
      omega
    · rw [List.concat_eq_append, ← List.cons_append, ← List.append_assoc] at heq
      exact ih (List.append_inj' heq rfl).1 hpast hq

theorem Trail.written {values : ℕ → α} {ds : List (Delivery ℕ α)} {r : ℕ}
    (h : Trail N values ds r) : ∀ d ∈ ds, Written N values (d.pos N) d.value d.stores := by
  induction h with
  | nil => intro d hd; simp at hd
  | @snoc ds r d _ hread ih =>
    intro e he
    rcases List.mem_append.mp he with he | he
    · exact ih e he
    · rw [List.mem_singleton.mp he]
      exact hread.written

/-! ### The invariant -/

/-- The writer's program counter, against its counts. -/
def WriterInv (s : State ℕ α N) : Prop :=
  match s.writer with
  | .store => s.stores = s.published
  | .publish => s.stores = s.published + 1

/-- A head selected with `published` heads published, the reader being at `r`. -/
structure Selected (N : Capacity) (r published : ℕ) (head : Head ℕ) : Prop where
  eq : head = headAt N (max r (published - N.size))
  lt : r < published

/-- The reader's program counter and locals, the reader being at `r`. -/
def ReaderInv (values : ℕ → α) (s : State ℕ α N) (r : ℕ) : Prop :=
  match s.reader with
  | .load => True
  | .copy head published => Selected N r published head ∧ published ≤ s.published
  | .commit head value published stores =>
    Selected N r published head ∧ published ≤ s.published ∧
      Written N values (head.pos N) value stores

/-- What holds after any number of steps. -/
structure Inv (values : ℕ → α) (s : State ℕ α N) : Prop where
  write : s.block.writeHead = headAt N s.published
  writer : WriterInv s
  filled : Ring.Filled values s.stores s.block.data
  read : ∃ r, s.block.readHead = headAt N r ∧ r ≤ s.published ∧ Trail N values s.delivered r ∧
    ReaderInv values s r

theorem inv_start (values : ℕ → α) (key : UInt64) (block : BufferData UInt32 α N) :
    Inv values (State.start (initializeBlock key block).unwrap) :=
  { write := headAt_zero.symm
    writer := rfl
    filled := Ring.filled_zero values _
    read := ⟨0, headAt_zero.symm, Nat.le_refl 0, .nil, trivial⟩ }

theorem Inv.published_le {values : ℕ → α} {s : State ℕ α N} (h : Inv values s) :
    s.published ≤ s.stores := by
  have hw := h.writer
  unfold WriterInv at hw
  split at hw <;> omega

/-- A selected head is at a position that has been published. -/
theorem Selected.pos_lt {r published : ℕ} {head : Head ℕ} (h : Selected N r published head) :
    head.pos N < published := by
  have := h.lt
  have := N.size_pos
  rw [h.eq, pos_headAt]
  omega

/-- The writer's step keeps the invariant, and is always possible. -/
theorem Inv.step_writer {values : ℕ → α} {s : State ℕ α N} (h : Inv values s) :
    ∃ s', writerStep values s = some s' ∧ Inv values s' := by
  obtain ⟨r, hread, hle, htrail, hreader⟩ := h.read
  have hwriter := h.writer
  unfold writerStep
  unfold WriterInv at hwriter
  cases hpc : s.writer with
  | store =>
    simp only [hpc] at hwriter ⊢
    have hstore : storeSlot s.block.data s.block.writeHead.index (values s.stores) =
        some (Function.update s.block.data (Ring.slot N.size s.stores) (values s.stores)) := by
      rw [h.write, storeSlot_headAt, ← hwriter]
    rw [hstore]
    refine ⟨_, rfl, { write := h.write, writer := ?_, filled := h.filled.store, read := ?_ }⟩
    · exact congrArg (· + 1) hwriter
    · exact ⟨r, hread, hle, htrail, hreader⟩
  | publish =>
    simp only [hpc] at hwriter ⊢
    refine ⟨_, rfl, { write := ?_, writer := hwriter, filled := h.filled, read := ?_ }⟩
    · rw [h.write]
      exact advance_headAt _
    · refine ⟨r, hread, Nat.le_succ_of_le hle, htrail, ?_⟩
      unfold ReaderInv at hreader ⊢
      cases hr : s.reader with
      | load => trivial
      | copy head published =>
        simp only [hr] at hreader ⊢
        exact ⟨hreader.1, Nat.le_succ_of_le hreader.2⟩
      | commit head value published stores =>
        simp only [hr] at hreader ⊢
        exact ⟨hreader.1, Nat.le_succ_of_le hreader.2.1, hreader.2.2⟩

/-- The load of the heads selects the oldest published position that was not
overwritten. -/
theorem Inv.step_load {values : ℕ → α} {s : State ℕ α N} (h : Inv values s)
    (hr : s.reader = .load) : ∃ s', readerStep s = some s' ∧ Inv values s' := by
  obtain ⟨r, hread, hle, htrail, -⟩ := h.read
  have hsel : selectHead s.block.writeHead s.block.readHead =
      if r = s.published then none else some (headAt N (max r (s.published - N.size))) := by
    rw [h.write, hread, selectHead_headAt hle]
  unfold readerStep
  rw [hr]
  simp only [hsel]
  by_cases hrw : r = s.published
  · rw [if_pos hrw]
    exact ⟨s, rfl, h⟩
  · rw [if_neg hrw]
    have hlt : r < s.published := Nat.lt_of_le_of_ne hle hrw
    refine ⟨_, rfl, { write := h.write, writer := h.writer, filled := h.filled, read := ?_ }⟩
    exact ⟨r, hread, hle, htrail, ⟨rfl, hlt⟩, Nat.le_refl _⟩

/-- The copy finds, in the slot of a published position, a value written there or
by a later lap. -/
theorem Inv.step_copy {values : ℕ → α} {s : State ℕ α N} (h : Inv values s) {head : Head ℕ}
    {published : ℕ} (hr : s.reader = .copy head published) :
    ∃ s', readerStep s = some s' ∧ Inv values s' := by
  obtain ⟨r, hread, hle, htrail, hreader⟩ := h.read
  simp only [ReaderInv, hr] at hreader
  obtain ⟨hsel, hpub⟩ := hreader
  have hlt : head.pos N < s.stores :=
    Nat.lt_of_lt_of_le (hsel.pos_lt.trans_le hpub) h.published_le
  obtain ⟨q, hpq, hqs, hmod, hcell, hlap⟩ := h.filled.cell_eq hlt
  have hload : loadSlot s.block.data head.index = some (values q) := by
    rw [← hcell, hsel.eq, loadSlot_headAt, pos_headAt]
  unfold readerStep
  rw [hr]
  simp only [hload, Option.map_some]
  refine ⟨_, rfl, { write := h.write, writer := h.writer, filled := h.filled, read := ?_ }⟩
  exact ⟨r, hread, hle, htrail, hsel, hpub, q, hpq, hqs, hmod, rfl, hlap⟩

/-- Storing the read head completes a read. -/
theorem Inv.step_commit {values : ℕ → α} {s : State ℕ α N} (h : Inv values s) {head : Head ℕ}
    {value : α} {published stores : ℕ} (hr : s.reader = .commit head value published stores) :
    ∃ s', readerStep s = some s' ∧ Inv values s' := by
  obtain ⟨r, hread, hle, htrail, hreader⟩ := h.read
  simp only [ReaderInv, hr] at hreader
  obtain ⟨hsel, hpub, hwritten⟩ := hreader
  have hpos : head.pos N = max r (published - N.size) := by rw [hsel.eq, pos_headAt]
  have hread' : Reads N values r { head, value, published, stores } :=
    { pos := hpos, lt := hsel.lt, written := hwritten }
  unfold readerStep
  rw [hr]
  refine ⟨_, rfl, { write := h.write, writer := h.writer, filled := h.filled, read := ?_ }⟩
  refine ⟨head.pos N + 1, ?_, hsel.pos_lt.trans_le hpub, htrail.snoc hread', trivial⟩
  show advance N head = headAt N (head.pos N + 1)
  rw [← advance_headAt, hpos, ← hsel.eq]

/-- Every step keeps the invariant, and is always possible. -/
theorem Inv.step_total {values : ℕ → α} {s : State ℕ α N} (h : Inv values s) (party : Party) :
    ∃ s', step values s party = some s' ∧ Inv values s' := by
  cases party with
  | writer => exact h.step_writer
  | reader =>
    cases hr : s.reader with
    | load => exact h.step_load hr
    | copy head published => exact h.step_copy hr
    | commit head value published stores => exact h.step_commit hr

/-! ### The 32-bit counters follow the unbounded ones -/

/-- A step of the code is a step with unbounded counters. -/
theorem Inv.step_wrap {values : ℕ → α} {s : State ℕ α N} (h : Inv values s) {party : Party}
    (hgap : GapBelow s party) :
    step values s.wrap party = (step values s party).map State.wrap := by
  cases party with
  | writer =>
    show writerStep values s.wrap = (writerStep values s).map State.wrap
    unfold writerStep
    cases hpc : s.writer with
    | store =>
      simp only [State.wrap, hpc, BufferData.wrap, Head.wrap_index, Option.map_map]
      rfl
    | publish =>
      simp only [State.wrap, hpc, BufferData.wrap, ← wrap_advance]
      rfl
  | reader =>
    show readerStep s.wrap = (readerStep s).map State.wrap
    unfold readerStep
    cases hr : s.reader with
    | load =>
      -- the laps are compared here only, so the gap is bounded here only
      simp only [GapBelow, hr] at hgap
      obtain ⟨r, hread, hle, -⟩ := h.read
      have hlap : s.block.readHead.lap ≤ s.block.writeHead.lap := by
        rw [h.write, hread]
        exact Nat.div_le_div_right hle
      have hsel := selectHead_wrap hlap hgap
      simp only [State.wrap, hr, ReaderPc.wrap, BufferData.wrap, hsel]
      cases selectHead s.block.writeHead s.block.readHead with
      | none => simp [State.wrap, hr, ReaderPc.wrap, BufferData.wrap]
      | some head => rfl
    | copy head published =>
      simp only [State.wrap, hr, ReaderPc.wrap, BufferData.wrap, Head.wrap_index, Option.map_map]
      rfl
    | commit head value published stores =>
      simp only [State.wrap, hr, ReaderPc.wrap, BufferData.wrap, ← wrap_advance, Option.map_some,
        List.map_append]
      rfl

/-- A run of the code is one with unbounded counters. -/
theorem run_wrap {key : UInt64} {block : BufferData UInt32 α N} {values : ℕ → α}
    {schedule : List Party}
    (hgap : Along (step values) GapBelow
      (State.start (initializeBlock key block).unwrap) schedule) :
    ∃ (s : State UInt32 α N) (t : State ℕ α N),
      run (step values) (State.start (initializeBlock key block)) schedule = some s ∧
      run (step values) (State.start (initializeBlock key block).unwrap) schedule = some t ∧
      s = t.wrap ∧ Inv values t := by
  have hstep : ∀ (u : State UInt32 α N) (s : State ℕ α N) (party : Party),
      (u = s.wrap ∧ Inv values s) → GapBelow s party →
        ∃ u' s', step values u party = some u' ∧ step values s party = some s' ∧
          (u' = s'.wrap ∧ Inv values s') := by
    intro u s party hR hP
    obtain ⟨hu, h⟩ := hR
    obtain ⟨s', hs', h'⟩ := h.step_total party
    refine ⟨s'.wrap, s', ?_, hs', rfl, h'⟩
    rw [hu, h.step_wrap hP, hs']
    rfl
  have hstart : State.start (initializeBlock key block) =
      (State.start (initializeBlock key block).unwrap).wrap := by
    rw [State.start, State.start, State.wrap, BufferData.wrap_unwrap]
    rfl
  exact run_lockstep (fun (u : State UInt32 α N) (s : State ℕ α N) => u = s.wrap ∧ Inv values s)
    hstep ⟨hstart, inv_start values key block⟩ hgap

/-! ### The main result -/

/-- **Dirty reads, exactly.** From an initialised empty block, for every stream of
values and every interleaving with the true lap gap below `2^32` at each load of
the heads, no step accesses memory outside the slots, the code's state is the
true one with its laps modulo `2^32`, and

* the positions consumed are strictly increasing;
* a position is skipped only by a read at whose load of the heads `N` later
  positions had been published;
* the value delivered for a position `p` is `values q` for some `q ≥ p` of the
  residue class of `p` stored before the copy, and `q = p` unless `p + N` had been
  stored before the copy. -/
theorem interleaved_reads (N : Capacity) (key : UInt64) (block : BufferData UInt32 α N)
    (values : ℕ → α) (schedule : List Party)
    (hgap : Along (step values) GapBelow
      (State.start (initializeBlock key block).unwrap) schedule) :
    ∃ (s : State UInt32 α N) (t : State ℕ α N),
      run (step values) (State.start (initializeBlock key block)) schedule = some s ∧
      run (step values) (State.start (initializeBlock key block).unwrap) schedule = some t ∧
      s = t.wrap ∧
      (t.delivered.map (Delivery.pos N)).Pairwise (· < ·) ∧
      (∀ (earlier later : List (Delivery ℕ α)) (d : Delivery ℕ α) (q : ℕ),
        t.delivered = earlier ++ d :: later → (∀ e ∈ earlier, e.pos N < q) → q < d.pos N →
          q + N.size < d.published) ∧
      ∀ d ∈ t.delivered, Written N values (d.pos N) d.value d.stores := by
  obtain ⟨s, t, hs, ht, hwrap, hinv⟩ := run_wrap hgap
  obtain ⟨r, -, -, htrail, -⟩ := hinv.read
  exact ⟨s, t, hs, ht, hwrap, htrail.pairwise, fun _ _ _ _ => htrail.skipped, htrail.written⟩

/-- Two empty slots. -/
def emptyBlock : BufferData UInt32 ℕ ⟨2, Capacity.two_le_two⟩ :=
  { data := fun _ => 0, writeHead := ⟨0, 0⟩, readHead := ⟨0, 0⟩, key := 0, crc := 0 }

/-- The writer publishes one value, the reader loads the heads, the writer stores
three more, publishing two of them, and the reader copies and commits. -/
def dirtySchedule : List Party :=
  [.writer, .writer, .reader, .writer, .writer, .writer, .writer, .writer, .reader, .reader]

/-- A dirty read: position `0` is delivered with the value of position `2`. -/
theorem interleaved_reads_dirty :
    ∃ (s : State UInt32 ℕ ⟨2, by decide⟩) (t : State ℕ ℕ ⟨2, by decide⟩),
      run (step id) (State.start (initializeBlock 0 emptyBlock)) dirtySchedule = some s ∧
      run (step id) (State.start (initializeBlock 0 emptyBlock).unwrap) dirtySchedule = some t ∧
      s = t.wrap ∧
      (t.delivered.map (Delivery.pos ⟨2, by decide⟩)).Pairwise (· < ·) ∧
      (∀ (earlier later : List (Delivery ℕ ℕ)) (d : Delivery ℕ ℕ) (q : ℕ),
        t.delivered = earlier ++ d :: later → (∀ e ∈ earlier, e.pos ⟨2, by decide⟩ < q) →
          q < d.pos ⟨2, by decide⟩ → q + Capacity.size ⟨2, by decide⟩ < d.published) ∧
      ∀ d ∈ t.delivered,
        Written ⟨2, by decide⟩ id (d.pos ⟨2, by decide⟩) d.value d.stores :=
  interleaved_reads ⟨2, by decide⟩ 0 emptyBlock id dirtySchedule (by decide +kernel)

/-- The same run, evaluated. -/
example : (run (step id) (State.start (initializeBlock 0 emptyBlock)) dirtySchedule).map
    (fun s => s.delivered.map (fun d => (d.head.index, d.value, d.published, d.stores))) =
      some [(0, 2, 1, 4)] := by decide +kernel

end Interleaved

end Brasa.Buffer
