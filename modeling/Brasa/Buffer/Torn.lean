import Brasa.Buffer.Interleaved

/-!
# Brasa.Buffer.Torn

**One writer and one reader at the granularity of the source statements.**
`advance` works in place on the shared write head, and the reader loads its two
fields one after the other, so the reader can see an index equal to `N`, or an
index already reset beside a lap not yet incremented. The order of the accesses is the
one in which the source states them; the members are neither atomic nor volatile, and a
compiler may reorder the accesses or combine them.

Most torn pairs are harmless: the branches of `do_read` select a position that
has been published and that the reader has not passed. Two kinds are not, and
`SafeLoad` says which, at the load of the lap:

* the read lap is ahead of the lap loaded (the reader has taken the last slot of
  a lap that the writer has not counted yet), or
* the index loaded is `N`, unless the writer is still on the reader's lap and the
  buffer is not empty.

A run with fewer than `2^32` laps that avoids both never leaves the slots, and
the positions it consumes are strictly increasing and stored (`torn_reads`).
-/

namespace Brasa.Buffer.Torn

open Brasa.Lib Interleaved

variable {α : Type*} {N : Capacity}

/-- Where `do_write` is. -/
inductive WriterPc
  /-- About to store the slot. -/
  | store
  /-- About to do `++head.index`. -/
  | incIndex
  /-- About to test `head.index == N_`. -/
  | test
  /-- About to do `head.index = 0`. -/
  | resetIndex
  /-- About to do `++head.lap`. -/
  | incLap
  deriving DecidableEq

/-- Where `do_read` is, with its locals. The count of a `commit` records how many
slots had been stored at the copy. -/
inductive ReaderPc (α : Type*)
  /-- About to load `write_head.index`. -/
  | loadIndex
  /-- About to load `write_head.lap`. -/
  | loadLap (index : UInt32)
  /-- About to load the read head. -/
  | loadRead (index lap : UInt32)
  /-- About to copy the slot of the selected head. -/
  | copy (head : Head UInt32)
  /-- About to store the advanced read head and return `true`. -/
  | commit (head : Head UInt32) (value : α) (stores : ℕ)

/-- A successful `read`: the head it consumed, the value it returned, and how many
slots had been stored at the copy. -/
structure Delivery (α : Type*) where
  head : Head UInt32
  value : α
  stores : ℕ

/-- The position of a head whose lap counter has not wrapped. -/
def posOf (N : Capacity) (head : Head UInt32) : ℕ := head.unwrap.pos N

/-- The state of the run: the block, both programs, the number of slot stores so
far, and the successful reads so far, in order. -/
structure State (α : Type*) (N : Capacity) where
  block : BufferData UInt32 α N
  writer : WriterPc
  reader : ReaderPc α
  stores : ℕ
  delivered : List (Delivery α)

/-- Before any step. -/
def State.start (block : BufferData UInt32 α N) : State α N :=
  { block, writer := .store, reader := .loadIndex, stores := 0, delivered := [] }

/-- Replace the shared write head. -/
def State.setWriteHead (s : State α N) (writeHead : Head UInt32) : State α N :=
  { s with block := { s.block with writeHead } }

/-- The next step of `do_write`. -/
def writerStep (values : ℕ → α) (s : State α N) : Option (State α N) :=
  let head := s.block.writeHead
  match s.writer with
  | .store =>
    (storeSlot s.block.data head.index (values s.stores)).map fun data =>
      { s with block := { s.block with data }, writer := .incIndex, stores := s.stores + 1 }
  | .incIndex =>
    some { s.setWriteHead { head with index := head.index + 1 } with writer := .test }
  | .test => some { s with writer := if head.index = N.val then .resetIndex else .store }
  | .resetIndex => some { s.setWriteHead { head with index := 0 } with writer := .incLap }
  | .incLap => some { s.setWriteHead { head with lap := head.lap + 1 } with writer := .store }

/-- The next step of `do_read`. -/
def readerStep (s : State α N) : Option (State α N) :=
  match s.reader with
  | .loadIndex => some { s with reader := .loadLap s.block.writeHead.index }
  | .loadLap index => some { s with reader := .loadRead index s.block.writeHead.lap }
  | .loadRead index lap =>
    match selectHead { index, lap } s.block.readHead with
    | none => some { s with reader := .loadIndex }
    | some head => some { s with reader := .copy head }
  | .copy head =>
    (loadSlot s.block.data head.index).map fun value =>
      { s with reader := .commit head value s.stores }
  | .commit head value stores =>
    some { s with
      block := { s.block with readHead := advance N head }
      reader := .loadIndex
      delivered := s.delivered ++ [{ head, value, stores }] }

/-- The next step of a party; `none` if it accesses memory outside the slots. -/
def step (values : ℕ → α) (s : State α N) : Party → Option (State α N)
  | .writer => writerStep values s
  | .reader => readerStep s

/-- The writer has completed fewer than `2^32` laps. -/
def FewLaps (s : State α N) (_ : Party) : Prop := s.stores < N.size * 2 ^ 32

instance (s : State α N) (party : Party) : Decidable (FewLaps s party) :=
  inferInstanceAs (Decidable (_ < _))

/-- When the reader loads the write lap: its own lap is not ahead, and if the index
it loaded before is `N`, then the laps are equal and the heads are not. -/
def SafeLoad (s : State α N) (party : Party) : Prop :=
  match party, s.reader with
  | .reader, .loadLap index =>
    s.block.readHead.lap ≤ s.block.writeHead.lap ∧
      (index = N.val → s.block.writeHead.lap = s.block.readHead.lap ∧
        s.block.readHead ≠ s.block.writeHead)
  | _, _ => True

instance (s : State α N) (party : Party) : Decidable (SafeLoad s party) := by
  unfold SafeLoad
  split <;> infer_instance

/-! ### Positions of 32-bit heads -/

theorem posOf_eq (head : Head UInt32) :
    posOf N head = head.lap.toNat * N.size + head.index.toNat := rfl

theorem eq_wrap_headAt {head : Head UInt32} (h : head.index.toNat < N.size) :
    head = (headAt N (posOf N head)).wrap := by
  have hat : headAt N (posOf N head) = head.unwrap := headAt_pos h
  rw [hat, Head.wrap_unwrap]

theorem index_eq {head : Head UInt32} (h : head.index.toNat < N.size) :
    head.index = (headAt N (posOf N head)).index :=
  congrArg Head.index (eq_wrap_headAt h)

/-- `advance` moves on by one position, until the last lap is completed. -/
theorem advance_posOf {head : Head UInt32} (h : head.index.toNat < N.size)
    (hlt : posOf N head + 1 < N.size * 2 ^ 32) :
    (advance N head).index.toNat < N.size ∧ posOf N (advance N head) = posOf N head + 1 := by
  have heq : advance N head = (headAt N (posOf N head + 1)).wrap := by
    rw [← advance_headAt, wrap_advance, ← eq_wrap_headAt h]
  rw [heq]
  exact ⟨headAt_index_lt _, (pos_unwrap_wrap_headAt _).trans (Nat.mod_eq_of_lt hlt)⟩

/-- **The `switch` of `do_read`** when the read lap is not ahead: the three heads it
can select. -/
theorem selectHead_cases {index lap : UInt32} {readHead head : Head UInt32}
    (hle : readHead.lap ≤ lap) (h : selectHead { index, lap } readHead = some head) :
    (head = readHead ∧ lap = readHead.lap) ∨
    (head = readHead ∧ lap.toNat = readHead.lap.toNat + 1) ∨
    (head = { index, lap := readHead.lap } ∧ readHead.index < index ∧
      lap.toNat = readHead.lap.toNat + 1) ∨
    (head = { index, lap := lap - 1 } ∧ readHead.lap.toNat + 2 ≤ lap.toNat) := by
  have hsub : (lap - readHead.lap).toNat = lap.toNat - readHead.lap.toNat :=
    UInt32.toNat_sub_of_le _ _ hle
  rw [UInt32.le_iff_toNat_le] at hle
  unfold selectHead at h
  split at h
  · cases h
  dsimp only at h
  by_cases h0 : lap - readHead.lap = 0
  · rw [if_pos h0, Option.some.injEq] at h
    rw [← UInt32.toNat_inj, hsub, UInt32.toNat_zero] at h0
    refine Or.inl ⟨h.symm, ?_⟩
    rw [← UInt32.toNat_inj]
    omega
  rw [if_neg h0] at h
  by_cases h1 : lap - readHead.lap = 1
  · rw [if_pos h1] at h
    rw [← UInt32.toNat_inj, hsub, UInt32.toNat_one] at h1
    by_cases hlt : readHead.index < index
    · rw [if_pos hlt, Option.some.injEq] at h
      exact Or.inr (Or.inr (Or.inl ⟨h.symm, hlt, by omega⟩))
    · rw [if_neg hlt, Option.some.injEq] at h
      exact Or.inr (Or.inl ⟨h.symm, by omega⟩)
  · rw [if_neg h1, Option.some.injEq] at h
    rw [← UInt32.toNat_inj, hsub, UInt32.toNat_zero] at h0
    rw [← UInt32.toNat_inj, hsub, UInt32.toNat_one] at h1
    exact Or.inr (Or.inr (Or.inr ⟨h.symm, by omega⟩))

/-! ### The invariant -/

/-- How many positions the shared write head has gone past: it is one behind the
stores between a slot store and `++head.index`. -/
def published (s : State α N) : ℕ :=
  match s.writer with
  | .incIndex => s.stores - 1
  | _ => s.stores

theorem published_le (s : State α N) : published s ≤ s.stores := by
  unfold published
  split <;> omega

/-- The shared write head in each phase of `do_write`. -/
def WriterInv (s : State α N) : Prop :=
  let head := s.block.writeHead
  match s.writer with
  | .store => head.index.toNat < N.size ∧ posOf N head = s.stores
  | .incIndex => head.index.toNat < N.size ∧ posOf N head + 1 = s.stores
  | .test => head.index.toNat ≤ N.size ∧ posOf N head = s.stores
  | .resetIndex => head.index.toNat = N.size ∧ posOf N head = s.stores
  | .incLap => head.index.toNat = 0 ∧ posOf N head + N.size = s.stores

/-- A head that a read may consume: inside the slots, not before the read head, and
at a published position. -/
structure Consumable (s : State α N) (head : Head UInt32) : Prop where
  index : head.index.toNat < N.size
  le : posOf N s.block.readHead ≤ posOf N head
  lt : posOf N head < published s

/-- The locals of `do_read` in each of its phases. -/
def ReaderInv (values : ℕ → α) (s : State α N) : Prop :=
  match s.reader with
  | .loadIndex => True
  | .loadLap index => index.toNat ≤ N.size ∧
      ∃ m, posOf N s.block.readHead ≤ m * N.size + index.toNat ∧
        m * N.size + index.toNat ≤ published s
  | .loadRead index lap => ∀ head, selectHead { index, lap } s.block.readHead = some head →
      Consumable s head
  | .copy head => Consumable s head
  | .commit head value stores => Consumable s head ∧ Written N values (posOf N head) value stores

/-- A completed read, the read head being at `r`. -/
structure Consumed (N : Capacity) (values : ℕ → α) (r : ℕ) (d : Delivery α) : Prop where
  index : d.head.index.toNat < N.size
  lt : posOf N d.head < r
  written : Written N values (posOf N d.head) d.value d.stores

/-- What holds after any number of steps. -/
structure Inv (values : ℕ → α) (s : State α N) : Prop where
  bound : s.stores ≤ N.size * 2 ^ 32
  writer : WriterInv s
  filled : Ring.Filled values s.stores s.block.data
  index : s.block.readHead.index.toNat < N.size
  le : posOf N s.block.readHead ≤ published s
  reader : ReaderInv values s
  consumed : ∀ d ∈ s.delivered, Consumed N values (posOf N s.block.readHead) d
  sorted : (s.delivered.map fun d => posOf N d.head).Pairwise (· < ·)

theorem inv_start (values : ℕ → α) (key : UInt64) (block : BufferData UInt32 α N) :
    Inv values (State.start (initializeBlock key block)) := by
  have hpos : posOf N (initializeBlock key block).writeHead = 0 := by
    rw [posOf_eq]
    simp [initializeBlock]
  exact
    { bound := Nat.zero_le _
      writer := ⟨N.size_pos, hpos⟩
      filled := Ring.filled_zero values _
      index := N.size_pos
      le := Nat.le_of_eq hpos
      reader := trivial
      consumed := fun d hd => absurd hd List.not_mem_nil
      sorted := List.Pairwise.nil }

/-! ### The writer -/

/-- Whatever the writer has done to its head and its slots, the reader's locals stay
good as long as no position is taken back. -/
theorem ReaderInv.mono {values : ℕ → α} {s s' : State α N} (h : ReaderInv values s)
    (hreader : s'.reader = s.reader) (hread : s'.block.readHead = s.block.readHead)
    (hle : published s ≤ published s') : ReaderInv values s' := by
  have hcons : ∀ head, Consumable s head → Consumable s' head := fun head hc =>
    { index := hc.index, le := hread ▸ hc.le, lt := hc.lt.trans_le hle }
  unfold ReaderInv at h ⊢
  rw [hreader, hread]
  cases hr : s.reader with
  | loadIndex => trivial
  | loadLap index =>
    simp only [hr] at h ⊢
    obtain ⟨hindex, m, hlo, hhi⟩ := h
    exact ⟨hindex, m, hlo, hhi.trans hle⟩
  | loadRead index lap =>
    simp only [hr] at h ⊢
    exact fun head hsel => hcons head (h head hsel)
  | copy head =>
    simp only [hr] at h ⊢
    exact hcons head h
  | commit head value stores =>
    simp only [hr] at h ⊢
    exact ⟨hcons head h.1, h.2⟩

/-- What a step of the writer must keep, for the invariant to be kept. -/
theorem Inv.of_writer {values : ℕ → α} {s s' : State α N} (h : Inv values s)
    (hreader : s'.reader = s.reader) (hread : s'.block.readHead = s.block.readHead)
    (hdelivered : s'.delivered = s.delivered) (hle : published s ≤ published s')
    (hbound : s'.stores ≤ N.size * 2 ^ 32) (hwriter : WriterInv s')
    (hfilled : Ring.Filled values s'.stores s'.block.data) : Inv values s' :=
  { bound := hbound
    writer := hwriter
    filled := hfilled
    index := hread ▸ h.index
    le := hread ▸ h.le.trans hle
    reader := h.reader.mono hreader hread hle
    consumed := by
      rw [hdelivered, hread]
      exact h.consumed
    sorted := by
      rw [hdelivered]
      exact h.sorted }

/-- The writer's step keeps the invariant, and is always possible. -/
theorem Inv.step_writer {values : ℕ → α} {s : State α N} (h : Inv values s)
    (hfew : s.stores < N.size * 2 ^ 32) :
    ∃ s', writerStep values s = some s' ∧ Inv values s' := by
  have hw := h.writer
  have hN := N.size_lt
  have hpos := N.size_pos
  unfold writerStep
  unfold WriterInv at hw
  cases hpc : s.writer with
  | store =>
    simp only [hpc] at hw ⊢
    have hstore : storeSlot s.block.data s.block.writeHead.index (values s.stores) =
        some (Function.update s.block.data (Ring.slot N.size s.stores) (values s.stores)) := by
      rw [index_eq hw.1, storeSlot_headAt, hw.2]
    rw [hstore]
    refine ⟨_, rfl, h.of_writer rfl rfl rfl ?_ hfew ⟨hw.1, ?_⟩ h.filled.store⟩
    · exact published_le s
    · exact congrArg (· + 1) hw.2
  | incIndex =>
    -- from here to the end of `advance` the shared head may hold the index `N`
    simp only [hpc] at hw ⊢
    have hindex : (s.block.writeHead.index + 1).toNat = s.block.writeHead.index.toNat + 1 := by
      rw [UInt32.toNat_add, UInt32.toNat_one]
      omega
    have hhead : posOf N { s.block.writeHead with index := s.block.writeHead.index + 1 } =
        posOf N s.block.writeHead + 1 := by
      rw [posOf_eq, posOf_eq, hindex, Nat.add_assoc]
    refine ⟨_, rfl, h.of_writer rfl rfl rfl ?_ h.bound ⟨?_, ?_⟩ h.filled⟩
    · exact published_le s
    · exact hindex.trans_le hw.1
    · exact hhead.trans hw.2
  | test =>
    simp only [hpc] at hw ⊢
    have hle : published s ≤ s.stores := published_le s
    by_cases hend : s.block.writeHead.index = N.val
    · rw [if_pos hend]
      refine ⟨_, rfl, h.of_writer rfl rfl rfl hle h.bound ⟨?_, hw.2⟩ h.filled⟩
      exact congrArg UInt32.toNat hend
    · rw [if_neg hend]
      refine ⟨_, rfl, h.of_writer rfl rfl rfl hle h.bound ⟨?_, hw.2⟩ h.filled⟩
      exact Nat.lt_of_le_of_ne hw.1 fun heq => hend (UInt32.toNat_inj.mp heq)
  | resetIndex =>
    -- the index is reset before the lap is counted: for a moment the head is a lap back
    simp only [hpc] at hw ⊢
    have hhead : posOf N { s.block.writeHead with index := 0 } + N.size = s.stores := by
      rw [← hw.2, posOf_eq, posOf_eq, hw.1]
      rfl
    exact ⟨_, rfl, h.of_writer rfl rfl rfl (published_le s) h.bound ⟨rfl, hhead⟩ h.filled⟩
  | incLap =>
    simp only [hpc] at hw ⊢
    obtain ⟨hindex, hstores⟩ := hw
    rw [posOf_eq, hindex, Nat.add_zero] at hstores
    -- the lap counter does not wrap: this lap is one of fewer than `2^32`
    have hlap : s.block.writeHead.lap.toNat + 1 < 2 ^ 32 := by
      have hmul : N.size * (s.block.writeHead.lap.toNat + 1) < N.size * 2 ^ 32 := by
        rw [Nat.mul_comm, Nat.add_mul, Nat.one_mul, hstores]
        exact hfew
      exact Nat.lt_of_mul_lt_mul_left hmul
    have hnext : (s.block.writeHead.lap + 1).toNat = s.block.writeHead.lap.toNat + 1 := by
      rw [UInt32.toNat_add, UInt32.toNat_one]
      omega
    have hhead : posOf N { s.block.writeHead with lap := s.block.writeHead.lap + 1 } =
        s.stores := by
      rw [posOf_eq, hnext, hindex, Nat.add_mul, Nat.one_mul, Nat.add_zero, hstores]
    refine ⟨_, rfl, h.of_writer rfl rfl rfl (published_le s) h.bound ⟨?_, hhead⟩ h.filled⟩
    exact hindex.trans_lt hpos

/-! ### The reader -/

/-- The index seen at any moment is that of the number of published positions, in
some lap. -/
theorem WriterInv.index_published {s : State α N} (h : WriterInv s) :
    s.block.writeHead.index.toNat ≤ N.size ∧
      ∃ m, m * N.size + s.block.writeHead.index.toNat = published s := by
  unfold WriterInv at h
  unfold published
  cases hpc : s.writer with
  | store =>
    simp only [hpc] at h ⊢
    exact ⟨Nat.le_of_lt h.1, _, h.2⟩
  | incIndex =>
    simp only [hpc] at h ⊢
    exact ⟨Nat.le_of_lt h.1, _, Nat.eq_sub_of_add_eq h.2⟩
  | test =>
    simp only [hpc] at h ⊢
    exact ⟨h.1, _, h.2⟩
  | resetIndex =>
    simp only [hpc] at h ⊢
    exact ⟨Nat.le_of_eq h.1, _, h.2⟩
  | incLap =>
    simp only [hpc] at h ⊢
    obtain ⟨hindex, hstores⟩ := h
    rw [posOf_eq, hindex, Nat.add_zero] at hstores
    rw [hindex]
    refine ⟨Nat.zero_le _, s.block.writeHead.lap.toNat + 1, ?_⟩
    rw [Nat.add_mul, Nat.one_mul, Nat.add_zero, hstores]

/-- The lap seen at any moment is that of the published positions, or one less when
the lap has just been completed. -/
theorem WriterInv.lap_published {s : State α N} (h : WriterInv s) :
    s.block.writeHead.lap.toNat * N.size ≤ published s ∧
      (published s < s.block.writeHead.lap.toNat * N.size + N.size →
        published s = posOf N s.block.writeHead) := by
  unfold WriterInv at h
  unfold published
  cases hpc : s.writer with
  | store =>
    simp only [hpc, posOf_eq] at h ⊢
    omega
  | incIndex =>
    simp only [hpc, posOf_eq] at h ⊢
    omega
  | test =>
    simp only [hpc, posOf_eq] at h ⊢
    omega
  | resetIndex =>
    simp only [hpc, posOf_eq] at h ⊢
    omega
  | incLap =>
    simp only [hpc, posOf_eq] at h ⊢
    omega

/-- While the reader is on the lap the writer shows, and the heads differ, the read
position has been published. -/
theorem Inv.read_lt {values : ℕ → α} {s : State α N} (h : Inv values s)
    (hlap : s.block.writeHead.lap = s.block.readHead.lap)
    (hne : s.block.readHead ≠ s.block.writeHead) :
    posOf N s.block.readHead < published s := by
  refine Nat.lt_of_le_of_ne h.le fun heq => hne ?_
  have hindex := h.index
  have hpos := posOf_eq (N := N) s.block.readHead
  have hpub : posOf N s.block.readHead = posOf N s.block.writeHead := by
    rw [heq]
    refine h.writer.lap_published.2 ?_
    rw [hlap]
    omega
  rw [posOf_eq, posOf_eq, hlap] at hpub
  exact Head.ext (UInt32.toNat_inj.mp (Nat.add_left_cancel hpub)) hlap.symm

/-- **What a safe load of the lap gives**: whatever head the `switch` then selects may
be consumed, at any later moment. -/
theorem Inv.consumable {values : ℕ → α} {s : State α N} (h : Inv values s) {index : UInt32}
    (hr : s.reader = .loadLap index) (hsafe : SafeLoad s .reader) {head : Head UInt32}
    (hsel : selectHead { index, lap := s.block.writeHead.lap } s.block.readHead = some head) :
    Consumable s head := by
  have hreader := h.reader
  simp only [ReaderInv, hr] at hreader
  simp only [SafeLoad, hr] at hsafe
  obtain ⟨hindex, m, hlo, hhi⟩ := hreader
  obtain ⟨hle, hend⟩ := hsafe
  have hri := h.index
  have hlap := h.writer.lap_published.1
  have hrpos := posOf_eq (N := N) s.block.readHead
  -- away from the reader's lap, the index loaded is inside the slots
  have hinside (hne : s.block.writeHead.lap ≠ s.block.readHead.lap) : index.toNat < N.size := by
    refine Nat.lt_of_le_of_ne hindex fun heq => hne (hend (UInt32.toNat_inj.mp heq)).1
  rcases selectHead_cases hle hsel with ⟨rfl, heq⟩ | ⟨rfl, heq⟩ | ⟨rfl, hlt, heq⟩ | ⟨rfl, hge⟩
  · -- the same lap: the read position is published, or the pair loaded is the read head
    refine ⟨hri, Nat.le_refl _, Nat.lt_of_le_of_ne h.le fun hempty => ?_⟩
    by_cases hN : index = N.val
    · exact absurd hempty (Nat.ne_of_lt (h.read_lt heq (hend hN).2))
    · have hlt : index.toNat < N.size :=
        Nat.lt_of_le_of_ne hindex fun hc => hN (UInt32.toNat_inj.mp hc)
      have heqpos : m * N.size + index.toNat =
          s.block.readHead.lap.toNat * N.size + s.block.readHead.index.toNat := by omega
      have hsame : index = s.block.readHead.index := by
        have hmod := congrArg (· % N.size) heqpos
        simp only [Nat.mul_add_mod_self_right, Nat.mod_eq_of_lt hlt, Nat.mod_eq_of_lt hri] at hmod
        exact UInt32.toNat_inj.mp hmod
      rw [selectHead, if_pos ⟨hsame.symm, heq.symm⟩] at hsel
      cases hsel
  · -- one lap ahead: the rest of the reader's lap is published
    rw [heq, Nat.add_mul, Nat.one_mul] at hlap
    exact ⟨hri, Nat.le_refl _, by omega⟩
  · have hin := hinside fun hc => by rw [hc] at heq; omega
    have hpos : posOf N { index, lap := s.block.readHead.lap } =
        s.block.readHead.lap.toNat * N.size + index.toNat := rfl
    rw [heq, Nat.add_mul, Nat.one_mul] at hlap
    rw [UInt32.lt_iff_toNat_lt] at hlt
    exact ⟨hin, by omega, by omega⟩
  · -- further ahead: the lap before the one loaded
    have hin := hinside fun hc => by rw [hc] at hge; omega
    obtain ⟨k, hk⟩ := Nat.exists_eq_add_of_le hge
    have hone : (1 : UInt32) ≤ s.block.writeHead.lap := by
      rw [UInt32.le_iff_toNat_le, UInt32.toNat_one]
      omega
    have hback : (s.block.writeHead.lap - 1).toNat = s.block.readHead.lap.toNat + 1 + k := by
      rw [UInt32.toNat_sub_of_le _ _ hone, UInt32.toNat_one]
      omega
    have hpos : posOf N { index, lap := s.block.writeHead.lap - 1 } =
        s.block.readHead.lap.toNat * N.size + N.size + k * N.size + index.toNat := by
      rw [posOf_eq, hback, Nat.add_mul, Nat.add_mul, Nat.one_mul]
    rw [hk, Nat.add_mul, Nat.add_mul, Nat.two_mul] at hlap
    exact ⟨hin, by omega, by omega⟩

theorem Consumable.setReader {s : State α N} {head : Head UInt32} (h : Consumable s head)
    (reader : ReaderPc α) : Consumable { s with reader } head :=
  { index := h.index, le := h.le, lt := h.lt }

/-- The reader's step keeps the invariant when it changes nothing but its locals. -/
theorem Inv.setReader {values : ℕ → α} {s : State α N} (h : Inv values s) {reader : ReaderPc α}
    (hreader : ReaderInv values { s with reader }) : Inv values { s with reader } :=
  { bound := h.bound, writer := h.writer, filled := h.filled, index := h.index, le := h.le
    reader := hreader, consumed := h.consumed, sorted := h.sorted }

/-- The copy finds, in the slot of a published position, a value written there or
by a later lap. -/
theorem Inv.load_consumable {values : ℕ → α} {s : State α N} (h : Inv values s)
    {head : Head UInt32} (hc : Consumable s head) :
    ∃ value, loadSlot s.block.data head.index = some value ∧
      Written N values (posOf N head) value s.stores := by
  have hlt : posOf N head < s.stores := hc.lt.trans_le (published_le s)
  obtain ⟨q, hpq, hqs, hmod, hcell, hlap⟩ := h.filled.cell_eq hlt
  refine ⟨values q, ?_, q, hpq, hqs, hmod, rfl, hlap⟩
  rw [index_eq hc.index, loadSlot_headAt, hcell]

/-- Storing the read head completes a read. -/
theorem Inv.step_commit {values : ℕ → α} {s : State α N} (h : Inv values s)
    {head : Head UInt32} {value : α} {stores : ℕ}
    (hr : s.reader = .commit head value stores) (hfew : s.stores < N.size * 2 ^ 32) :
    ∃ s', readerStep s = some s' ∧ Inv values s' := by
  have hreader := h.reader
  simp only [ReaderInv, hr] at hreader
  obtain ⟨hc, hwritten⟩ := hreader
  have hlast : posOf N head + 1 ≤ published s := hc.lt
  obtain ⟨hindex, hpos⟩ :=
    advance_posOf hc.index ((hlast.trans (published_le s)).trans_lt hfew)
  have hconsumed : ∀ d ∈ s.delivered ++ [({ head, value, stores } : Delivery α)],
      Consumed N values (posOf N (advance N head)) d := by
    intro d hd
    rw [hpos]
    rcases List.mem_append.mp hd with hd | hd
    · have hd := h.consumed d hd
      have hle := hc.le
      exact ⟨hd.index, by have := hd.lt; omega, hd.written⟩
    · rw [List.mem_singleton.mp hd]
      exact ⟨hc.index, Nat.lt_succ_self _, hwritten⟩
  have hsorted : ((s.delivered ++ [({ head, value, stores } : Delivery α)]).map fun d =>
      posOf N d.head).Pairwise (· < ·) := by
    rw [List.map_append, List.map_singleton, List.pairwise_append]
    refine ⟨h.sorted, List.pairwise_singleton _ _, ?_⟩
    intro p hp q hq
    obtain ⟨d, hd, rfl⟩ := List.mem_map.mp hp
    rw [List.mem_singleton.mp hq]
    exact (h.consumed d hd).lt.trans_le hc.le
  unfold readerStep
  rw [hr]
  exact ⟨_, rfl,
    { bound := h.bound, writer := h.writer, filled := h.filled, index := hindex
      le := hpos.trans_le hlast, reader := trivial, consumed := hconsumed, sorted := hsorted }⟩

/-- The reader's step keeps the invariant, and is always possible. -/
theorem Inv.step_reader {values : ℕ → α} {s : State α N} (h : Inv values s)
    (hfew : s.stores < N.size * 2 ^ 32) (hsafe : SafeLoad s .reader) :
    ∃ s', readerStep s = some s' ∧ Inv values s' := by
  have hreader := h.reader
  unfold ReaderInv at hreader
  cases hr : s.reader with
  | loadIndex =>
    obtain ⟨hindex, m, hm⟩ := h.writer.index_published
    unfold readerStep
    rw [hr]
    exact ⟨_, rfl, h.setReader ⟨hindex, m, h.le.trans_eq hm.symm, Nat.le_of_eq hm⟩⟩
  | loadLap index =>
    have hc : ∀ head, selectHead { index, lap := s.block.writeHead.lap } s.block.readHead =
        some head → Consumable s head := fun head hsel => h.consumable hr hsafe hsel
    unfold readerStep
    rw [hr]
    exact ⟨_, rfl, h.setReader fun head hsel => (hc head hsel).setReader _⟩
  | loadRead index lap =>
    simp only [hr] at hreader
    unfold readerStep
    rw [hr]
    dsimp only
    cases hsel : selectHead { index, lap } s.block.readHead with
    | none => exact ⟨_, rfl, h.setReader trivial⟩
    | some head => exact ⟨_, rfl, h.setReader ((hreader head hsel).setReader (.copy head))⟩
  | copy head =>
    simp only [hr] at hreader
    obtain ⟨value, hload, hwritten⟩ := h.load_consumable hreader
    unfold readerStep
    rw [hr]
    simp only [hload, Option.map_some]
    exact ⟨_, rfl, h.setReader ⟨hreader.setReader _, hwritten⟩⟩
  | commit head value stores => exact h.step_commit hr hfew

/-! ### The main result -/

/-- **Torn loads that do no harm.** From an initialised empty block, for every stream
of values and every interleaving of the statements with fewer than `2^32` laps
whose every load of the lap is safe, no step accesses memory outside the slots,
the index in the read head stays inside them, the positions consumed are strictly
increasing, and each of them had been stored when it was copied. -/
theorem torn_reads (N : Capacity) (key : UInt64) (block : BufferData UInt32 α N)
    (values : ℕ → α) (schedule : List Party)
    (hfew : Along (step values) FewLaps (State.start (initializeBlock key block)) schedule)
    (hsafe : Along (step values) SafeLoad (State.start (initializeBlock key block)) schedule) :
    ∃ s, run (step values) (State.start (initializeBlock key block)) schedule = some s ∧
      s.block.readHead.index < N.val ∧
      (s.delivered.map fun d => posOf N d.head).Pairwise (· < ·) ∧
      ∀ d ∈ s.delivered,
        d.head.index < N.val ∧ Written N values (posOf N d.head) d.value d.stores := by
  have hstep : ∀ (s : State α N) (party : Party), Inv values s →
      FewLaps s party ∧ SafeLoad s party → ∃ s', step values s party = some s' ∧ Inv values s' := by
    intro s party h hP
    cases party with
    | writer => exact h.step_writer hP.1
    | reader => exact h.step_reader hP.1 hP.2
  obtain ⟨s, hs, h⟩ := run_progress hstep (inv_start values key block) (along_and hfew hsafe)
  exact ⟨s, hs, h.index, h.sorted, fun d hd =>
    ⟨(h.consumed d hd).index, (h.consumed d hd).written⟩⟩

/-- Two empty slots. -/
def emptySlots : BufferData UInt32 ℕ ⟨2, Capacity.two_le_two⟩ :=
  { data := fun _ => 0, writeHead := ⟨0, 0⟩, readHead := ⟨0, 0⟩, key := 0, crc := 0 }

/-- The writer completes a lap and a slot, and stops after `++head.index`. -/
def writerAtEnd : List Party := List.replicate 13 .writer

/-- Loading the index `2` beside the lap `1`, the reader selects a slot that does not
exist. -/
theorem torn_reads_out_of_bounds :
    Along (step id) FewLaps (State.start (initializeBlock 0 emptySlots))
      (writerAtEnd ++ List.replicate 4 .reader) ∧
    run (step id) (State.start (initializeBlock 0 emptySlots))
      (writerAtEnd ++ List.replicate 4 .reader) = none := by
  constructor
  · decide +kernel
  · decide +kernel

/-- A run to which the general statement applies: the index `2` is loaded while the
writer is still on the reader's lap, and both values are delivered. -/
theorem torn_reads_at_end :
    ∃ s, run (step id) (State.start (initializeBlock 0 emptySlots))
        (List.replicate 6 .writer ++ List.replicate 10 .reader) = some s ∧
      s.block.readHead.index < 2 ∧
      (s.delivered.map fun d => posOf ⟨2, by decide⟩ d.head).Pairwise (· < ·) ∧
      ∀ d ∈ s.delivered, d.head.index < 2 ∧
        Written ⟨2, by decide⟩ id (posOf ⟨2, by decide⟩ d.head) d.value d.stores :=
  torn_reads ⟨2, by decide⟩ 0 emptySlots id
    (List.replicate 6 .writer ++ List.replicate 10 .reader) (by decide +kernel) (by decide +kernel)

/-- An unsafe load inside the slots: when the writer has reset the index and not yet
counted the lap, the reader goes back and delivers `0` again. -/
example : (run (step id) (State.start (initializeBlock 0 emptySlots))
    (List.replicate 6 .writer ++ List.replicate 10 .reader ++ [.writer] ++
      List.replicate 5 .reader)).map
    (fun s => s.delivered.map (fun d => (d.head.index, d.value))) =
      some [(0, 0), (1, 1), (0, 0)] := by decide +kernel

end Brasa.Buffer.Torn
