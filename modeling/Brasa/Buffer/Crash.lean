import Brasa.Buffer.Restart
import Brasa.Buffer.Torn

/-!
# Brasa.Buffer.Crash

**A writer that dies in the middle of `write`.** The block outlives the process in
shared memory; the next one constructs its `CircularWriter` on whatever the
interrupted `do_write` left there, and the constructor decides by `is_initialized`
whether to keep it.

Recovery always leaves a block in use, so nothing that follows accesses memory
outside the slots. Whether the interrupted write was *atomic*, the queue found
being the one before the call or the one after it, depends on the statement at
which the writer died:

* after the slot store alone, a full queue has lost its oldest value to the new
  one, which nothing records;
* after `++head.index` at the end of a lap, the index `N` fails the acceptance
  test and the constructor discards everything;
* after `head.index = 0` the head is a lap back: the block is discarded or the
  unread part of the lap is forgotten, unless the reader was a lap behind anyway.

`Unharmed` is the exact condition, and `interrupted_writes_atomic_iff` is the
equivalence over whole runs.
-/

namespace Brasa.Buffer

open Brasa.Lib

variable {α : Type*} {N : Capacity}

/-! ### A write cut short -/

/-- The writer dies after `k` more statements of `do_write`, or after its last one. -/
def writeStatements (values : ℕ → α) : ℕ → Torn.State α N → Option (Torn.State α N)
  | 0, s => some s
  | k + 1, s => (Torn.writerStep values s).bind fun s' =>
    if s'.writer = .store then some s' else writeStatements values k s'

/-- What a `do_write` that dies after `k` of its statements leaves in memory. -/
def interruptedWrite (block : BufferData UInt32 α N) (value : α) (k : ℕ) :
    Option (BufferData UInt32 α N) :=
  (writeStatements (fun _ => value) k (Torn.State.start block)).map Torn.State.block

/-- A call on the current pair of objects; or a `write` that dies after `k` of its
statements, and the construction of the next writer on the block. -/
inductive Incident (α : Type*)
  | call (c : Call α)
  | crash (k : ℕ) (value : α)

namespace Session

/-- One incident of the code. -/
def incident (key : UInt64) (s : Session UInt32 α N) : Incident α → Option (Session UInt32 α N)
  | .call c => s.call c
  | .crash k value => (interruptedWrite s.block value k).map fun block =>
    { s with block := attach key block }

/-- The write about to be made does not complete lap `2^32 - 1`. -/
def LapLeft (s : Session UInt32 α N) : Incident α → Prop
  | .call .read => True
  | .call (.write _) | .crash _ _ => Torn.posOf N s.block.writeHead + 1 < N.size * 2 ^ 32

instance (s : Session UInt32 α N) : ∀ e : Incident α, Decidable (s.LapLeft e)
  | .call .read => isTrue trivial
  | .call (.write _) | .crash _ _ => inferInstanceAs (Decidable (_ < _))

/-- The interrupted write has been made, or it has not. -/
def Atomic (key : UInt64) (s : Session UInt32 α N) : Incident α → Prop
  | .call _ => True
  | .crash k value => ∀ s', s.incident key (.crash k value) = some s' →
    queueOf key s'.block = queueOf key s.block ∨
      queueOf key s'.block = (queueOf key s.block).push value

end Session

/-- When a write that dies after `k` statements does no harm. With room left in the
lap it publishes the value by its second statement; at the end of the lap, only by
its last. -/
def Session.Unharmed (key : UInt64) (s : Session UInt32 α N) : Incident α → Prop
  | .call _ => True
  | .crash k value =>
    k = 0 ∨ 5 ≤ k ∨
      (k = 1 ∧ DropOldest.Overwritable N.size (queueOf key s.block).items value) ∨
      (2 ≤ k ∧ (s.block.writeHead.index + 1 ≠ N.val ∨ s.block.readHead = s.block.writeHead)) ∨
      -- the lap is not counted yet, but the reader is to skip it anyway
      (k = 4 ∧ Torn.posOf N s.block.readHead + N.size ≤ s.block.writeHead.lap.toNat * N.size)

instance [DecidableEq α] (key : UInt64) (s : Session UInt32 α N) :
    ∀ e : Incident α, Decidable (s.Unharmed key e)
  | .call _ => isTrue trivial
  | .crash _ _ => inferInstanceAs (Decidable (_ ∨ _ ∨ _ ∧ _ ∨ _ ∧ (_ ∨ _) ∨ _ ∧ _))

/-! ### What is left in memory -/

section Memory

variable {block : BufferData UInt32 α N}

/-- The block with the value stored in the slot of its write head, and the write head
then at `head`. -/
def BufferData.stored (block : BufferData UInt32 α N) (value : α) (head : Head UInt32) :
    BufferData UInt32 α N :=
  { block with
    data := Function.update block.data (Ring.slot N.size (Torn.posOf N block.writeHead)) value
    writeHead := head }

@[simp] theorem stored_data (value : α) (head : Head UInt32) : (block.stored value head).data =
    Function.update block.data (Ring.slot N.size (Torn.posOf N block.writeHead)) value := rfl
@[simp] theorem stored_writeHead (value : α) (head : Head UInt32) :
    (block.stored value head).writeHead = head := rfl
@[simp] theorem stored_readHead (value : α) (head : Head UInt32) :
    (block.stored value head).readHead = block.readHead := rfl

theorem doWrite_eq_stored (h : block.writeHead.index.toNat < N.size) (value : α) :
    doWrite block value = some (block.stored value (advance N block.writeHead)) := by
  rw [doWrite, Torn.index_eq h, storeSlot_headAt]
  rfl

theorem interruptedWrite_zero (value : α) : interruptedWrite block value 0 = some block := rfl

/-- The index is inside the slots, so the first statement stores the value. -/
theorem interruptedWrite_succ (h : block.writeHead.index.toNat < N.size) (value : α) (k : ℕ) :
    interruptedWrite block value (k + 1) =
      (writeStatements (fun _ => value) k
        ({ Torn.State.start (block.stored value block.writeHead) with
          writer := .incIndex, stores := 1 })).map Torn.State.block := by
  have hstore : storeSlot block.data block.writeHead.index value = some (Function.update
      block.data (Ring.slot N.size (Torn.posOf N block.writeHead)) value) := by
    rw [Torn.index_eq h, storeSlot_headAt]
  rw [interruptedWrite, writeStatements]
  simp only [Torn.writerStep, Torn.State.start, hstore, Option.map_some, Option.bind_some]
  rfl

theorem interruptedWrite_one (h : block.writeHead.index.toNat < N.size) (value : α) :
    interruptedWrite block value 1 = some (block.stored value block.writeHead) := by
  rw [interruptedWrite_succ h]
  rfl

/-- With room left in the lap, the index is all there is to advance. -/
theorem interruptedWrite_inside (h : block.writeHead.index.toNat < N.size) (value : α)
    (hend : block.writeHead.index + 1 ≠ N.val) (k : ℕ) :
    interruptedWrite block value (k + 2) =
      some (block.stored value (advance N block.writeHead)) := by
  rw [interruptedWrite_succ h]
  cases k with
  | zero =>
    simp [writeStatements, Torn.writerStep, Torn.State.start, Torn.State.setWriteHead,
      BufferData.stored, advance, hend]
  | succ k =>
    simp [writeStatements, Torn.writerStep, Torn.State.start, Torn.State.setWriteHead,
      BufferData.stored, advance, hend]

/-- At the end of the lap the head goes through the index `N` and through the lap
before. -/
theorem interruptedWrite_atEnd (h : block.writeHead.index.toNat < N.size) (value : α)
    (hend : block.writeHead.index + 1 = N.val) (k : ℕ) :
    interruptedWrite block value (k + 2) = some (block.stored value
      (if k < 2 then { block.writeHead with index := N.val }
       else if k = 2 then { block.writeHead with index := 0 }
       else advance N block.writeHead)) := by
  rw [interruptedWrite_succ h]
  match k with
  | 0 | 1 | 2 | k + 3 =>
    simp [writeStatements, Torn.writerStep, Torn.State.start, Torn.State.setWriteHead,
      BufferData.stored, advance, hend]

end Memory

/-! ### What the next constructor finds -/

section Recovery

variable {key : UInt64} {block : BufferData UInt32 α N}

/-- The acceptance test, in positions. -/
theorem isInitialized_iff : isInitialized key block = true ↔
    block.Stamped key ∧ block.readHead.index.toNat < N.size ∧
      block.writeHead.index.toNat < N.size ∧
      Torn.posOf N block.readHead ≤ Torn.posOf N block.writeHead := by
  rw [isInitialized, Bool.and_eq_true, Bool.and_eq_true, isValid_iff, beq_iff_eq, beq_iff_eq]
  exact ⟨fun h => ⟨⟨h.1.2, h.2⟩, h.1.1⟩, fun h => ⟨⟨h.2, h.1.ownKey⟩, h.1.ownCrc⟩⟩

/-- The heads of a block in use are equal when their positions are. -/
theorem heads_eq_iff (h : isInitialized key block = true) :
    block.readHead = block.writeHead ↔
      Torn.posOf N block.readHead = Torn.posOf N block.writeHead := by
  obtain ⟨-, hr, hw, -⟩ := isInitialized_iff.mp h
  refine ⟨congrArg _, fun heq => ?_⟩
  rw [Torn.eq_wrap_headAt hr, Torn.eq_wrap_headAt hw, heq]

theorem queueOf_items (h : isInitialized key block = true) :
    (queueOf key block).items = Ring.unread block.data (Torn.posOf N block.readHead)
      (Torn.posOf N block.writeHead) := by
  rw [queueOf, if_pos h]
  rfl

theorem queueOf_eq_empty (h : isInitialized key block ≠ true) :
    queueOf key block = DropOldest.empty α N.size := by
  rw [queueOf, if_neg h]

/-- The queue that the next object works on is the one found in the block. -/
theorem queueOf_attach (key : UInt64) (block : BufferData UInt32 α N) :
    queueOf key (attach key block) = queueOf key block := by
  unfold attach
  split
  · rfl
  · next h =>
    rw [queueOf_eq_empty h]
    refine DropOldest.ext ?_
    rw [queueOf_items (isInitialized_initializeBlock key block)]
    exact (Ring.unread_eq_nil (Nat.le_refl _)).mpr rfl

theorem posOf_lt {head : Head UInt32} (h : head.index.toNat < N.size) :
    Torn.posOf N head < N.size * 2 ^ 32 := by
  have hmul : (head.lap.toNat + 1) * N.size ≤ 2 ^ 32 * N.size :=
    Nat.mul_le_mul_right _ head.lap.toNat_lt
  rw [Nat.add_mul, Nat.one_mul, Nat.mul_comm (2 ^ 32)] at hmul
  rw [Torn.posOf_eq]
  exact (Nat.add_lt_add_left h _).trans_le hmul

/-- The counters found in a block in use have not wrapped, so the code reads as it
would with unbounded ones. -/
theorem doRead_of_isInitialized (h : isInitialized key block = true) :
    doRead block =
      if Torn.posOf N block.readHead = Torn.posOf N block.writeHead then some (none, block)
      else some
        (some (Ring.cell block.data
          (max (Torn.posOf N block.readHead) (Torn.posOf N block.writeHead - N.size))),
        { block with readHead := (headAt N (max (Torn.posOf N block.readHead)
            (Torn.posOf N block.writeHead - N.size) + 1)).wrap }) := by
  have hat : block.unwrap.At (Torn.posOf N block.readHead) (Torn.posOf N block.writeHead) :=
    at_of_isInitialized h
  have hgap : lapGap block.unwrap.writeHead block.unwrap.readHead < 2 ^ 32 :=
    (Nat.sub_le _ _).trans_lt block.writeHead.lap.toNat_lt
  have hread := doRead_wrap hat.lap_le hgap
  rw [BufferData.wrap_unwrap, doRead_at hat] at hread
  by_cases hrw : Torn.posOf N block.readHead = Torn.posOf N block.writeHead
  · rw [if_pos hrw] at hread
    rw [if_pos hrw, hread, Option.map_some, Prod.map, BufferData.wrap_unwrap]
    rfl
  · rw [if_neg hrw] at hread
    rw [if_neg hrw, hread]
    simp only [Option.map_some, Prod.map, id_eq, BufferData.wrap, BufferData.unwrap,
      Head.wrap_unwrap]

/-- A completed write that does not complete the last lap pushes its value. -/
theorem queueOf_written (h : isInitialized key block = true)
    (hlap : Torn.posOf N block.writeHead + 1 < N.size * 2 ^ 32) (value : α) :
    isInitialized key (block.stored value (advance N block.writeHead)) = true ∧
      queueOf key (block.stored value (advance N block.writeHead)) =
        (queueOf key block).push value := by
  obtain ⟨hstamped, hr, hw, hle⟩ := isInitialized_iff.mp h
  obtain ⟨hindex, hpos⟩ := Torn.advance_posOf hw hlap
  have hinit : isInitialized key (block.stored value (advance N block.writeHead)) = true := by
    refine isInitialized_iff.mpr ⟨⟨hstamped.ownKey, hstamped.ownCrc⟩, hr, hindex, ?_⟩
    exact hle.trans ((Nat.le_succ _).trans_eq hpos.symm)
  refine ⟨hinit, DropOldest.ext ?_⟩
  rw [queueOf_items hinit, DropOldest.push_items, queueOf_items h, stored_writeHead, hpos,
    stored_readHead, stored_data, Ring.unread_store _ _ hle]
  rfl

/-- What the queue found must be for the interrupted write to have been atomic. -/
def Recovered (key : UInt64) (block found : BufferData UInt32 α N) (value : α) : Prop :=
  queueOf key found = queueOf key block ∨ queueOf key found = (queueOf key block).push value

/-- After the slot store alone, a full queue has its oldest item replaced. -/
theorem recovered_one_iff (h : isInitialized key block = true) (value : α) :
    Recovered key block (block.stored value block.writeHead) value ↔
    DropOldest.Overwritable N.size (queueOf key block).items value := by
  have hfound : isInitialized key (block.stored value block.writeHead) = true := h
  obtain ⟨-, -, -, hle⟩ := isInitialized_iff.mp h
  have hlen : (queueOf key block).items.length =
      min (Torn.posOf N block.writeHead - Torn.posOf N block.readHead) N.size := by
    rw [queueOf_items h, Ring.unread_length]
  rw [Recovered, DropOldest.ext_iff, DropOldest.ext_iff, queueOf_items hfound, stored_data,
    stored_writeHead, stored_readHead]
  by_cases hfull : Torn.posOf N block.readHead + N.size ≤ Torn.posOf N block.writeHead
  · rw [Ring.unread_overwrite_of_le _ _ hfull, ← queueOf_items h]
    exact DropOldest.replaced_iff_overwritable N.size_pos (by omega)
  · rw [Ring.unread_overwrite_of_lt _ _ (by omega), ← queueOf_items h]
    exact ⟨fun _ => Or.inl (by omega), fun _ => Or.inl rfl⟩

/-- A block that is discarded loses what was unread. -/
theorem recovered_discarded_iff (h : isInitialized key block = true)
    {found : BufferData UInt32 α N} (hfound : isInitialized key found ≠ true) (value : α) :
    Recovered key block found value ↔ block.readHead = block.writeHead := by
  obtain ⟨-, -, -, hle⟩ := isInitialized_iff.mp h
  have hpush := (queueOf key block).push_items_length value
  have hN := N.size_pos
  have hnil : (queueOf key block).items = [] ↔ block.readHead = block.writeHead := by
    rw [queueOf_items h, Ring.unread_eq_nil hle, heads_eq_iff h]
  rw [Recovered, queueOf_eq_empty hfound, DropOldest.ext_iff, DropOldest.ext_iff, ← hnil]
  constructor
  · rintro (heq | heq)
    · exact heq.symm
    · rw [← heq] at hpush
      simp only [DropOldest.empty, List.length_nil] at hpush
      omega
  · exact fun heq => Or.inl heq.symm

/-- With the index reset and the lap not counted, the head is a lap back: what is then
unread is the whole of that lap, or less than there was. -/
theorem recovered_four_iff (h : isInitialized key block = true)
    (hend : block.writeHead.index + 1 = N.val) (value : α) :
    Recovered key block (block.stored value { block.writeHead with index := 0 }) value ↔
    block.readHead = block.writeHead ∨
      Torn.posOf N block.readHead + N.size ≤ block.writeHead.lap.toNat * N.size := by
  obtain ⟨hstamped, hr, hw, hle⟩ := isInitialized_iff.mp h
  have hN : 2 ≤ N.size := N.two_le
  -- the positions of the two heads, in terms of the lap
  have hindex : block.writeHead.index.toNat + 1 = N.size := by
    have hlt := N.size_lt
    have hnat := congrArg UInt32.toNat hend
    rw [UInt32.toNat_add, UInt32.toNat_one, Nat.mod_eq_of_lt (by omega)] at hnat
    exact hnat
  have hwpos : Torn.posOf N block.writeHead + 1 =
      block.writeHead.lap.toNat * N.size + N.size := by
    rw [Torn.posOf_eq, Nat.add_assoc, hindex]
  have hback : Torn.posOf N { block.writeHead with index := 0 } =
      block.writeHead.lap.toNat * N.size := rfl
  generalize hL : block.writeHead.lap.toNat * N.size = L at hwpos hback ⊢
  by_cases hinit : isInitialized key (block.stored value { block.writeHead with index := 0 }) = true
  · -- the reader is not on the lap being completed
    have hrL : Torn.posOf N block.readHead ≤ L := hback ▸ (isInitialized_iff.mp hinit).2.2.2
    have hne : block.readHead ≠ block.writeHead := fun heq => by
      rw [heads_eq_iff h] at heq
      omega
    have hlen : (queueOf key block).items.length =
        min (Torn.posOf N block.writeHead - Torn.posOf N block.readHead) N.size := by
      rw [queueOf_items h, Ring.unread_length]
    have hpush := (queueOf key block).push_items_length value
    simp only [hne, false_or]
    rw [Recovered, DropOldest.ext_iff, DropOldest.ext_iff, queueOf_items hinit,
      stored_data, stored_writeHead, stored_readHead, hback]
    constructor
    · rintro (heq | heq)
      · have hcount := congrArg List.length heq
        rw [Ring.unread_length, hlen] at hcount
        omega
      · have hcount := congrArg List.length heq
        rw [Ring.unread_length, hpush, hlen] at hcount
        omega
    · -- a lap behind: the slots of the lap before hold the values of the completed one
      intro hlap
      refine Or.inr ?_
      have hstore := Ring.unread_store block.data value hle
      have hlo : max (Torn.posOf N block.readHead) (L + N.size - N.size) = L - N.size + N.size := by
        omega
      have hlo' : max (Torn.posOf N block.readHead) (L - N.size) = L - N.size := by omega
      rw [← queueOf_items h, hwpos, Ring.unread, hlo, Ring.window_add_size] at hstore
      rw [Ring.unread, hlo', hstore]
      rfl
  · rw [recovered_discarded_iff h hinit]
    refine ⟨Or.inl, fun hor => hor.resolve_right fun hlap => hinit ?_⟩
    refine isInitialized_iff.mpr ⟨⟨hstamped.ownKey, hstamped.ownCrc⟩, hr, N.size_pos, ?_⟩
    exact ((Nat.le_add_right _ _).trans hlap).trans_eq hback.symm

/-- **Every point at which `do_write` can die**: it leaves a block, and the write has been
atomic exactly when it is unharmed there. -/
theorem interruptedWrite_recovered {s : Session UInt32 α N}
    (h : isInitialized key s.block = true)
    (hlap : Torn.posOf N s.block.writeHead + 1 < N.size * 2 ^ 32) (k : ℕ) (value : α) :
    ∃ found, interruptedWrite s.block value k = some found ∧
      (Recovered key s.block found value ↔ s.Unharmed key (.crash k value)) := by
  obtain ⟨-, -, hw, -⟩ := isInitialized_iff.mp h
  have hwritten : Recovered key s.block
      (s.block.stored value (advance N s.block.writeHead)) value :=
    Or.inr (queueOf_written h hlap value).2
  match k with
  | 0 =>
    exact ⟨_, interruptedWrite_zero value, fun _ => Or.inl rfl, fun _ => Or.inl rfl⟩
  | 1 =>
    refine ⟨_, interruptedWrite_one hw value, ?_⟩
    rw [recovered_one_iff h]
    simp [Session.Unharmed]
  | k + 2 =>
    by_cases hend : s.block.writeHead.index + 1 = N.val
    · refine ⟨_, interruptedWrite_atEnd hw value hend k, ?_⟩
      match k with
      | 0 | 1 =>
        -- the index `N` fails the acceptance test
        rw [recovered_discarded_iff h]
        · simp [Session.Unharmed, hend]
        · intro hinit
          exact Nat.lt_irrefl _ (isInitialized_iff.mp hinit).2.2.1
      | 2 =>
        have hfour := recovered_four_iff h hend value
        simpa [Session.Unharmed, hend] using hfour
      | k + 3 =>
        have hk : ¬ k + 3 < 2 ∧ k + 3 ≠ 2 := by omega
        rw [if_neg hk.1, if_neg hk.2]
        exact ⟨fun _ => Or.inr (Or.inl (by omega)), fun _ => hwritten⟩
    · refine ⟨_, interruptedWrite_inside hw value hend k, fun _ => ?_, fun _ => hwritten⟩
      exact Or.inr (Or.inr (Or.inr (Or.inl ⟨by omega, Or.inl hend⟩)))

end Recovery

/-! ### Runs with crashes -/

namespace Session

/-- The session is in use and represents the state `f` of the specification. -/
structure Represents (key : UInt64) (s : Session UInt32 α N) (f : QueueRun α N.size) : Prop where
  inUse : isInitialized key s.block = true
  queue : queueOf key s.block = f.queue
  results : s.results = f.results

theorem Represents.self {key : UInt64} {s : Session UInt32 α N}
    (h : isInitialized key s.block = true) :
    s.Represents key ⟨queueOf key s.block, s.results⟩ := ⟨h, rfl, rfl⟩

/-- A call that does not complete the last lap is the same call of the queue. -/
theorem Represents.call {key : UInt64} {s : Session UInt32 α N} {f : QueueRun α N.size}
    (h : s.Represents key f) {c : Call α} (hlap : s.LapLeft (.call c)) :
    ∃ s', s.call c = some s' ∧ s'.Represents key (f.call c) := by
  obtain ⟨hinit, hqueue, hresults⟩ := h
  obtain ⟨hstamped, hr, hw, hle⟩ := isInitialized_iff.mp hinit
  cases c with
  | write value =>
    obtain ⟨hinit', hpush⟩ := queueOf_written hinit hlap value
    refine ⟨⟨s.block.stored value (advance N s.block.writeHead), s.results⟩, ?_, hinit', ?_,
      hresults⟩
    · rw [Session.call, doWrite_eq_stored hw]
      rfl
    · rw [hpush, hqueue]
      rfl
  | read =>
    have hread := doRead_of_isInitialized hinit
    obtain ⟨hpop, hrest⟩ := f.queue.pop_eq
    have hitems := queueOf_items hinit
    rw [hqueue] at hitems
    by_cases hrw : Torn.posOf N s.block.readHead = Torn.posOf N s.block.writeHead
    · have hnil : f.queue.items = [] := hitems.trans ((Ring.unread_eq_nil hle).mpr hrw)
      rw [if_pos hrw] at hread
      refine ⟨⟨s.block, s.results ++ [none]⟩, ?_, hinit, ?_, ?_⟩
      · rw [Session.call, hread]
        rfl
      · rw [hqueue]
        exact DropOldest.ext (by simp [QueueRun.call, hrest, hnil])
      · simp [QueueRun.call, hresults, hpop, hnil]
    · have hlt : Torn.posOf N s.block.readHead < Torn.posOf N s.block.writeHead :=
        Nat.lt_of_le_of_ne hle hrw
      have hcons := Ring.unread_cons s.block.data hlt
      have hN := N.size_pos
      rw [if_neg hrw] at hread
      generalize hp : max (Torn.posOf N s.block.readHead)
        (Torn.posOf N s.block.writeHead - N.size) = p at hread hcons
      have hnext : p + 1 ≤ Torn.posOf N s.block.writeHead := by omega
      have hpos : Torn.posOf N (headAt N (p + 1)).wrap = p + 1 :=
        (pos_unwrap_wrap_headAt _).trans
          (Nat.mod_eq_of_lt (hnext.trans_lt (posOf_lt hw)))
      have hinit' : isInitialized key { s.block with readHead := (headAt N (p + 1)).wrap } =
          true :=
        isInitialized_iff.mpr ⟨⟨hstamped.ownKey, hstamped.ownCrc⟩, headAt_index_lt _, hw,
          hpos.trans_le hnext⟩
      rw [hcons] at hitems
      refine ⟨⟨{ s.block with readHead := (headAt N (p + 1)).wrap },
        s.results ++ [some (Ring.cell s.block.data p)]⟩, ?_, hinit', ?_, ?_⟩
      · rw [Session.call, hread]
        rfl
      · refine DropOldest.ext ?_
        rw [queueOf_items hinit', hpos]
        simp [QueueRun.call, hrest, hitems]
      · simp [QueueRun.call, hresults, hpop, hitems]

/-- A crash leaves a block in use, and the queue as `Unharmed` says. -/
theorem incident_crash {key : UInt64} {s : Session UInt32 α N}
    (h : isInitialized key s.block = true) {k : ℕ} {value : α}
    (hlap : s.LapLeft (.crash k value)) :
    ∃ s', s.incident key (.crash k value) = some s' ∧ isInitialized key s'.block = true ∧
      s'.results = s.results ∧
      ((queueOf key s'.block = queueOf key s.block ∨
        queueOf key s'.block = (queueOf key s.block).push value) ↔
        s.Unharmed key (.crash k value)) := by
  obtain ⟨found, hfound, hiff⟩ := interruptedWrite_recovered h hlap k value
  refine ⟨⟨attach key found, s.results⟩, ?_, isInitialized_attach key found, rfl, ?_⟩
  · rw [incident, hfound]
    rfl
  · rw [queueOf_attach]
    exact hiff

/-- An incident is always possible, and leaves a block in use. -/
theorem incident_inUse (key : UInt64) (s : Session UInt32 α N) (e : Incident α)
    (h : isInitialized key s.block = true) (hlap : s.LapLeft e) :
    ∃ s', s.incident key e = some s' ∧ isInitialized key s'.block = true := by
  cases e with
  | call c =>
    obtain ⟨s', hs', hrep⟩ := (Represents.self h).call hlap
    exact ⟨s', hs', hrep.inUse⟩
  | crash k value =>
    obtain ⟨s', hs', hinit, -⟩ := incident_crash h hlap
    exact ⟨s', hs', hinit⟩

theorem atomic_iff_unharmed {key : UInt64} {s : Session UInt32 α N}
    (h : isInitialized key s.block = true) {e : Incident α} (hlap : s.LapLeft e) :
    s.Atomic key e ↔ s.Unharmed key e := by
  cases e with
  | call c => exact Iff.rfl
  | crash k value =>
    obtain ⟨s', hs', -, -, hiff⟩ := incident_crash h hlap
    simp only [Atomic, hs', Option.some.injEq, forall_eq']
    exact hiff

end Session

/-- The calls that a run amounts to, when each of its interrupted writes has either been
made or not. -/
inductive Resolves : List (Incident α) → List (Call α) → Prop
  | nil : Resolves [] []
  | call (c : Call α) {events : List (Incident α)} {calls : List (Call α)} :
      Resolves events calls → Resolves (.call c :: events) (c :: calls)
  | lost (k : ℕ) (value : α) {events : List (Incident α)} {calls : List (Call α)} :
      Resolves events calls → Resolves (.crash k value :: events) calls
  | made (k : ℕ) (value : α) {events : List (Incident α)} {calls : List (Call α)} :
      Resolves events calls → Resolves (.crash k value :: events) (.write value :: calls)

/-- The run lemma: an unharmed run is a run of the queue on the writes that were made. -/
theorem Session.Represents.run_unharmed {key : UInt64} :
    ∀ {events : List (Incident α)} {s : Session UInt32 α N} {f : QueueRun α N.size},
      s.Represents key f → Along (Session.incident key) Session.LapLeft s events →
      Along (Session.incident key) (Session.Unharmed key) s events →
      ∃ calls s', Resolves events calls ∧ run (Session.incident key) s events = some s' ∧
        s'.Represents key (calls.foldl QueueRun.call f) := by
  intro events
  induction events with
  | nil => intro s f h _ _; exact ⟨[], s, .nil, rfl, h⟩
  | cons e events ih =>
    intro s f h hlap hunharmed
    rw [along_cons] at hlap hunharmed
    cases e with
    | call c =>
      obtain ⟨s₁, hs₁, h₁⟩ := h.call hlap.1
      have hevent : s.incident key (.call c) = some s₁ := hs₁
      obtain ⟨calls, s', hres, hrun, h'⟩ := ih h₁ (hlap.2 s₁ hevent) (hunharmed.2 s₁ hevent)
      refine ⟨c :: calls, s', .call c hres, ?_, h'⟩
      rw [run_cons, hevent]
      exact hrun
    | crash k value =>
      obtain ⟨s₁, hs₁, hinit, hresults, hiff⟩ := Session.incident_crash h.inUse hlap.1
      rw [h.queue] at hiff
      rcases hiff.mpr hunharmed.1 with hlost | hmade
      · have h₁ : s₁.Represents key f := ⟨hinit, hlost, hresults.trans h.results⟩
        obtain ⟨calls, s', hres, hrun, h'⟩ := ih h₁ (hlap.2 s₁ hs₁) (hunharmed.2 s₁ hs₁)
        refine ⟨calls, s', .lost k value hres, ?_, h'⟩
        rw [run_cons, hs₁]
        exact hrun
      · have h₁ : s₁.Represents key (f.call (.write value)) :=
          ⟨hinit, hmade, hresults.trans h.results⟩
        obtain ⟨calls, s', hres, hrun, h'⟩ := ih h₁ (hlap.2 s₁ hs₁) (hunharmed.2 s₁ hs₁)
        refine ⟨.write value :: calls, s', .made k value hres, ?_, h'⟩
        rw [run_cons, hs₁]
        exact hrun

/-- The interrupted writes of a run are all atomic exactly when they are all unharmed. -/
theorem Session.along_atomic_iff {key : UInt64} {events : List (Incident α)}
    {s : Session UInt32 α N} (hinit : isInitialized key s.block = true)
    (hlap : Along (Session.incident key) Session.LapLeft s events) :
    Along (Session.incident key) (Session.Atomic key) s events ↔
      Along (Session.incident key) (Session.Unharmed key) s events := by
  have hkeep : ∀ (s : Session UInt32 α N) (e : Incident α) s',
      isInitialized key s.block = true → s.LapLeft e → s.incident key e = some s' →
        isInitialized key s'.block = true := by
    intro s e s' h hl hs'
    obtain ⟨s'', hs'', h''⟩ := Session.incident_inUse key s e h hl
    rw [hs', Option.some.injEq] at hs''
    exact hs'' ▸ h''
  have hboth := Along.of_invariant (I := fun s => isInitialized key s.block = true)
    (P := Session.LapLeft) (Q := fun s e => s.Atomic key e ↔ s.Unharmed key e) hkeep
    (fun s e h hl => Session.atomic_iff_unharmed h hl) hinit hlap
  exact ⟨fun h => (along_and hboth h).mono fun s e hp => hp.1.mp hp.2,
    fun h => (along_and hboth h).mono fun s e hp => hp.1.mpr hp.2⟩

/-- **When a crash is atomic.** Construct the objects on any block, then let any calls be
made and any writes die after any number of their statements, each followed by the
construction of the next writer, without completing lap `2^32 - 1`. No step of the run
accesses memory outside the slots. Every interrupted write is atomic if and only if
every one is unharmed, and then the `read`s return what the drop-oldest queue
returns for the calls and those of the interrupted writes that were made. -/
theorem interrupted_writes_atomic_iff (N : Capacity) (key : UInt64)
    (block : BufferData UInt32 α N) (events : List (Incident α))
    (hlap : Along (Session.incident key) Session.LapLeft
      (Session.start (attach key block)) events) :
    (∃ s, run (Session.incident key) (Session.start (attach key block)) events = some s) ∧
    (Along (Session.incident key) (Session.Atomic key)
        (Session.start (attach key block)) events ↔
      Along (Session.incident key) (Session.Unharmed key)
        (Session.start (attach key block)) events) ∧
    (Along (Session.incident key) (Session.Atomic key)
        (Session.start (attach key block)) events →
      ∃ calls s, Resolves events calls ∧
        run (Session.incident key) (Session.start (attach key block)) events = some s ∧
        s.results = (calls.foldl QueueRun.call ⟨queueOf key block, []⟩).results) := by
  have hinit : isInitialized key (Session.start (attach key block)).block = true :=
    isInitialized_attach key block
  have hiff := Session.along_atomic_iff hinit hlap
  refine ⟨?_, hiff, fun h => ?_⟩
  · obtain ⟨s, hs, -⟩ := run_progress (I := fun s => isInitialized key s.block = true)
      (P := Session.LapLeft) (Session.incident_inUse key) hinit hlap
    exact ⟨s, hs⟩
  · have hrep : (Session.start (attach key block)).Represents key ⟨queueOf key block, []⟩ :=
      ⟨hinit, queueOf_attach key block, rfl⟩
    obtain ⟨calls, s, hres, hrun, h'⟩ := hrep.run_unharmed hlap (hiff.mp h)
    exact ⟨calls, s, hres, hrun, h'.results⟩

/-- A writer that dies after `++head.index` with room left in the lap, and one that dies
there at the end of the lap, when nothing is unread. -/
def crashAtEnd : List (Incident ℕ) :=
  [.crash 2 1, .call .read, .crash 2 2, .call .read]

/-- The crash in the lap has published the value, and the one at its end has lost nothing. -/
theorem interrupted_writes_atomic_iff_atEnd :
    Along (Session.incident 0) (Session.Atomic 0) (Session.start (attach 0 zeroBlock))
        crashAtEnd ∧
      ∃ calls s, Resolves crashAtEnd calls ∧
        run (Session.incident 0) (Session.start (attach 0 zeroBlock)) crashAtEnd = some s ∧
        s.results = (calls.foldl QueueRun.call ⟨queueOf 0 zeroBlock, []⟩).results := by
  obtain ⟨-, hiff, hresults⟩ :=
    interrupted_writes_atomic_iff ⟨2, by decide⟩ 0 zeroBlock crashAtEnd (by decide +kernel)
  have hatomic := hiff.mpr (by decide +kernel)
  exact ⟨hatomic, hresults hatomic⟩

example : (run (Session.incident 0) (Session.start (attach 0 zeroBlock)) crashAtEnd).map
    Session.results = some [some 1, none] := by decide +kernel

/-- Where a value is unread, the second crash loses it. -/
example : (run (Session.incident 0) (Session.start (attach 0 zeroBlock))
    [.call (.write 1), .crash 2 2, .call .read]).map Session.results = some [none] := by
  decide +kernel

end Brasa.Buffer
