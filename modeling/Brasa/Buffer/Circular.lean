import Mathlib.Data.Nat.Notation
import Mathlib.Logic.Function.Basic
import Brasa.Buffer.Crc

/-!
# Brasa.Buffer.Circular

The circular buffer of `Circular.h`, statement by statement: the block that
lives in caller-supplied memory, the heads with their lap counters, `do_write`,
`do_read`, and the constructor with its acceptance test.

Two things are made explicit here that the source leaves to the machine:

* an access to `data[index]` with an index outside `0…N-1` has no result
  (`none`), so memory safety is a theorem about the functions below and not an
  assumption of the model;
* heads are generic in the type `Lap` of their lap counter. The code is the
  instance `Lap = UInt32`; the instance `Lap = ℕ` is the same program with
  counters that never wrap, and serves as the definition of a head's *true* lap
  (`Brasa.Buffer.Laps` relates the two).

The alignment of the block inside the caller's memory (`aligned_in_buffer`) is a
matter of addresses and is not modelled.
-/

namespace Brasa.Buffer

/-- The template parameter `N_`, with `static_assert(N_ >= 2)`. -/
structure Capacity where
  val : UInt32
  two_le : 2 ≤ val.toNat

namespace Capacity

/-- The number of slots. -/
def size (N : Capacity) : ℕ := N.val.toNat

theorem two_le_two : 2 ≤ (2 : UInt32).toNat := by decide

theorem size_pos (N : Capacity) : 0 < N.size := Nat.lt_of_lt_of_le Nat.two_pos N.two_le

theorem size_lt (N : Capacity) : N.size < 2 ^ 32 := N.val.toNat_lt

instance (N : Capacity) : NeZero N.size := ⟨Nat.pos_iff_ne_zero.mp N.size_pos⟩

end Capacity

/-- `struct Head`: a slot index and the number of times it has wrapped around. -/
@[ext] structure Head (Lap : Type) where
  index : UInt32
  lap : Lap
  deriving DecidableEq, Repr

/-- `struct BufferData`: the block in the caller's memory. -/
@[ext] structure BufferData (Lap : Type) (α : Type*) (N : Capacity) where
  data : Fin N.size → α
  writeHead : Head Lap
  readHead : Head Lap
  key : UInt64
  crc : UInt32

section Operations

variable {Lap : Type} [OfNat Lap 0] [OfNat Lap 1] [Add Lap] [Sub Lap] [DecidableEq Lap]
variable {α : Type*} {N : Capacity}

/-- `data[index]`, which exists only for an index below `N`. -/
def loadSlot (data : Fin N.size → α) (index : UInt32) : Option α :=
  if h : index.toNat < N.size then some (data ⟨index.toNat, h⟩) else none

/-- `data[index] = value`, which is possible only for an index below `N`. -/
def storeSlot (data : Fin N.size → α) (index : UInt32) (value : α) :
    Option (Fin N.size → α) :=
  if h : index.toNat < N.size then some (Function.update data ⟨index.toNat, h⟩ value) else none

/-- `Circular::advance`: the next slot, wrapping around and counting the lap. -/
def advance (N : Capacity) (head : Head Lap) : Head Lap :=
  let index := head.index + 1
  if index = N.val then { index := 0, lap := head.lap + 1 } else { head with index }

/-- The part of `do_read` between the loads of the heads and the copy of the
slot: `none` when the buffer is empty, otherwise the read head after the `switch`
on the lap difference. -/
def selectHead (writeHead readHead : Head Lap) : Option (Head Lap) :=
  if readHead.index = writeHead.index ∧ readHead.lap = writeHead.lap then none
  else
    let laps := writeHead.lap - readHead.lap
    if laps = 0 then some readHead
    else if laps = 1 then
      -- one lap ahead: skip forward only past slots already overwritten
      if readHead.index < writeHead.index then some { readHead with index := writeHead.index }
      else some readHead
    else some { index := writeHead.index, lap := writeHead.lap - 1 }

/-- `Circular::do_write`. -/
def doWrite (block : BufferData Lap α N) (value : α) : Option (BufferData Lap α N) :=
  (storeSlot block.data block.writeHead.index value).map fun data =>
    { block with data, writeHead := advance N block.writeHead }

/-- `Circular::do_read`: the value delivered (`none` for the result `false`) and
the block afterwards. -/
def doRead (block : BufferData Lap α N) : Option (Option α × BufferData Lap α N) :=
  match selectHead block.writeHead block.readHead with
  | none => some (none, block)
  | some readHead =>
    (loadSlot block.data readHead.index).map fun value =>
      (some value, { block with readHead := advance N readHead })

end Operations

/-! ### The constructor -/

section Construction

variable {α : Type*} {N : Capacity}

/-- `is_valid(head)`. -/
def isValidHead (N : Capacity) (head : Head UInt32) : Bool := head.index < N.val

/-- `is_valid(read_head, write_head)`. -/
def isValid (N : Capacity) (readHead writeHead : Head UInt32) : Bool :=
  isValidHead N readHead && isValidHead N writeHead && readHead.lap ≤ writeHead.lap &&
    (readHead.lap != writeHead.lap || readHead.index ≤ writeHead.index)

/-- `is_initialized()` of an object whose members are `key_ = key` and
`crc_ = crc32(key)`. -/
def isInitialized (key : UInt64) (block : BufferData UInt32 α N) : Bool :=
  isValid N block.readHead block.writeHead && block.key == key && block.crc == crc32Value key

/-- `initialize()`. -/
def initializeBlock (key : UInt64) (block : BufferData UInt32 α N) : BufferData UInt32 α N :=
  { block with
    readHead := { index := 0, lap := 0 }
    writeHead := { index := 0, lap := 0 }
    key
    crc := crc32Value key }

/-- `Circular::Circular`, and so the constructors of `CircularWriter` and
`CircularReader`: what constructing one of them does to the block. -/
def attach (key : UInt64) (block : BufferData UInt32 α N) : BufferData UInt32 α N :=
  if isInitialized key block then block else initializeBlock key block

theorem isInitialized_initializeBlock (key : UInt64) (block : BufferData UInt32 α N) :
    isInitialized key (initializeBlock key block) = true := by
  have hpos : (0 : UInt32) < N.val := by
    rw [UInt32.lt_iff_toNat_lt]
    exact N.size_pos
  simp [isInitialized, initializeBlock, isValid, isValidHead, hpos]

theorem isInitialized_attach (key : UInt64) (block : BufferData UInt32 α N) :
    isInitialized key (attach key block) = true := by
  unfold attach
  split
  · assumption
  · exact isInitialized_initializeBlock key block

/-- Constructing the second object of a writer/reader pair leaves the block as
the first one left it. -/
theorem attach_attach (key : UInt64) (block : BufferData UInt32 α N) :
    attach key (attach key block) = attach key block := by
  rw [attach, if_pos (isInitialized_attach key block)]

end Construction

end Brasa.Buffer
