import Mathlib.Data.UInt
import Brasa.Buffer.Circular
import Brasa.Lib.Ring

/-!
# Brasa.Buffer.Laps

What the heads of the circular buffer mean.

* With counters that never wrap, a valid head is a **position**
  `lap * N + index`, and `headAt` is the inverse. In terms of positions,
  `advance` is `+ 1` and the `switch` of `do_read` is one closed formula
  (`selectHead_headAt`): skip to the oldest position that the writer has not
  overwritten. This is the only place where the three lap-difference branches are
  taken apart.
* The 32-bit program **is** the unbounded one with its laps reduced modulo `2^32`
  (`Head.wrap`), as long as the true lap gap at the loads of the heads is below
  `2^32` (`selectHead_wrap`).
-/

namespace Brasa.Buffer

open Brasa.Lib

variable {α : Type*} {N : Capacity}

/-! ### Heads as positions -/

/-- The position of a head: how many slots it has gone past since position `0`. -/
def Head.pos (N : Capacity) (head : Head ℕ) : ℕ := head.lap * N.size + head.index.toNat

/-- The head at a position. -/
def headAt (N : Capacity) (p : ℕ) : Head ℕ :=
  { index := UInt32.ofNat (p % N.size), lap := p / N.size }

theorem headAt_index_toNat (p : ℕ) : (headAt N p).index.toNat = p % N.size := by
  have hlt : p % N.size < 2 ^ 32 := (Nat.mod_lt p N.size_pos).trans N.size_lt
  simp only [headAt, UInt32.toNat_ofNat']
  exact Nat.mod_eq_of_lt hlt

@[simp] theorem headAt_lap (p : ℕ) : (headAt N p).lap = p / N.size := rfl

theorem headAt_index_lt (p : ℕ) : (headAt N p).index.toNat < N.size := by
  rw [headAt_index_toNat]
  exact Nat.mod_lt p N.size_pos

@[simp] theorem pos_headAt (p : ℕ) : (headAt N p).pos N = p := by
  rw [Head.pos, headAt_index_toNat, headAt_lap, Nat.mul_comm]
  exact Nat.div_add_mod p N.size

theorem headAt_pos {head : Head ℕ} (h : head.index.toNat < N.size) :
    headAt N (head.pos N) = head := by
  have hmod : head.pos N % N.size = head.index.toNat := by
    rw [Head.pos, Nat.mul_comm, Nat.mul_add_mod, Nat.mod_eq_of_lt h]
  have hdiv : head.pos N / N.size = head.lap := by
    rw [Head.pos, Nat.mul_comm, Nat.mul_add_div N.size_pos, Nat.div_eq_of_lt h, Nat.add_zero]
  refine Head.ext ?_ hdiv
  rw [← UInt32.toNat_inj, headAt_index_toNat, hmod]

@[simp] theorem headAt_inj {p q : ℕ} : headAt N p = headAt N q ↔ p = q := by
  refine ⟨fun h => ?_, congrArg _⟩
  rw [← pos_headAt (N := N) p, h, pos_headAt]

theorem headAt_zero : headAt N 0 = { index := 0, lap := 0 } := by
  simp [headAt]

/-- One lap back keeps the index. -/
theorem headAt_sub_size {p : ℕ} (h : N.size ≤ p) :
    headAt N (p - N.size) = { index := (headAt N p).index, lap := (headAt N p).lap - 1 } := by
  obtain ⟨q, rfl⟩ := Nat.exists_eq_add_of_le' h
  simp [headAt, N.size_pos]

/-- `advance` moves a valid head on by one position. -/
theorem advance_headAt (p : ℕ) : advance N (headAt N p) = headAt N (p + 1) := by
  have hlt : p % N.size < N.size := Nat.mod_lt p N.size_pos
  have hN := N.size_lt
  have hp := Nat.div_add_mod p N.size
  have hnext : (headAt N p).index + 1 = UInt32.ofNat (p % N.size + 1) := by
    rw [UInt32.ofNat_add]
    rfl
  have hnat : (UInt32.ofNat (p % N.size + 1)).toNat = p % N.size + 1 := by
    rw [UInt32.toNat_ofNat']
    omega
  simp only [advance, hnext]
  by_cases hwrap : p % N.size + 1 = N.size
  · have heq : UInt32.ofNat (p % N.size + 1) = N.val := by
      rw [← UInt32.toNat_inj, hnat, hwrap]
      rfl
    rw [if_pos heq]
    have hp1 : p + 1 = (p / N.size + 1) * N.size := by
      rw [Nat.add_mul, Nat.one_mul, Nat.mul_comm (p / N.size)]
      omega
    simp [headAt, hp1, N.size_pos]
  · have hne : UInt32.ofNat (p % N.size + 1) ≠ N.val := by
      intro heq
      rw [← UInt32.toNat_inj, hnat] at heq
      exact hwrap heq
    rw [if_neg hne]
    have hp1 : p + 1 = p % N.size + 1 + N.size * (p / N.size) := by omega
    have hmod : (p + 1) % N.size = p % N.size + 1 := by
      rw [hp1, Nat.add_mul_mod_self_left]
      exact Nat.mod_eq_of_lt (by omega)
    have hdiv : (p + 1) / N.size = p / N.size := by
      rw [hp1, Nat.add_mul_div_left _ _ N.size_pos, Nat.div_eq_of_lt (by omega), Nat.zero_add]
    simp [headAt, hmod, hdiv]

/-- **The `switch` of `do_read`, in positions.** With the reader at `r` and the
writer at `w`, nothing is selected when they are equal; otherwise the selected
position is `r`, or the oldest one not yet overwritten if that is later. -/
theorem selectHead_headAt {r w : ℕ} (h : r ≤ w) :
    selectHead (headAt N w) (headAt N r) =
      if r = w then none else some (headAt N (max r (w - N.size))) := by
  have hr := Nat.div_add_mod r N.size
  have hw := Nat.div_add_mod w N.size
  have hri := Nat.mod_lt r N.size_pos
  have hwi := Nat.mod_lt w N.size_pos
  have hlap : r / N.size ≤ w / N.size := Nat.div_le_div_right h
  have hequal : ((headAt N r).index = (headAt N w).index ∧ (headAt N r).lap = (headAt N w).lap) ↔
      r = w := by
    rw [← Head.ext_iff]
    exact headAt_inj
  unfold selectHead
  by_cases hrw : r = w
  · rw [if_pos (hequal.mpr hrw), if_pos hrw]
  rw [if_neg (fun hc => hrw (hequal.mp hc)), if_neg hrw]
  -- `k` whole laps between the two heads
  obtain ⟨k, hk⟩ := Nat.exists_eq_add_of_le hlap
  have hsub : (headAt N w).lap - (headAt N r).lap = k := by
    rw [headAt_lap, headAt_lap]
    omega
  rw [hk, Nat.mul_add] at hw
  dsimp only
  match k, hk, hw, hsub with
  | 0, _, hw, hsub =>
    rw [if_pos hsub]
    congr 2
    omega
  | 1, hk, hw, hsub =>
    rw [if_neg (by rw [hsub]; exact Nat.one_ne_zero), if_pos hsub]
    by_cases hlt : (headAt N r).index < (headAt N w).index
    · rw [if_pos hlt]
      rw [UInt32.lt_iff_toNat_lt, headAt_index_toNat, headAt_index_toNat] at hlt
      have hback : max r (w - N.size) = w - N.size := by omega
      rw [hback, headAt_sub_size (by omega), headAt_lap, headAt_lap, hk]
      rfl
    · rw [if_neg hlt]
      rw [UInt32.lt_iff_toNat_lt, headAt_index_toNat, headAt_index_toNat] at hlt
      congr 2
      omega
  | k + 2, hk, hw, hsub =>
    rw [if_neg (by omega), if_neg (by omega)]
    rw [Nat.mul_add] at hw
    have hback : max r (w - N.size) = w - N.size := by omega
    rw [hback, headAt_sub_size (by omega)]

/-! ### The 32-bit counters -/

/-- The head the code holds when the true head is `head`. -/
def Head.wrap (head : Head ℕ) : Head UInt32 :=
  { index := head.index, lap := UInt32.ofNat head.lap }

/-- The head whose true lap is the number stored in the code's counter. -/
def Head.unwrap (head : Head UInt32) : Head ℕ :=
  { index := head.index, lap := head.lap.toNat }

@[simp] theorem Head.wrap_index (head : Head ℕ) : head.wrap.index = head.index := rfl
@[simp] theorem Head.wrap_unwrap (head : Head UInt32) : head.unwrap.wrap = head := by
  simp [Head.wrap, Head.unwrap]

/-- `advance` commutes with the reduction, also when the counter wraps. -/
theorem wrap_advance (head : Head ℕ) : (advance N head).wrap = advance N head.wrap := by
  by_cases hwrap : head.index + 1 = N.val
  · simp [advance, Head.wrap, hwrap]
  · simp [advance, Head.wrap, hwrap]

/-- The position the 32-bit head of position `p` is taken for. -/
theorem pos_unwrap_wrap_headAt (p : ℕ) :
    (headAt N p).wrap.unwrap.pos N = p % (N.size * 2 ^ 32) := by
  rw [Head.pos, Head.unwrap, Head.wrap, headAt_index_toNat, headAt_lap, Nat.mod_mul,
    UInt32.toNat_ofNat', Nat.mul_comm, Nat.add_comm]

/-- Lap counters less than `2^32` apart are distinguished by their low 32 bits,
and so is their difference. -/
theorem ofNat_eq_ofNat {a b : ℕ} (ha : a < 2 ^ 32) (hb : b < 2 ^ 32) :
    UInt32.ofNat a = UInt32.ofNat b ↔ a = b := by
  rw [← UInt32.toNat_inj, UInt32.toNat_ofNat', UInt32.toNat_ofNat', Nat.mod_eq_of_lt ha,
    Nat.mod_eq_of_lt hb]

/-- The true lap gap of a block: by how many laps the writer is ahead. -/
def lapGap (writeHead readHead : Head ℕ) : ℕ := writeHead.lap - readHead.lap

/-- **`do_read` selects the same slot with wrapped counters** as with the true
ones, when the reader is not ahead and the true gap is below `2^32`. -/
theorem selectHead_wrap {writeHead readHead : Head ℕ} (hle : readHead.lap ≤ writeHead.lap)
    (hgap : lapGap writeHead readHead < 2 ^ 32) :
    selectHead writeHead.wrap readHead.wrap =
      (selectHead writeHead readHead).map Head.wrap := by
  have hsub : writeHead.wrap.lap - readHead.wrap.lap =
      UInt32.ofNat (lapGap writeHead readHead) := (UInt32.ofNat_sub hle).symm
  have hzero : UInt32.ofNat (lapGap writeHead readHead) = 0 ↔ lapGap writeHead readHead = 0 :=
    ofNat_eq_ofNat (b := 0) hgap (Nat.two_pow_pos 32)
  have hone : UInt32.ofNat (lapGap writeHead readHead) = 1 ↔ lapGap writeHead readHead = 1 :=
    ofNat_eq_ofNat (b := 1) hgap (by decide)
  have hlap : readHead.wrap.lap = writeHead.wrap.lap ↔ readHead.lap = writeHead.lap := by
    refine ⟨fun heq => ?_, fun heq => congrArg UInt32.ofNat heq⟩
    have h0 : UInt32.ofNat (lapGap writeHead readHead) = 0 := by
      rw [← hsub, heq, UInt32.sub_self]
    rw [hzero, lapGap] at h0
    omega
  unfold selectHead
  by_cases heq : readHead.index = writeHead.index ∧ readHead.lap = writeHead.lap
  · rw [if_pos heq, if_pos ⟨heq.1, hlap.mpr heq.2⟩]
    rfl
  rw [if_neg heq, if_neg (fun hc => heq ⟨hc.1, hlap.mp hc.2⟩)]
  dsimp only
  rw [hsub]
  by_cases h0 : writeHead.lap - readHead.lap = 0
  · rw [if_pos (hzero.mpr h0), if_pos h0]
    rfl
  rw [if_neg (fun hc => h0 (hzero.mp hc)), if_neg h0]
  by_cases h1 : writeHead.lap - readHead.lap = 1
  · rw [if_pos (hone.mpr h1), if_pos h1, Head.wrap_index, Head.wrap_index]
    by_cases hlt : readHead.index < writeHead.index
    · rw [if_pos hlt, if_pos hlt]
      rfl
    · rw [if_neg hlt, if_neg hlt]
      rfl
  · rw [if_neg (fun hc => h1 (hone.mp hc)), if_neg h1]
    have hpos : 1 ≤ writeHead.lap := by omega
    simp only [Option.map_some, Head.wrap, UInt32.ofNat_sub hpos]
    rfl

/-! ### Blocks -/

namespace BufferData

/-- The block the code holds when the true heads are those of `block`. -/
def wrap (block : BufferData ℕ α N) : BufferData UInt32 α N :=
  { data := block.data
    writeHead := block.writeHead.wrap
    readHead := block.readHead.wrap
    key := block.key
    crc := block.crc }

/-- The block with the laps found in memory taken as true ones. -/
def unwrap (block : BufferData UInt32 α N) : BufferData ℕ α N :=
  { data := block.data
    writeHead := block.writeHead.unwrap
    readHead := block.readHead.unwrap
    key := block.key
    crc := block.crc }

@[simp] theorem wrap_unwrap (block : BufferData UInt32 α N) : block.unwrap.wrap = block := by
  simp [wrap, unwrap]

/-- The reader is at position `r` and the writer at position `w`. -/
structure At (block : BufferData ℕ α N) (r w : ℕ) : Prop where
  read : block.readHead = headAt N r
  write : block.writeHead = headAt N w
  le : r ≤ w

/-- The elements the reader has yet to see: the slots at the positions
`max(R, W-N) … W-1`. -/
def unread (block : BufferData ℕ α N) : List α :=
  Ring.unread block.data (block.readHead.pos N) (block.writeHead.pos N)

theorem At.unread_eq {block : BufferData ℕ α N} {r w : ℕ} (h : block.At r w) :
    block.unread = Ring.unread block.data r w := by
  rw [unread, h.read, h.write, pos_headAt, pos_headAt]

end BufferData

theorem loadSlot_headAt (data : Fin N.size → α) (p : ℕ) :
    loadSlot data (headAt N p).index = some (Ring.cell data p) := by
  rw [loadSlot, dif_pos (headAt_index_lt p)]
  congr 2
  ext
  exact headAt_index_toNat p

theorem storeSlot_headAt (data : Fin N.size → α) (p : ℕ) (v : α) :
    storeSlot data (headAt N p).index v = some (Function.update data (Ring.slot N.size p) v) := by
  rw [storeSlot, dif_pos (headAt_index_lt p)]
  congr 2
  ext
  exact headAt_index_toNat p

/-- `do_write` in positions. -/
theorem doWrite_at {block : BufferData ℕ α N} {r w : ℕ} (h : block.At r w) (v : α) :
    doWrite block v =
      some { block with
        data := Function.update block.data (Ring.slot N.size w) v
        writeHead := headAt N (w + 1) } := by
  rw [doWrite, h.write, storeSlot_headAt, advance_headAt]
  rfl

/-- `do_read` in positions. -/
theorem doRead_at {block : BufferData ℕ α N} {r w : ℕ} (h : block.At r w) :
    doRead block =
      if r = w then some (none, block)
      else some (some (Ring.cell block.data (max r (w - N.size))),
        { block with readHead := headAt N (max r (w - N.size) + 1) }) := by
  rw [doRead, h.read, h.write, selectHead_headAt h.le]
  by_cases hrw : r = w
  · simp only [if_pos hrw]
  · simp only [if_neg hrw, loadSlot_headAt, advance_headAt, Option.map_some]

theorem doWrite_wrap (block : BufferData ℕ α N) (v : α) :
    doWrite block.wrap v = (doWrite block v).map BufferData.wrap := by
  simp only [doWrite, BufferData.wrap, Head.wrap_index, ← wrap_advance, Option.map_map]
  rfl

theorem doRead_wrap {block : BufferData ℕ α N}
    (hle : block.readHead.lap ≤ block.writeHead.lap)
    (hgap : lapGap block.writeHead block.readHead < 2 ^ 32) :
    doRead block.wrap = (doRead block).map (Prod.map id BufferData.wrap) := by
  have hsel := selectHead_wrap hle hgap
  unfold doRead
  simp only [BufferData.wrap, hsel]
  cases selectHead block.writeHead block.readHead with
  | none => rfl
  | some readHead =>
    simp only [Option.map_some, Head.wrap_index, ← wrap_advance, Option.map_map]
    rfl

end Brasa.Buffer
