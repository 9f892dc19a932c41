import Brasa.Buffer.Laps
import Brasa.Lib.Run
import Brasa.Lib.DropOldest

/-!
# Brasa.Buffer.Queue

**The circular buffer is a drop-oldest FIFO.** A sequence of `write` and `read`
calls on a block, whatever it held when the writer and the reader were
constructed on it, returns what the bounded queue `DropOldest` returns.

The proof goes through the same program with unbounded lap counters. That
program refines the queue unconditionally (`Session.call_refines`), and the
32-bit program runs in lockstep with it as long as the true lap gap is below
`2^32` at each read (`Session.call_wrap`).
-/

namespace Brasa.Buffer

open Brasa.Lib

variable {α : Type*} {N : Capacity}

/-- A call on the pair of objects: `CircularWriter::write` or
`CircularReader::read`. -/
inductive Call (α : Type*)
  | write (value : α)
  | read

/-- The block, and what the `read` calls made so far returned, in order (`none`
for `false`). -/
@[ext] structure Session (Lap : Type) (α : Type*) (N : Capacity) where
  block : BufferData Lap α N
  results : List (Option α)

namespace Session

/-- Before any call. -/
def start {Lap : Type} (block : BufferData Lap α N) : Session Lap α N := ⟨block, []⟩

/-- One call; `none` if it accesses memory outside the slots. -/
def call {Lap : Type} [OfNat Lap 0] [OfNat Lap 1] [Add Lap] [Sub Lap] [DecidableEq Lap]
    (s : Session Lap α N) : Call α → Option (Session Lap α N)
  | .write value => (doWrite s.block value).map fun block => { s with block }
  | .read => (doRead s.block).map fun (result, block) =>
      { block, results := s.results ++ [result] }

/-- The session of the code when the true laps are those of `s`. -/
def wrap (s : Session ℕ α N) : Session UInt32 α N := ⟨s.block.wrap, s.results⟩

@[simp] theorem wrap_start_unwrap (block : BufferData UInt32 α N) :
    (start block.unwrap).wrap = start block := by
  rw [start, wrap, BufferData.wrap_unwrap, start]

/-- At a `read`, the true lap gap is below `2^32`. -/
def GapBelow (s : Session ℕ α N) : Call α → Prop
  | .write _ => True
  | .read => lapGap s.block.writeHead s.block.readHead < 2 ^ 32

instance (s : Session ℕ α N) : ∀ c : Call α, Decidable (s.GapBelow c)
  | .write _ => isTrue trivial
  | .read => inferInstanceAs (Decidable (_ < _))

end Session

/-! ### The specification -/

/-- The queue, and what its `read` calls returned. -/
structure QueueRun (α : Type*) (n : ℕ) where
  queue : DropOldest α n
  results : List (Option α)

/-- One call on the queue. -/
def QueueRun.call {n : ℕ} (f : QueueRun α n) : Call α → QueueRun α n
  | .write value => { f with queue := f.queue.push value }
  | .read => { queue := f.queue.pop.2, results := f.results ++ [f.queue.pop.1] }

/-- The queue a block holds for a key: empty if the constructor rejects the block,
else the slots at the positions `max(R, W-N) … W-1`. -/
def queueOf (key : UInt64) (block : BufferData UInt32 α N) : DropOldest α N.size :=
  if isInitialized key block then ⟨block.unwrap.unread, Ring.unread_length_le _ _ _⟩
  else DropOldest.empty α N.size

/-! ### Unbounded counters refine the queue -/

/-- The session `s` represents the state `f` of the specification. -/
structure Session.Refines (s : Session ℕ α N) (f : QueueRun α N.size) : Prop where
  heads : ∃ r w, s.block.At r w
  items : s.block.unread = f.queue.items
  results : s.results = f.results

theorem Session.call_write_at {s : Session ℕ α N} {r w : ℕ} (h : s.block.At r w) (value : α) :
    s.call (.write value) = some { s with
      block := { s.block with
        data := Function.update s.block.data (Ring.slot N.size w) value
        writeHead := headAt N (w + 1) } } := by
  rw [Session.call, doWrite_at h]
  rfl

theorem Session.call_read_at_eq {s : Session ℕ α N} {r w : ℕ} (h : s.block.At r w)
    (hrw : r = w) : s.call .read = some { s with results := s.results ++ [none] } := by
  rw [Session.call, doRead_at h, if_pos hrw]
  rfl

theorem Session.call_read_at_ne {s : Session ℕ α N} {r w : ℕ} (h : s.block.At r w)
    (hrw : r ≠ w) :
    s.call .read = some
      { block := { s.block with readHead := headAt N (max r (w - N.size) + 1) }
        results := s.results ++ [some (Ring.cell s.block.data (max r (w - N.size)))] } := by
  rw [Session.call, doRead_at h, if_neg hrw]
  rfl

/-- One call keeps the representation, and is always possible. -/
theorem Session.call_refines {s : Session ℕ α N} {f : QueueRun α N.size} (h : s.Refines f)
    (c : Call α) : ∃ s', s.call c = some s' ∧ s'.Refines (f.call c) := by
  obtain ⟨⟨r, w, hat⟩, hitems, hresults⟩ := h
  rw [hat.unread_eq] at hitems
  cases c with
  | write value =>
    have hat' : BufferData.At { s.block with
        data := Function.update s.block.data (Ring.slot N.size w) value
        writeHead := headAt N (w + 1) } r (w + 1) :=
      ⟨hat.read, rfl, Nat.le_succ_of_le hat.le⟩
    refine ⟨_, Session.call_write_at hat value, ⟨r, w + 1, hat'⟩, ?_, hresults⟩
    rw [hat'.unread_eq, Ring.unread_store _ _ hat.le, hitems]
    rfl
  | read =>
    obtain ⟨hpop, hrest⟩ := f.queue.pop_eq
    by_cases hrw : r = w
    · -- nothing is unread, and nothing changes
      have hnil : f.queue.items = [] := by
        rw [← hitems, Ring.unread_eq_nil hat.le]
        exact hrw
      refine ⟨_, Session.call_read_at_eq hat hrw, ⟨r, w, hat⟩, ?_, ?_⟩
      · rw [hat.unread_eq, hitems]
        simp [QueueRun.call, hrest, hnil]
      · simp [QueueRun.call, hresults, hpop, hnil]
    · have hcons := Ring.unread_cons s.block.data (Nat.lt_of_le_of_ne hat.le hrw)
      rw [hitems] at hcons
      have hle : max r (w - N.size) + 1 ≤ w := by
        have := hat.le
        have := N.size_pos
        omega
      have hat' : BufferData.At
          { s.block with readHead := headAt N (max r (w - N.size) + 1) }
          (max r (w - N.size) + 1) w := ⟨rfl, hat.write, hle⟩
      refine ⟨_, Session.call_read_at_ne hat hrw, ⟨_, w, hat'⟩, ?_, ?_⟩
      · rw [hat'.unread_eq]
        simp [QueueRun.call, hrest, hcons]
      · simp [QueueRun.call, hresults, hpop, hcons]

/-- Every sequence of calls keeps the representation. -/
theorem Session.run_refines {s : Session ℕ α N} {f : QueueRun α N.size} (h : s.Refines f)
    (calls : List (Call α)) :
    ∃ s', run Session.call s calls = some s' ∧ s'.Refines (calls.foldl QueueRun.call f) := by
  have hstep : ∀ (s : Session ℕ α N) (f : QueueRun α N.size) (c : Call α), s.Refines f → True →
      ∃ s' f', s.call c = some s' ∧ some (f.call c) = some f' ∧ s'.Refines f' := by
    intro s f c hR _
    obtain ⟨s', hs', hR'⟩ := s.call_refines hR c
    exact ⟨s', _, hs', rfl, hR'⟩
  have htrue : Along (fun (f : QueueRun α N.size) (c : Call α) => some (f.call c))
      (fun _ _ => True) f calls := along_of_forall (fun _ _ => trivial)
  obtain ⟨s', f', hs', hf', hR⟩ := run_lockstep Session.Refines hstep h htrue
  rw [run_total, Option.some.injEq] at hf'
  exact ⟨s', hs', hf' ▸ hR⟩

/-! ### The 32-bit counters follow the unbounded ones -/

theorem BufferData.At.lap_le {block : BufferData ℕ α N} {r w : ℕ} (h : block.At r w) :
    block.readHead.lap ≤ block.writeHead.lap := by
  rw [h.read, h.write]
  exact Nat.div_le_div_right h.le

/-- One call of the code is one call with unbounded counters. -/
theorem Session.call_wrap {s : Session ℕ α N} (hat : ∃ r w, s.block.At r w) (c : Call α)
    (hgap : s.GapBelow c) : s.wrap.call c = (s.call c).map Session.wrap := by
  obtain ⟨r, w, hat⟩ := hat
  cases c with
  | write value =>
    simp only [Session.call, Session.wrap, doWrite_wrap, Option.map_map]
    rfl
  | read =>
    simp only [Session.call, Session.wrap, doRead_wrap hat.lap_le hgap, Option.map_map]
    rfl

/-- Every sequence of calls of the code, with the gap below `2^32` at each read,
is the same sequence with unbounded counters. -/
theorem Session.run_wrap {s : Session ℕ α N} {f : QueueRun α N.size} (h : s.Refines f)
    {calls : List (Call α)} (hgap : Along Session.call Session.GapBelow s calls) :
    run Session.call s.wrap calls = (run Session.call s calls).map Session.wrap := by
  have hstep : ∀ (u : Session UInt32 α N) (s : Session ℕ α N) (c : Call α),
      (u = s.wrap ∧ ∃ f, s.Refines f) → s.GapBelow c →
        ∃ u' s', u.call c = some u' ∧ s.call c = some s' ∧ (u' = s'.wrap ∧ ∃ f, s'.Refines f) := by
    rintro u s c ⟨rfl, f, hf⟩ hP
    obtain ⟨s', hs', hf'⟩ := s.call_refines hf c
    refine ⟨s'.wrap, s', ?_, hs', rfl, _, hf'⟩
    rw [Session.call_wrap hf.heads c hP, hs']
    rfl
  obtain ⟨u, s', hu, hs', rfl, -⟩ :=
    run_lockstep (fun (u : Session UInt32 α N) (s : Session ℕ α N) => u = s.wrap ∧ ∃ f, s.Refines f)
      hstep ⟨rfl, f, h⟩ hgap
  rw [hu, hs']
  rfl

/-! ### The initial block -/

/-- The acceptance test, in positions: both indices are in range and the reader is
not ahead of the writer. -/
theorem isValid_iff {readHead writeHead : Head UInt32} :
    isValid N readHead writeHead = true ↔
      readHead.index.toNat < N.size ∧ writeHead.index.toNat < N.size ∧
        readHead.unwrap.pos N ≤ writeHead.unwrap.pos N := by
  simp only [isValid, isValidHead, Bool.and_eq_true, Bool.or_eq_true, decide_eq_true_eq,
    bne_iff_ne, ne_eq, UInt32.lt_iff_toNat_lt, UInt32.le_iff_toNat_le, ← UInt32.toNat_inj,
    Head.pos, Head.unwrap]
  change ((readHead.index.toNat < N.size ∧ writeHead.index.toNat < N.size) ∧ _) ∧ _ ↔ _
  have hlex (hr : readHead.index.toNat < N.size) (hw : writeHead.index.toNat < N.size) :
      readHead.lap.toNat ≤ writeHead.lap.toNat ∧
        (¬readHead.lap.toNat = writeHead.lap.toNat ∨
          readHead.index.toNat ≤ writeHead.index.toNat) ↔
      readHead.lap.toNat * N.size + readHead.index.toNat ≤
        writeHead.lap.toNat * N.size + writeHead.index.toNat := by
    rcases Nat.lt_trichotomy readHead.lap.toNat writeHead.lap.toNat with hlt | heq | hgt
    · obtain ⟨k, hk⟩ := Nat.exists_eq_add_of_lt hlt
      rw [hk, Nat.add_mul, Nat.add_mul]
      omega
    · rw [heq]
      omega
    · obtain ⟨k, hk⟩ := Nat.exists_eq_add_of_lt hgt
      rw [hk, Nat.add_mul, Nat.add_mul]
      omega
  constructor
  · rintro ⟨⟨⟨hr, hw⟩, hle⟩, hidx⟩
    exact ⟨hr, hw, (hlex hr hw).mp ⟨hle, hidx⟩⟩
  · rintro ⟨hr, hw, hle⟩
    exact ⟨⟨⟨hr, hw⟩, ((hlex hr hw).mpr hle).1⟩, ((hlex hr hw).mpr hle).2⟩

theorem at_of_isInitialized {key : UInt64} {block : BufferData UInt32 α N}
    (h : isInitialized key block = true) :
    block.unwrap.At (block.readHead.unwrap.pos N) (block.writeHead.unwrap.pos N) := by
  simp only [isInitialized, Bool.and_eq_true, isValid_iff] at h
  obtain ⟨⟨⟨hr, hw, hle⟩, -⟩, -⟩ := h
  exact ⟨(headAt_pos hr).symm, (headAt_pos hw).symm, hle⟩

/-- What the constructors leave in memory represents the block's queue. -/
theorem start_refines (key : UInt64) (block : BufferData UInt32 α N) :
    (Session.start (attach key block).unwrap).Refines ⟨queueOf key block, []⟩ := by
  have hat := at_of_isInitialized (isInitialized_attach key block)
  refine ⟨⟨_, _, hat⟩, ?_, rfl⟩
  unfold Session.start queueOf attach
  split
  · rfl
  · exact (Ring.unread_eq_nil (Nat.le_refl _)).mpr rfl

/-! ### The main result -/

/-- **The circular buffer is a drop-oldest FIFO of capacity `N`.** Construct the
writer and the reader on any block, then make any calls such that at each `read`
the true lap gap (that of the run with unbounded counters) is below `2^32`. The
calls are all possible, they return what the queue returns, the heads in memory
are the true ones modulo `2^32`, and the unread slots are the queue's items; and
a further `read` returns `false` and changes nothing exactly when the queue is
empty. -/
theorem circular_refines_queue (N : Capacity) (key : UInt64) (block : BufferData UInt32 α N)
    (calls : List (Call α))
    (hgap : Along Session.call Session.GapBelow
      (Session.start (attach key (attach key block)).unwrap) calls) :
    ∃ (s : Session UInt32 α N) (t : Session ℕ α N) (f : QueueRun α N.size),
      run Session.call (Session.start (attach key (attach key block))) calls = some s ∧
      run Session.call (Session.start (attach key (attach key block)).unwrap) calls = some t ∧
      calls.foldl QueueRun.call ⟨queueOf key block, []⟩ = f ∧
      s = t.wrap ∧ s.results = f.results ∧ t.block.unread = f.queue.items ∧
      (t.GapBelow .read →
        (doRead s.block = some (none, s.block) ↔ f.queue.items = [])) := by
  rw [attach_attach] at hgap ⊢
  have hstart := start_refines key block
  obtain ⟨t, ht, hR⟩ := Session.run_refines hstart calls
  have hwrap := Session.run_wrap hstart hgap
  rw [ht, Session.wrap_start_unwrap] at hwrap
  refine ⟨t.wrap, t, _, hwrap, ht, rfl, rfl, hR.results, hR.items, fun hread => ?_⟩
  obtain ⟨r, w, hat⟩ := hR.heads
  have hempty : (calls.foldl QueueRun.call ⟨queueOf key block, []⟩).queue.items = [] ↔ r = w := by
    rw [← hR.items, hat.unread_eq, Ring.unread_eq_nil hat.le]
  rw [hempty, Session.wrap, doRead_wrap hat.lap_le hread, doRead_at hat]
  by_cases hrw : r = w
  · simp [hrw]
  · simp [hrw]

/-- A block of two slots with heads that no run leaves behind. -/
def garbageBlock : BufferData UInt32 ℕ ⟨2, Capacity.two_le_two⟩ :=
  { data := fun _ => 7, writeHead := ⟨5, 3⟩, readHead := ⟨9, 4⟩, key := 1, crc := 2 }

/-- The hypothesis is met, for instance, by three writes and three reads on a
rejected block: the first value is overwritten and the third read finds nothing. -/
theorem circular_refines_queue_garbage :
    ∃ (s : Session UInt32 ℕ ⟨2, by decide⟩) (t : Session ℕ ℕ ⟨2, by decide⟩)
      (f : QueueRun ℕ 2),
      run Session.call (Session.start (attach 42 (attach 42 garbageBlock)))
        [.write 1, .write 2, .write 3, .read, .read, .read] = some s ∧
      run Session.call (Session.start (attach 42 (attach 42 garbageBlock)).unwrap)
        [.write 1, .write 2, .write 3, .read, .read, .read] = some t ∧
      [Call.write 1, .write 2, .write 3, .read, .read, .read].foldl QueueRun.call
        ⟨queueOf 42 garbageBlock, []⟩ = f ∧
      s = t.wrap ∧ s.results = f.results ∧ t.block.unread = f.queue.items ∧
      (t.GapBelow .read →
        (doRead s.block = some (none, s.block) ↔ f.queue.items = [])) :=
  circular_refines_queue ⟨2, by decide⟩ 42 garbageBlock
    [.write 1, .write 2, .write 3, .read, .read, .read] (by decide +kernel)

/-- The same calls, evaluated. -/
example : (run Session.call (Session.start (attach 42 (attach 42 garbageBlock)))
    [.write 1, .write 2, .write 3, .read, .read, .read]).map Session.results =
      some [some 2, some 3, none] := by decide +kernel

end Brasa.Buffer
