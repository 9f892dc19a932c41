import Mathlib.Tactic.NormNum
import Brasa.Buffer.Queue

/-!
# Brasa.Buffer.Restart

**Re-attaching to a live buffer.** Constructing another reader or writer on a
block in use must leave it alone; the constructor decides by its acceptance test
`is_initialized`.

`do_read` compares lap counters by their difference modulo `2^32`, but the
acceptance test compares them with `<=`. The two agree only while the write lap
has not wrapped past the read lap. In positions: re-attaching at true read
position `r` and write position `w` leaves the block alone if and only if
`r % (N * 2^32) ≤ w % (N * 2^32)` (`attach_wrap_iff`), and a run with
re-attachments is transparent if and only if that holds at each of them
(`reattach_transparent_iff`).
-/

namespace Brasa.Buffer

open Brasa.Lib

variable {α : Type*} {N : Capacity}

/-! ### One re-attachment -/

/-- The block is stamped with the key it was initialised for. -/
structure BufferData.Stamped {Lap : Type} (key : UInt64) (block : BufferData Lap α N) : Prop where
  ownKey : block.key = key
  ownCrc : block.crc = crc32Value key

/-- A stamped block is left alone exactly when its heads pass the test. -/
theorem attach_eq_self_iff {key : UInt64} {block : BufferData UInt32 α N}
    (h : block.Stamped key) :
    attach key block = block ↔ isValid N block.readHead block.writeHead = true := by
  constructor
  · intro heq
    have hinit := isInitialized_attach key block
    rw [heq, isInitialized, Bool.and_eq_true, Bool.and_eq_true] at hinit
    exact hinit.1.1
  · intro hvalid
    rw [attach, if_pos]
    simp [isInitialized, hvalid, h.ownKey, h.ownCrc]

/-- Re-attaching at true positions `r` and `w`. -/
theorem attach_wrap_iff {key : UInt64} {block : BufferData ℕ α N} {r w : ℕ}
    (h : block.Stamped key) (hat : block.At r w) :
    attach key block.wrap = block.wrap ↔ r % (N.size * 2 ^ 32) ≤ w % (N.size * 2 ^ 32) := by
  have hstamped : block.wrap.Stamped key := ⟨h.ownKey, h.ownCrc⟩
  rw [attach_eq_self_iff hstamped, isValid_iff, BufferData.wrap, hat.read, hat.write,
    pos_unwrap_wrap_headAt, pos_unwrap_wrap_headAt]
  exact ⟨fun hv => hv.2.2, fun hle => ⟨headAt_index_lt r, headAt_index_lt w, hle⟩⟩

/-! ### Runs with re-attachments -/

/-- A call on the current pair of objects, or the construction of another reader
or writer on the same block with the same key. -/
inductive Event (α : Type*)
  | call (c : Call α)
  | attach

/-- The calls among the events. -/
def Event.calls : List (Event α) → List (Call α)
  | [] => []
  | .call c :: events => c :: calls events
  | .attach :: events => calls events

namespace Session

/-- One event of the code. -/
def event (key : UInt64) (s : Session UInt32 α N) : Event α → Option (Session UInt32 α N)
  | .call c => s.call c
  | .attach => some { s with block := attach key s.block }

/-- The same event with unbounded counters and transparent re-attachments. -/
def trueEvent (s : Session ℕ α N) : Event α → Option (Session ℕ α N)
  | .call c => s.call c
  | .attach => some s

/-- At a `read`, the true lap gap is below `2^32`. -/
def GapBelowAt (s : Session ℕ α N) : Event α → Prop
  | .call c => s.GapBelow c
  | .attach => True

instance (s : Session ℕ α N) : ∀ e : Event α, Decidable (s.GapBelowAt e)
  | .call c => inferInstanceAs (Decidable (s.GapBelow c))
  | .attach => isTrue trivial

/-- At a re-attachment, the read position does not exceed the write position
modulo `N * 2^32`: the write lap has not wrapped past the read lap. -/
def NotWrapped (s : Session ℕ α N) : Event α → Prop
  | .call _ => True
  | .attach => s.block.readHead.pos N % (N.size * 2 ^ 32) ≤
      s.block.writeHead.pos N % (N.size * 2 ^ 32)

/-- A re-attachment leaves every field of the block as it is. -/
def Unchanged (key : UInt64) (s : Session UInt32 α N) : Event α → Prop
  | .call _ => True
  | .attach => Buffer.attach key s.block = s.block

/-- The invariant of a buffer in use: stamped, and representing some queue. -/
structure Live (key : UInt64) (s : Session ℕ α N) : Prop where
  stamped : s.block.Stamped key
  refines : ∃ f, s.Refines f

/-- One call keeps a buffer in use, and is always possible. -/
theorem Live.call {key : UInt64} {s : Session ℕ α N} (h : s.Live key) (c : Call α) :
    ∃ s', s.call c = some s' ∧ s'.Live key := by
  obtain ⟨f, hf⟩ := h.refines
  obtain ⟨s', hs', hf'⟩ := s.call_refines hf c
  refine ⟨s', hs', ?_, _, hf'⟩
  obtain ⟨r, w, hat⟩ := hf.heads
  cases c with
  | write value =>
    rw [call_write_at hat value, Option.some.injEq] at hs'
    subst hs'
    exact ⟨h.stamped.ownKey, h.stamped.ownCrc⟩
  | read =>
    by_cases hrw : r = w
    · rw [call_read_at_eq hat hrw, Option.some.injEq] at hs'
      subst hs'
      exact h.stamped
    · rw [call_read_at_ne hat hrw, Option.some.injEq] at hs'
      subst hs'
      exact ⟨h.stamped.ownKey, h.stamped.ownCrc⟩

theorem Live.attach_iff {key : UInt64} {s : Session ℕ α N} (h : s.Live key) :
    s.wrap.Unchanged key (.attach : Event α) ↔ s.NotWrapped (.attach : Event α) := by
  obtain ⟨f, hf⟩ := h.refines
  obtain ⟨r, w, hat⟩ := hf.heads
  have hiff := attach_wrap_iff h.stamped hat
  simpa [Unchanged, NotWrapped, Session.wrap, hat.read, hat.write] using hiff

/-- The run lemma behind `reattach_transparent_iff`: by induction on the events,
the two sides of the equivalence take the same course up to the first
re-attachment that fails the condition. -/
theorem Live.run_event {key : UInt64} :
    ∀ {events : List (Event α)} {s : Session ℕ α N}, s.Live key →
      Along trueEvent GapBelowAt s events →
      (Along (event key) (Unchanged key) s.wrap events ↔ Along trueEvent NotWrapped s events) ∧
      (Along trueEvent NotWrapped s events →
        run (event key) s.wrap events = run Session.call s.wrap (Event.calls events)) := by
  intro events
  induction events with
  | nil => intro s _ _; exact ⟨Iff.rfl, fun _ => rfl⟩
  | cons e events ih =>
    intro s h hgap
    rw [along_cons] at hgap
    cases e with
    | call c =>
      -- a call is no attachment: the code and the true machine both take it
      obtain ⟨s', hs', h'⟩ := h.call c
      obtain ⟨f, hf⟩ := h.refines
      have hcall : s.wrap.call c = some s'.wrap := by
        rw [call_wrap hf.heads c hgap.1, hs']
        rfl
      have hevent : event key s.wrap (.call c) = some s'.wrap := hcall
      have htrue : trueEvent s (.call c) = some s' := hs'
      obtain ⟨hiff, hrun⟩ := ih h' (hgap.2 s' hs')
      simp only [along_cons, hevent, htrue, Option.some.injEq, forall_eq']
      refine ⟨by rw [hiff]; rfl, fun hall => ?_⟩
      rw [run_cons, hevent, Option.bind_some, hrun hall.2, Event.calls, run_cons, hcall,
        Option.bind_some]
    | attach =>
      -- the block is left alone exactly when the write lap has not wrapped
      have hone := h.attach_iff
      have htrue : trueEvent s (.attach : Event α) = some s := rfl
      obtain ⟨hiff, hrun⟩ := ih h (hgap.2 s rfl)
      have hevent (hu : s.wrap.Unchanged key (.attach : Event α)) :
          event key s.wrap (.attach : Event α) = some s.wrap := by
        rw [event, show Buffer.attach key s.wrap.block = s.wrap.block from hu]
      constructor
      · rw [along_cons, along_cons, ← hone]
        refine and_congr_right fun hu => ?_
        rw [hevent hu, htrue]
        simp only [Option.some.injEq, forall_eq']
        exact hiff
      · intro hall
        rw [along_cons] at hall
        rw [run_cons, hevent (hone.mpr hall.1), Option.bind_some, hrun (hall.2 s rfl),
          Event.calls]

end Session

theorem at_initializeBlock (key : UInt64) (block : BufferData UInt32 α N) :
    (initializeBlock key block).unwrap.At 0 0 :=
  ⟨headAt_zero.symm, headAt_zero.symm, Nat.le_refl 0⟩

/-- A freshly initialised buffer is in use. -/
theorem live_initializeBlock (key : UInt64) (block : BufferData UInt32 α N) :
    (Session.start (initializeBlock key block).unwrap).Live key := by
  have hattach : attach key (initializeBlock key block) = initializeBlock key block := by
    rw [attach, if_pos (isInitialized_initializeBlock key block)]
  have hrefines := start_refines key (initializeBlock key block)
  rw [hattach] at hrefines
  exact ⟨⟨rfl, rfl⟩, _, hrefines⟩

/-- **When re-attaching is transparent.** Take a freshly initialised block and any
sequence of calls and re-attachments with the true lap gap below `2^32` at each
`read`. Every re-attachment leaves every field of the block unchanged, and the
block and the results are those of the calls alone, if and only if at each
re-attachment the read position does not exceed the write position modulo
`N * 2^32`. -/
theorem reattach_transparent_iff (N : Capacity) (key : UInt64) (block : BufferData UInt32 α N)
    (events : List (Event α))
    (hgap : Along Session.trueEvent Session.GapBelowAt
      (Session.start (initializeBlock key block).unwrap) events) :
    (Along (Session.event key) (Session.Unchanged key)
        (Session.start (initializeBlock key block)) events ∧
      run (Session.event key) (Session.start (initializeBlock key block)) events =
        run Session.call (Session.start (initializeBlock key block)) (Event.calls events)) ↔
    Along Session.trueEvent Session.NotWrapped
      (Session.start (initializeBlock key block).unwrap) events := by
  have hlive := live_initializeBlock key block
  obtain ⟨hiff, hrun⟩ := hlive.run_event hgap
  rw [Session.wrap_start_unwrap] at hiff hrun
  exact ⟨fun h => hiff.mp h.1, fun h => ⟨hiff.mpr h, hrun h⟩⟩

/-- A write moves the writer on by one position. -/
theorem Session.call_write_moves {s : Session ℕ α N} {r w : ℕ} (hat : s.block.At r w)
    (value : α) : ∃ s', s.call (.write value) = some s' ∧ s'.block.At r (w + 1) :=
  ⟨_, Session.call_write_at hat value, hat.read, rfl, Nat.le_succ_of_le hat.le⟩

/-- A successful read moves the reader past the oldest position not overwritten. -/
theorem Session.call_read_moves {s : Session ℕ α N} {r w : ℕ} (hat : s.block.At r w)
    (hrw : r ≠ w) :
    ∃ s', s.call .read = some s' ∧ s'.block.At (max r (w - N.size) + 1) w := by
  refine ⟨_, Session.call_read_at_ne hat hrw, rfl, hat.write, ?_⟩
  have := hat.le
  have := N.size_pos
  omega

/-- Writing `k` values moves the writer on by `k` positions. -/
theorem Session.run_writes_moves (value : α) (k : ℕ) :
    ∀ {s : Session ℕ α N} {r w : ℕ}, s.block.At r w →
      ∃ s', run Session.trueEvent s (List.replicate k (.call (.write value))) = some s' ∧
        s'.block.At r (w + k) := by
  induction k with
  | zero => intro s r w hat; exact ⟨s, rfl, hat⟩
  | succ k ih =>
    intro s r w hat
    obtain ⟨s₁, hs₁, hat₁⟩ := Session.call_write_moves hat value
    obtain ⟨s', hs', hat'⟩ := ih hat₁
    refine ⟨s', ?_, by rwa [Nat.add_right_comm] at hat'⟩
    rw [List.replicate_succ, run_cons, Session.trueEvent, hs₁, Option.bind_some, hs']

/-- Two slots of zeroes. -/
def zeroBlock : BufferData UInt32 ℕ ⟨2, Capacity.two_le_two⟩ :=
  { data := fun _ => 0, writeHead := ⟨0, 0⟩, readHead := ⟨0, 0⟩, key := 0, crc := 0 }

/-- `2^33 - 1` writes, a read, and a write that makes the write lap wrap to `0`;
then another object is constructed. -/
def wrapEvents : List (Event ℕ) :=
  List.replicate (2 ^ 33 - 1) (.call (.write 0)) ++ [.call .read, .call (.write 0), .attach]

/-- The true lap gap stays below `2^32`, yet the re-attachment rewrites the block. -/
theorem reattach_wrapEvents_not_transparent :
    Along Session.trueEvent Session.GapBelowAt
      (Session.start (initializeBlock 0 zeroBlock).unwrap) wrapEvents ∧
    ¬ Along (Session.event 0) (Session.Unchanged 0)
      (Session.start (initializeBlock 0 zeroBlock)) wrapEvents := by
  obtain ⟨s, hs, hat⟩ := Session.run_writes_moves 0 (2 ^ 33 - 1)
    (s := Session.start (initializeBlock 0 zeroBlock).unwrap) (at_initializeBlock 0 zeroBlock)
  -- the reader skips to the oldest slot, then the writer completes lap `2^32 - 1`
  obtain ⟨s₁, hs₁, hat₁⟩ := Session.call_read_moves hat (by norm_num)
  obtain ⟨s₂, hs₂, hat₂⟩ := Session.call_write_moves hat₁ 0
  have hsize : Capacity.size ⟨2, by decide⟩ = 2 := rfl
  have hgap : Along Session.trueEvent Session.GapBelowAt
      (Session.start (initializeBlock 0 zeroBlock).unwrap) wrapEvents := by
    refine along_append.mpr ⟨along_of_forall_mem fun e he s => ?_, fun m hm => ?_⟩
    · rw [List.eq_of_mem_replicate he]
      trivial
    · rw [hs, Option.some.injEq] at hm
      subst hm
      have hlap : lapGap s.block.writeHead s.block.readHead < 2 ^ 32 := by
        rw [hat.read, hat.write, lapGap, headAt_lap, headAt_lap, hsize]
        norm_num
      simp only [along_cons, along_nil]
      exact ⟨hlap, fun _ _ => ⟨trivial, fun _ _ => ⟨trivial, fun _ _ => trivial⟩⟩⟩
  refine ⟨hgap, fun hall => ?_⟩
  have hlive := (live_initializeBlock 0 zeroBlock).run_event hgap
  rw [Session.wrap_start_unwrap] at hlive
  obtain ⟨-, htail⟩ := along_append.mp (hlive.1.mp hall)
  have htail := htail s hs
  simp only [along_cons] at htail
  have hlast : s₂.NotWrapped (.attach : Event ℕ) := ((htail.2 s₁ hs₁).2 s₂ hs₂).1
  rw [Session.NotWrapped, hat₂.read, hat₂.write, pos_headAt, pos_headAt, hsize] at hlast
  norm_num at hlast

/-- The equivalence at a run it can be checked on: a write, a re-attachment, a read
and another re-attachment. -/
theorem reattach_transparent_iff_short :
    (Along (Session.event 0) (Session.Unchanged 0) (Session.start (initializeBlock 0 zeroBlock))
        [.call (.write 1), .attach, .call .read, .attach] ∧
      run (Session.event 0) (Session.start (initializeBlock 0 zeroBlock))
          [.call (.write 1), .attach, .call .read, .attach] =
        run Session.call (Session.start (initializeBlock 0 zeroBlock))
          (Event.calls [.call (.write 1), .attach, .call .read, .attach])) ↔
    Along Session.trueEvent Session.NotWrapped
      (Session.start (initializeBlock 0 zeroBlock).unwrap)
      [.call (.write 1), .attach, .call .read, .attach] :=
  reattach_transparent_iff ⟨2, by decide⟩ 0 zeroBlock
    [.call (.write 1), .attach, .call .read, .attach] (by decide +kernel)

end Brasa.Buffer
