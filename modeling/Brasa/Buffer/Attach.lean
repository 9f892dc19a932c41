import Brasa.Buffer.Restart
import Brasa.Buffer.Torn

/-!
# Brasa.Buffer.Attach

**Constructing objects while others run.** The constructor of `Circular` loads the
heads, the key and the crc one after the other, and when it does not like them
stores four fields, with no lock around any of it.

* Among constructors alone this is harmless: whatever the memory held, any number
  of them racing leave the block that one of them alone would have left
  (`construct_race`), because all of them store the same values.
  A load or a store of a whole head is one step there.
* Against a writer in the middle of `advance` it is not: the acceptance test rejects
  the index `N`, and rejects the head that is a lap back if the reader is on the lap
  being completed. `Settled` is the exact condition for a construction that runs
  between two statements of the others, as one step, to go unnoticed
  (`attach_midway_iff`). A construction whose own loads are spread over several
  statements of the others is not covered: it can reject heads that no state showed
  together.
-/

namespace Brasa.Buffer.Attach

open Brasa.Lib

variable {α : Type*} {N : Capacity} {ι : Type*} [DecidableEq ι]

/-! ### Racing constructors -/

/-- Where a constructor is. -/
inductive Ctor
  /-- About to load `read_head`. -/
  | loadRead
  /-- About to load `write_head`, and to test the two. -/
  | loadWrite (readHead : Head UInt32)
  /-- About to compare `key`. -/
  | loadKey
  /-- About to compare `crc`. -/
  | loadCrc
  /-- About to reset `read_head`, the first statement of `initialize`. -/
  | storeRead
  | storeWrite
  | storeKey
  | storeCrc
  /-- The constructor has returned. -/
  | done
  deriving DecidableEq

/-- The block, and where each of the constructors is. -/
structure Race (ι : Type*) (α : Type*) (N : Capacity) where
  block : BufferData UInt32 α N
  ctor : ι → Ctor

/-- Before any step. -/
def Race.start (block : BufferData UInt32 α N) : Race ι α N :=
  { block, ctor := fun _ => .loadRead }

/-- The next step of a constructor for the key `key`: what it makes of the block, and
where it then is; none after it has returned. A head is loaded or stored as a whole,
where the compiled code may do it field by field. -/
def ctorStep (key : UInt64) (block : BufferData UInt32 α N) :
    Ctor → Option (BufferData UInt32 α N × Ctor)
  | .loadRead => some (block, .loadWrite block.readHead)
  | .loadWrite readHead =>
    some (block, if isValid N readHead block.writeHead then .loadKey else .storeRead)
  | .loadKey => some (block, if block.key = key then .loadCrc else .storeRead)
  | .loadCrc => some (block, if block.crc = crc32Value key then .done else .storeRead)
  | .storeRead => some ({ block with readHead := { index := 0, lap := 0 } }, .storeWrite)
  | .storeWrite => some ({ block with writeHead := { index := 0, lap := 0 } }, .storeKey)
  | .storeKey => some ({ block with key }, .storeCrc)
  | .storeCrc => some ({ block with crc := crc32Value key }, .done)
  | .done => none

/-- A step of constructor `i`. -/
def Race.step (key : UInt64) (s : Race ι α N) (i : ι) : Option (Race ι α N) :=
  (ctorStep key s.block (s.ctor i)).map fun next =>
    { block := next.1, ctor := Function.update s.ctor i next.2 }

/-- What a constructor that is at `ctor` has found out, when it has seen only `block`. -/
def Found (key : UInt64) (block : BufferData UInt32 α N) : Ctor → Prop
  | .loadRead => True
  | .loadWrite readHead => readHead = block.readHead
  | .loadKey => isValid N block.readHead block.writeHead = true
  | .loadCrc => isValid N block.readHead block.writeHead = true ∧ block.key = key
  | .storeRead => isInitialized key block ≠ true
  | .done => isInitialized key block = true
  | _ => False

/-- The fields that a constructor at `ctor` has stored hold their initial values. -/
def Stored (key : UInt64) (block : BufferData UInt32 α N) : Ctor → Prop
  | .storeWrite => block.readHead = { index := 0, lap := 0 }
  | .storeKey =>
    block.readHead = { index := 0, lap := 0 } ∧ block.writeHead = { index := 0, lap := 0 }
  | .storeCrc => block.readHead = { index := 0, lap := 0 } ∧
      block.writeHead = { index := 0, lap := 0 } ∧ block.key = key
  | .done => block = initializeBlock key block
  | _ => False

/-- Either nothing has been stored yet, or some constructor has rejected the block
and every field it has stored so far still holds its value. -/
def RaceInv (key : UInt64) (block : BufferData UInt32 α N) (s : Race ι α N) : Prop :=
  (s.block = block ∧ ∀ i, Found key block (s.ctor i)) ∨
    (isInitialized key block ≠ true ∧ s.block.data = block.data ∧
      ∃ i, Stored key s.block (s.ctor i))

section Steps

variable {key : UInt64} {block block' : BufferData UInt32 α N} {ctor ctor' other : Ctor}

theorem ctorStep_data (h : ctorStep key block ctor = some (block', ctor')) :
    block'.data = block.data := by
  cases ctor with
  | done => cases h
  | loadRead | loadWrite | loadKey | loadCrc | storeRead | storeWrite | storeKey | storeCrc =>
    rw [ctorStep, Option.some.injEq, Prod.mk.injEq] at h
    rw [← h.1]

/-- The first statement that stores anything is that of a constructor that has
rejected the block. -/
theorem Found.ctorStep (hfound : Found key block ctor)
    (h : ctorStep key block ctor = some (block', ctor')) :
    (block' = block ∧ Found key block ctor') ∨
      (isInitialized key block ≠ true ∧ Stored key block' ctor') := by
  cases ctor with
  | done => cases h
  | storeWrite | storeKey | storeCrc => exact hfound.elim
  | loadRead =>
    rw [Attach.ctorStep, Option.some.injEq, Prod.mk.injEq] at h
    exact Or.inl ⟨h.1.symm, h.2 ▸ rfl⟩
  | loadWrite readHead =>
    rw [Attach.ctorStep, Option.some.injEq, Prod.mk.injEq] at h
    obtain ⟨rfl, rfl⟩ := h
    rw [Found] at hfound
    subst hfound
    refine Or.inl ⟨rfl, ?_⟩
    split
    · assumption
    · next hvalid => simp [Found, isInitialized, hvalid]
  | loadKey =>
    rw [Attach.ctorStep, Option.some.injEq, Prod.mk.injEq] at h
    obtain ⟨rfl, rfl⟩ := h
    refine Or.inl ⟨rfl, ?_⟩
    split
    · next hkey => exact ⟨hfound, hkey⟩
    · next hkey => simp [Found, isInitialized, hkey]
  | loadCrc =>
    rw [Attach.ctorStep, Option.some.injEq, Prod.mk.injEq] at h
    obtain ⟨rfl, rfl⟩ := h
    refine Or.inl ⟨rfl, ?_⟩
    split
    · next hcrc => simp [Found, isInitialized, hfound.1, hfound.2, hcrc]
    · next hcrc => simp [Found, isInitialized, hcrc]
  | storeRead =>
    rw [Attach.ctorStep, Option.some.injEq, Prod.mk.injEq] at h
    obtain ⟨rfl, rfl⟩ := h
    exact Or.inr ⟨hfound, rfl⟩

/-- A constructor that stores goes on storing, until all four fields are stored. -/
theorem Stored.ctorStep (hstored : Stored key block ctor)
    (h : ctorStep key block ctor = some (block', ctor')) : Stored key block' ctor' := by
  cases ctor with
  | done => cases h
  | loadRead | loadWrite | loadKey | loadCrc | storeRead => exact hstored.elim
  | storeWrite =>
    rw [Attach.ctorStep, Option.some.injEq, Prod.mk.injEq] at h
    obtain ⟨rfl, rfl⟩ := h
    exact ⟨hstored, rfl⟩
  | storeKey =>
    rw [Attach.ctorStep, Option.some.injEq, Prod.mk.injEq] at h
    obtain ⟨rfl, rfl⟩ := h
    exact ⟨hstored.1, hstored.2, rfl⟩
  | storeCrc =>
    rw [Attach.ctorStep, Option.some.injEq, Prod.mk.injEq] at h
    obtain ⟨rfl, rfl⟩ := h
    exact BufferData.ext rfl hstored.2.1 hstored.1 hstored.2.2 rfl

/-- Whatever another constructor stores is what is stored there already, or is to be. -/
theorem Stored.elsewhere (hstored : Stored key block ctor)
    (h : Attach.ctorStep key block other = some (block', ctor')) : Stored key block' ctor := by
  cases other with
  | done => cases h
  | loadRead | loadWrite | loadKey | loadCrc =>
    rw [Attach.ctorStep, Option.some.injEq, Prod.mk.injEq] at h
    exact h.1 ▸ hstored
  | storeRead | storeWrite | storeKey | storeCrc =>
    rw [Attach.ctorStep, Option.some.injEq, Prod.mk.injEq] at h
    obtain ⟨rfl, -⟩ := h
    cases ctor with
    | loadRead | loadWrite | loadKey | loadCrc | storeRead => exact hstored.elim
    | storeWrite | storeKey | storeCrc => simp_all [Stored]
    | done =>
      rw [Stored, BufferData.ext_iff] at hstored ⊢
      simp_all [initializeBlock]

end Steps

/-- One step keeps the invariant. -/
theorem RaceInv.step {key : UInt64} {block : BufferData UInt32 α N} {s s' : Race ι α N} {i : ι}
    (h : RaceInv key block s) (hs' : Race.step key s i = some s') : RaceInv key block s' := by
  rw [Race.step, Option.map_eq_some_iff] at hs'
  obtain ⟨⟨block', ctor'⟩, hstep, rfl⟩ := hs'
  rcases h with ⟨rfl, hfound⟩ | ⟨hreject, hdata, j, hj⟩
  · rcases (hfound i).ctorStep hstep with ⟨rfl, hfound'⟩ | ⟨hreject, hstored⟩
    · refine Or.inl ⟨rfl, fun j => ?_⟩
      dsimp only
      by_cases hji : j = i
      · subst hji
        rwa [Function.update_self]
      · rw [Function.update_of_ne hji]
        exact hfound j
    · exact Or.inr ⟨hreject, ctorStep_data hstep, i, by simpa using hstored⟩
  · refine Or.inr ⟨hreject, (ctorStep_data hstep).trans hdata, j, ?_⟩
    dsimp only
    by_cases hji : j = i
    · subst hji
      rw [Function.update_self]
      exact hj.ctorStep hstep
    · rw [Function.update_of_ne hji]
      exact hj.elsewhere hstep

/-- **Racing constructors agree.** Start any number of constructors for one key on any
block and interleave their loads and stores in any order. As long as none has
rejected the block it is untouched, and once all have returned it is what a single
constructor makes of it: untouched if it was initialised, else initialised and
empty. -/
theorem construct_race [Nonempty ι] (N : Capacity) (key : UInt64) (block : BufferData UInt32 α N)
    (schedule : List ι) {s : Race ι α N}
    (hrun : run (Race.step key) (Race.start block) schedule = some s) :
    (isInitialized key block = true → s.block = block) ∧
    ((∀ i, s.ctor i = .done) → s.block = attach key block) := by
  have hstart : RaceInv key block (Race.start block : Race ι α N) := Or.inl ⟨rfl, fun _ => trivial⟩
  have h := run_invariant' (fun _ _ _ hI hs' => RaceInv.step hI hs') hstart hrun
  obtain ⟨i⟩ := ‹Nonempty ι›
  rcases h with ⟨hblock, hfound⟩ | ⟨hreject, hdata, j, hj⟩
  · refine ⟨fun _ => hblock, fun hdone => ?_⟩
    have hfound := hfound i
    rw [hdone i, Found] at hfound
    rw [hblock, attach, if_pos hfound]
  · refine ⟨fun hinit => absurd hinit hreject, fun hdone => ?_⟩
    rw [hdone j, Stored] at hj
    rw [attach, if_neg hreject]
    rw [hj]
    exact BufferData.ext hdata rfl rfl rfl rfl

/-- Two constructors on garbage: the second one rejects the block too, and returns when
the first has stored no more than `read_head`. -/
def overtaking : List Bool := [false, false, false] ++ List.replicate 6 true ++
  List.replicate 3 false

theorem construct_race_overtaking :
    ∃ s : Race Bool ℕ ⟨2, Capacity.two_le_two⟩,
      run (Race.step 42) (Race.start garbageBlock) overtaking = some s ∧
      s.block = attach 42 garbageBlock := by
  have hdone : (run (Race.step 42) (Race.start garbageBlock) overtaking).map
      (fun s => (s.ctor false, s.ctor true)) = some (.done, .done) := by decide +kernel
  obtain ⟨s, hs, hctor⟩ := Option.map_eq_some_iff.mp hdone
  obtain ⟨hfalse, htrue⟩ := Prod.mk.inj hctor
  exact ⟨s, hs, (construct_race ⟨2, by decide⟩ 42 garbageBlock overtaking hs).2
    (Bool.forall_bool.mpr ⟨hfalse, htrue⟩)⟩

/-! ### Constructing in the middle of a statement sequence -/

/-- A statement of the writer or of the reader, or the construction of another object
on the block. -/
inductive Event
  | step (party : Party)
  | attach

/-- The statements among the events. -/
def Event.parties : List Event → List Party
  | [] => []
  | .step party :: events => party :: parties events
  | .attach :: events => parties events

section Midway

variable {values : ℕ → α} {key : UInt64}

/-- One event of the code. A construction is atomic: no statement of the others comes
between its loads and stores. -/
def event (values : ℕ → α) (key : UInt64) (s : Torn.State α N) : Event → Option (Torn.State α N)
  | .step party => Torn.step values s party
  | .attach => some { s with block := Buffer.attach key s.block }

/-- The same event, with constructions that go unnoticed. -/
def quietEvent (values : ℕ → α) (s : Torn.State α N) : Event → Option (Torn.State α N)
  | .step party => Torn.step values s party
  | .attach => some s

/-- The statement keeps to fewer than `2^32` laps, and its load of the lap is safe. -/
def Harmless (s : Torn.State α N) : Event → Prop
  | .step party => Torn.FewLaps s party ∧ Torn.SafeLoad s party
  | .attach => True

instance (s : Torn.State α N) : ∀ e : Event, Decidable (Harmless s e)
  | .step party => inferInstanceAs (Decidable (Torn.FewLaps s party ∧ Torn.SafeLoad s party))
  | .attach => isTrue trivial

/-- The construction leaves every field of the block as it is. -/
def Unchanged (key : UInt64) (s : Torn.State α N) : Event → Prop
  | .step _ => True
  | .attach => Buffer.attach key s.block = s.block

/-- The writer does not show the index `N`; and if it has reset the index and not yet
counted the lap, the reader has not consumed anything of that lap. -/
def Settled (s : Torn.State α N) : Event → Prop
  | .step _ => True
  | .attach => s.block.writeHead.index ≠ N.val ∧
      (s.writer = .incLap → Torn.posOf N s.block.readHead + N.size ≤ s.stores)

/-- The acceptance test in the middle of `do_write`. -/
theorem isValid_midway_iff {s : Torn.State α N} (h : Torn.Inv values s) :
    isValid N s.block.readHead s.block.writeHead = true ↔ Settled s .attach := by
  have hw := h.writer
  have hle := h.le
  rw [isValid_iff]
  change s.block.readHead.index.toNat < N.size ∧ _ ∧
    Torn.posOf N s.block.readHead ≤ Torn.posOf N s.block.writeHead ↔ _
  rw [Settled, ne_eq, ← UInt32.toNat_inj]
  change _ ↔ ¬ s.block.writeHead.index.toNat = N.size ∧ _
  unfold Torn.WriterInv at hw
  unfold Torn.published at hle
  cases hpc : s.writer with
  | store =>
    simp only [hpc] at hw hle ⊢
    exact ⟨fun _ => ⟨Nat.ne_of_lt hw.1, fun hc => nomatch hc⟩,
      fun _ => ⟨h.index, hw.1, hle.trans_eq hw.2.symm⟩⟩
  | incIndex =>
    simp only [hpc] at hw hle ⊢
    refine ⟨fun _ => ⟨Nat.ne_of_lt hw.1, fun hc => nomatch hc⟩, fun _ => ⟨h.index, hw.1, ?_⟩⟩
    omega
  | test =>
    simp only [hpc] at hw hle ⊢
    exact ⟨fun hv => ⟨Nat.ne_of_lt hv.2.1, fun hc => nomatch hc⟩,
      fun hs => ⟨h.index, Nat.lt_of_le_of_ne hw.1 hs.1, hle.trans_eq hw.2.symm⟩⟩
  | resetIndex =>
    simp only [hpc] at hw hle ⊢
    exact ⟨fun hv => absurd hw.1 (Nat.ne_of_lt hv.2.1), fun hs => absurd hw.1 hs.1⟩
  | incLap =>
    simp only [hpc] at hw hle ⊢
    have hpos := N.size_pos
    refine ⟨fun hv => ⟨?_, fun _ => ?_⟩, fun hs => ⟨h.index, ?_, ?_⟩⟩
    · omega
    · have := hv.2.2
      omega
    · exact hw.1.trans_lt hpos
    · have := hs.2 trivial
      omega

/-- No statement touches the key or the crc. -/
theorem stamped_step {s s' : Torn.State α N} {party : Party}
    (h : s.block.Stamped key) (hs' : Torn.step values s party = some s') :
    s'.block.Stamped key := by
  cases party with
  | writer =>
    rw [Torn.step, Torn.writerStep] at hs'
    cases hpc : s.writer with
    | store =>
      simp only [hpc, Option.map_eq_some_iff] at hs'
      obtain ⟨data, -, rfl⟩ := hs'
      exact ⟨h.ownKey, h.ownCrc⟩
    | incIndex | test | resetIndex | incLap =>
      simp only [hpc, Option.some.injEq] at hs'
      subst hs'
      exact ⟨h.ownKey, h.ownCrc⟩
  | reader =>
    rw [Torn.step, Torn.readerStep] at hs'
    cases hpc : s.reader with
    | loadIndex | loadLap | commit =>
      simp only [hpc, Option.some.injEq] at hs'
      subst hs'
      exact ⟨h.ownKey, h.ownCrc⟩
    | loadRead index lap =>
      simp only [hpc] at hs'
      cases hsel : selectHead { index, lap } s.block.readHead with
      | none =>
        rw [hsel, Option.some.injEq] at hs'
        subst hs'
        exact h
      | some head =>
        rw [hsel, Option.some.injEq] at hs'
        subst hs'
        exact h
    | copy head =>
      simp only [hpc, Option.map_eq_some_iff] at hs'
      obtain ⟨value, -, rfl⟩ := hs'
      exact h

/-- A harmless event keeps the invariant of the statements, and the stamp. -/
theorem quietEvent_inv {s s' : Torn.State α N} {e : Event}
    (h : Torn.Inv values s ∧ s.block.Stamped key) (hharmless : Harmless s e)
    (hs' : quietEvent values s e = some s') : Torn.Inv values s' ∧ s'.block.Stamped key := by
  cases e with
  | attach =>
    rw [quietEvent, Option.some.injEq] at hs'
    exact hs' ▸ h
  | step party =>
    refine ⟨?_, stamped_step h.2 hs'⟩
    have hnext : ∃ s'', Torn.step values s party = some s'' ∧ Torn.Inv values s'' := by
      cases party with
      | writer => exact h.1.step_writer hharmless.1
      | reader => exact h.1.step_reader hharmless.1 hharmless.2
    obtain ⟨s'', hs'', hinv⟩ := hnext
    rw [quietEvent, hs'', Option.some.injEq] at hs'
    exact hs' ▸ hinv

/-- Constructions that go unnoticed leave the run of the statements. -/
theorem run_quietEvent (values : ℕ → α) :
    ∀ (events : List Event) (s : Torn.State α N),
      run (quietEvent values) s events = run (Torn.step values) s (Event.parties events)
  | [], _ => rfl
  | .attach :: events, s => run_quietEvent values events s
  | .step party :: events, s => by
    rw [run_cons, Event.parties, run_cons, quietEvent]
    exact congrArg _ (funext fun s' => run_quietEvent values events s')

/-- The run lemma behind `attach_midway_iff`. -/
theorem run_event_iff {s : Torn.State α N} {events : List Event}
    (h : Torn.Inv values s ∧ s.block.Stamped key)
    (hharmless : Along (quietEvent values) Harmless s events) :
    (Along (event values key) (Unchanged key) s events ↔
        Along (quietEvent values) Settled s events) ∧
      (Along (quietEvent values) Settled s events →
        run (event values key) s events = run (quietEvent values) s events) := by
  refine along_iff_of_agree (P := Harmless)
    (I := fun s : Torn.State α N => Torn.Inv values s ∧ s.block.Stamped key)
    (fun s e s' => quietEvent_inv) ?_ ?_ h hharmless
  · intro s e hI _
    cases e with
    | step party => exact Iff.rfl
    | attach => exact (attach_eq_self_iff hI.2).trans (isValid_midway_iff hI.1)
  · intro s e hI _ hQ
    cases e with
    | step party => rfl
    | attach =>
      rw [event, quietEvent, (attach_eq_self_iff hI.2).mpr ((isValid_midway_iff hI.1).mpr hQ)]

/-- **When a construction in the middle of things goes unnoticed.** From an initialised
empty block, interleave the statements of the writer and of the reader and the
constructions of other objects in any order, each construction being one atomic step,
with fewer than `2^32` laps and safe loads of the lap. Every construction leaves every
field unchanged, and the run is that of the statements alone, if and only if each of
them happens in a settled state. -/
theorem attach_midway_iff (N : Capacity) (key : UInt64) (block : BufferData UInt32 α N)
    (values : ℕ → α) (events : List Event)
    (hharmless : Along (quietEvent values) Harmless
      (Torn.State.start (initializeBlock key block)) events) :
    (Along (event values key) (Unchanged key)
        (Torn.State.start (initializeBlock key block)) events ∧
      run (event values key) (Torn.State.start (initializeBlock key block)) events =
        run (Torn.step values) (Torn.State.start (initializeBlock key block))
          (Event.parties events)) ↔
    Along (quietEvent values) Settled (Torn.State.start (initializeBlock key block)) events := by
  have hstart : Torn.Inv values (Torn.State.start (initializeBlock key block)) ∧
      (Torn.State.start (initializeBlock key block)).block.Stamped key :=
    ⟨Torn.inv_start values key block, rfl, rfl⟩
  obtain ⟨hiff, hrun⟩ := run_event_iff hstart hharmless
  refine ⟨fun h => hiff.mp h.1, fun h => ⟨hiff.mpr h, ?_⟩⟩
  rw [hrun h, run_quietEvent]

/-- The reader's object is constructed after the first `++head.index` of the writer,
and again when the writer has reset the index and not yet counted the lap. -/
theorem attach_midway_iff_lap :
    (Along (event id 0) (Unchanged 0) (Torn.State.start (initializeBlock 0 zeroBlock))
        ([.step .writer, .step .writer, .attach] ++ List.replicate 5 (.step .writer) ++
          [.attach, .step .writer]) ∧
      run (event id 0) (Torn.State.start (initializeBlock 0 zeroBlock))
          ([.step .writer, .step .writer, .attach] ++ List.replicate 5 (.step .writer) ++
            [.attach, .step .writer]) =
        run (Torn.step id) (Torn.State.start (initializeBlock 0 zeroBlock))
          (Event.parties ([.step .writer, .step .writer, .attach] ++
            List.replicate 5 (.step .writer) ++ [.attach, .step .writer]))) ↔
    Along (quietEvent id) Settled (Torn.State.start (initializeBlock 0 zeroBlock))
      ([.step .writer, .step .writer, .attach] ++ List.replicate 5 (.step .writer) ++
        [.attach, .step .writer]) :=
  attach_midway_iff ⟨2, by decide⟩ 0 zeroBlock id
    ([.step .writer, .step .writer, .attach] ++ List.replicate 5 (.step .writer) ++
      [.attach, .step .writer]) (by decide +kernel)

end Midway

end Brasa.Buffer.Attach
