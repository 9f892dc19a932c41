import Brasa.Lib.Loop
import Brasa.Lib.Run
import Mathlib.Data.UInt

/-!
# Brasa.Chronus.Waiter

`Waiter` guarantees that **a certain amount of time has elapsed**: it stores the tick
at which the time will be over, and `wait()` sleeps in small steps until the clock
has reached it.

The clock and the sleeper are template parameters. Here they act on a world of any
type, so that a call of either may change what later calls do. The ticks are numbers
of any width.
-/

namespace Brasa.Chronus

open Brasa.Lib

/-- `NOW_FUNC` and `SLEEPER_FUNC`. -/
structure Clock (σ : Type) (w : ℕ) where
  now : σ → BitVec w × σ
  sleep : UInt32 → σ → σ

structure Waiter (w : ℕ) where
  unitsOfTime : UInt32
  sleepSize : UInt32
  endOfTime : BitVec w
deriving DecidableEq, Repr

variable {σ : Type} {w : ℕ}

/-- `now_() + units_of_time_`, computed in the wider of the types of its operands and
stored as a `TimeT`. -/
def endOfTime (now : BitVec w) (unitsOfTime : UInt32) : BitVec w :=
  (now.setWidth (max w 32) + unitsOfTime.toBitVec.setWidth (max w 32)).setWidth w

/-- The initial value of `sleep_size_`. -/
def sleepSize (unitsOfTime : UInt32) : UInt32 :=
  if 10 ≤ unitsOfTime then unitsOfTime / 10 else 1

/-- What a call of the clock returns in this world. -/
def Clock.time (clock : Clock σ w) (s : σ) : ℕ := (clock.now s).1.toNat

namespace Waiter

/-- The constructor. -/
def create (clock : Clock σ w) (unitsOfTime : UInt32) (s : σ) : Waiter w × σ :=
  let (now, s) := clock.now s
  ({ unitsOfTime := unitsOfTime
     sleepSize := Chronus.sleepSize unitsOfTime
     endOfTime := Chronus.endOfTime now unitsOfTime }, s)

def elapsed (clock : Clock σ w) (self : Waiter w) (s : σ) : Bool × σ :=
  let (now, s) := clock.now s
  (self.endOfTime ≤ now, s)

/-- One round of the loop of `wait`. -/
def waitBody (clock : Clock σ w) (self : Waiter w) (s : σ) : σ ⊕ σ :=
  let (done, s) := self.elapsed clock s
  if done then .inr s else .inl (clock.sleep self.sleepSize s)

/-- `wait`, if it returns within so many rounds: how often it has slept, and the world
it returns in. -/
def wait (clock : Clock σ w) (self : Waiter w) (rounds : ℕ) (s : σ) : Option (ℕ × σ) :=
  Loop.loop (self.waitBody clock) rounds s

def reset (clock : Clock σ w) (self : Waiter w) (s : σ) : Waiter w × σ :=
  let (now, s) := clock.now s
  ({ self with endOfTime := Chronus.endOfTime now self.unitsOfTime }, s)

end Waiter

/-! ### The deadline -/

/-- The sum is stored without its carry, whatever the width of the ticks. -/
theorem endOfTime_toNat (now : BitVec w) (unitsOfTime : UInt32) :
    (endOfTime now unitsOfTime).toNat = (now.toNat + unitsOfTime.toNat) % 2 ^ w := by
  have hnow : now.toNat % 2 ^ max w 32 = now.toNat :=
    Nat.mod_eq_of_lt (lt_of_lt_of_le now.isLt (Nat.pow_le_pow_right (by decide) (le_max_left w 32)))
  have hunits : unitsOfTime.toNat % 2 ^ max w 32 = unitsOfTime.toNat :=
    Nat.mod_eq_of_lt (lt_of_lt_of_le unitsOfTime.toNat_lt
      (Nat.pow_le_pow_right (by decide) (le_max_right w 32)))
  rw [endOfTime, BitVec.toNat_setWidth, BitVec.toNat_add, BitVec.toNat_setWidth,
    BitVec.toNat_setWidth, hnow, UInt32.toNat_toBitVec, hunits,
    Nat.mod_mod_of_dvd _ (Nat.pow_dvd_pow 2 (le_max_left w 32))]

theorem sleepSize_toNat (unitsOfTime : UInt32) : (sleepSize unitsOfTime).toNat
    = if 10 ≤ unitsOfTime.toNat then unitsOfTime.toNat / 10 else 1 := by
  rw [sleepSize, apply_ite UInt32.toNat]
  exact if_congr UInt32.le_iff_toNat_le rfl rfl

theorem sleepSize_pos (unitsOfTime : UInt32) : 0 < (sleepSize unitsOfTime).toNat := by
  rw [sleepSize_toNat]
  split <;> omega

/-- 19 sleeps last at least as long as the whole time. -/
theorem le_sleepSize (unitsOfTime : UInt32) :
    unitsOfTime.toNat ≤ 19 * (sleepSize unitsOfTime).toNat := by
  rw [sleepSize_toNat]
  split <;> omega

/-! ### Runs -/

/-- A waiter in use. Two fields are for the record only: what the clock read in the
constructor or the last `reset()`, and, right after an `elapsed()` that returned
`true`, what it read there. -/
structure Run (σ : Type) (w : ℕ) where
  waiter : Waiter w
  world : σ
  waiting : Bool
  start : BitVec w
  expired : Option (BitVec w)

/-- The calls of a client, and the rounds of a `wait()` it has called. -/
inductive Call
  | reset
  | elapsed
  | wait
  | round
deriving DecidableEq, Repr

/-- The run right after the constructor. -/
def init (clock : Clock σ w) (unitsOfTime : UInt32) (s : σ) : Run σ w :=
  let (waiter, world) := Waiter.create clock unitsOfTime s
  ⟨waiter, world, false, (clock.now s).1, none⟩

/-- One step of a run. During `wait()` there are no other calls. -/
def step (clock : Clock σ w) (r : Run σ w) : Call → Option (Run σ w)
  | .reset =>
    if r.waiting then none
    else
      let (waiter, world) := r.waiter.reset clock r.world
      some ⟨waiter, world, false, (clock.now r.world).1, none⟩
  | .elapsed =>
    if r.waiting then none
    else
      let (done, world) := r.waiter.elapsed clock r.world
      some { r with world := world, expired := if done then some (clock.now r.world).1 else none }
  | .wait => if r.waiting then none else some { r with waiting := true, expired := none }
  | .round =>
    if r.waiting then
      match r.waiter.waitBody clock r.world with
      | .inr world =>
        some { r with world := world, waiting := false, expired := some (clock.now r.world).1 }
      | .inl world => some { r with world := world, expired := none }
    else none

/-- A call in which `elapsed()` reads the clock. -/
def Polls (r : Run σ w) : Call → Prop
  | .elapsed => r.waiting = false
  | .round => r.waiting = true
  | .reset | .wait => False

/-! ### What the calls do to a run -/

/-- The record of a run agrees with its waiter. -/
structure Recorded (units : UInt32) (r : Run σ w) : Prop where
  unitsOfTime : r.waiter.unitsOfTime = units
  sleepSize : r.waiter.sleepSize = Chronus.sleepSize units
  endOfTime : r.waiter.endOfTime = Chronus.endOfTime r.start units

theorem init_recorded (clock : Clock σ w) (units : UInt32) (s : σ) :
    Recorded units (init clock units s) := ⟨rfl, rfl, rfl⟩

/-- What `elapsed()` answers, in terms of the deadline. -/
theorem elapsed_iff {clock : Clock σ w} {self : Waiter w} {s : σ} :
    (self.elapsed clock s).1 = true ↔ self.endOfTime.toNat ≤ clock.time s := by
  rw [Waiter.elapsed, Clock.time, decide_eq_true_eq, BitVec.le_def]

theorem waitBody_eq (clock : Clock σ w) (self : Waiter w) (s : σ) :
    self.waitBody clock s
      = if self.endOfTime.toNat ≤ clock.time s then .inr (clock.now s).2
        else .inl (clock.sleep self.sleepSize (clock.now s).2) :=
  if_congr elapsed_iff rfl rfl

/-- A step reads the clock for a new start, or polls it, or begins a `wait()`. -/
theorem step_cases {clock : Clock σ w} {r r' : Run σ w} {call : Call}
    (h : step clock r call = some r') :
    (call = .reset ∧ r'.waiter = { r.waiter with
        endOfTime := Chronus.endOfTime (clock.now r.world).1 r.waiter.unitsOfTime } ∧
      r'.start = (clock.now r.world).1 ∧ r'.expired = none) ∨
    (Polls r call ∧ r'.waiter = r.waiter ∧ r'.start = r.start ∧
      r'.expired = if r.waiter.endOfTime.toNat ≤ clock.time r.world
        then some (clock.now r.world).1 else none) ∨
    (call = .wait ∧ r'.waiter = r.waiter ∧ r'.start = r.start ∧ r'.expired = none) := by
  cases call with
  | reset =>
    rw [step] at h
    split at h
    · cases h
    · cases h
      exact .inl ⟨rfl, rfl, rfl, rfl⟩
  | wait =>
    rw [step] at h
    split at h
    · cases h
    · cases h
      exact .inr (.inr ⟨rfl, rfl, rfl, rfl⟩)
  | elapsed =>
    rw [step] at h
    split at h
    · cases h
    · rename_i hidle
      cases h
      refine .inr (.inl ⟨Bool.eq_false_of_not_eq_true hidle, rfl, rfl, ?_⟩)
      exact if_congr elapsed_iff rfl rfl
  | round =>
    rw [step] at h
    split at h
    · rename_i hwaiting
      rw [waitBody_eq] at h
      split at h
      · rename_i world hbody
        split at hbody
        · cases h
          exact .inr (.inl ⟨hwaiting, rfl, rfl, (if_pos ‹_›).symm⟩)
        · cases hbody
      · rename_i world hbody
        split at hbody
        · cases hbody
        · cases h
          exact .inr (.inl ⟨hwaiting, rfl, rfl, (if_neg ‹_›).symm⟩)
    · cases h

/-- A poll is a step. -/
theorem step_of_polls (clock : Clock σ w) {r : Run σ w} {call : Call} (h : Polls r call) :
    ∃ r', step clock r call = some r' := by
  cases call with
  | reset => cases h
  | wait => cases h
  | elapsed =>
    have hidle : r.waiting = false := h
    exact ⟨_, by rw [step, hidle]; rfl⟩
  | round =>
    have hwaiting : r.waiting = true := h
    rw [step, if_pos hwaiting]
    cases r.waiter.waitBody clock r.world with
    | inl world => exact ⟨_, rfl⟩
    | inr world => exact ⟨_, rfl⟩

/-- The record stays right. -/
theorem step_recorded {clock : Clock σ w} {units : UInt32} {r r' : Run σ w} {call : Call}
    (hr : Recorded units r) (h : step clock r call = some r') : Recorded units r' := by
  obtain ⟨-, hwaiter, hstart, -⟩ | ⟨-, hwaiter, hstart, -⟩ | ⟨-, hwaiter, hstart, -⟩ := step_cases h
  · refine ⟨?_, ?_, ?_⟩
    · rw [hwaiter]
      exact hr.unitsOfTime
    · rw [hwaiter]
      exact hr.sleepSize
    · rw [hwaiter, hstart, ← hr.unitsOfTime]
  · exact ⟨by rw [hwaiter, hr.unitsOfTime], by rw [hwaiter, hr.sleepSize],
      by rw [hwaiter, hstart, hr.endOfTime]⟩
  · exact ⟨by rw [hwaiter, hr.unitsOfTime], by rw [hwaiter, hr.sleepSize],
      by rw [hwaiter, hstart, hr.endOfTime]⟩

/-! ### No early report -/

/-- Where `elapsed()` has just returned `true`, the reading it used is at least
`units_of_time` past the start. -/
def NotEarly (units : UInt32) (r : Run σ w) : Prop :=
  ∀ t, r.expired = some t → r.start.toNat + units.toNat ≤ t.toNat

/-- The clock is polled after a start from which the deadline is a tick, or before it has
come to where the sum wrapped to. -/
def InTime (clock : Clock σ w) (units : UInt32) (r : Run σ w) (call : Call) : Prop :=
  Polls r call → r.start.toNat + units.toNat < 2 ^ w ∨
    clock.time r.world < (r.start.toNat + units.toNat) % 2 ^ w

theorem not_early_of_inTime {clock : Clock σ w} {units : UInt32} {r r' : Run σ w} {call : Call}
    (hr : Recorded units r) (htime : InTime clock units r call) (h : step clock r call = some r') :
    NotEarly units r' := by
  intro t ht
  obtain ⟨-, -, -, hexpired⟩ | ⟨hpolls, -, hstart, hexpired⟩ | ⟨-, -, -, hexpired⟩ := step_cases h
  · rw [hexpired] at ht
    cases ht
  · rw [hexpired, hr.endOfTime, endOfTime_toNat] at ht
    split at ht
    · rename_i hend
      cases ht
      rcases htime hpolls with hfit | hbefore
      · rw [Nat.mod_eq_of_lt hfit] at hend
        rw [hstart]
        exact hend
      · exact absurd hend (Nat.not_le.mpr hbefore)
    · cases ht
  · rw [hexpired] at ht
    cases ht

/-- A poll past a wrapped deadline reports early: no tick is as late as the true one. -/
theorem early_of_wrapped {clock : Clock σ w} {units : UInt32} {r : Run σ w} {call : Call}
    (hr : Recorded units r) (h : ∀ r', step clock r call = some r' → NotEarly units r') :
    InTime clock units r call := by
  intro hpolls
  by_contra hwrapped
  rw [not_or, Nat.not_lt, Nat.not_lt] at hwrapped
  obtain ⟨r', hr'⟩ := step_of_polls clock hpolls
  obtain ⟨rfl, -⟩ | ⟨-, -, hstart, hexpired⟩ | ⟨rfl, -⟩ := step_cases hr'
  · exact hpolls
  · rw [hr.endOfTime, endOfTime_toNat, if_pos hwrapped.2] at hexpired
    have hlate := h r' hr' _ hexpired
    rw [hstart] at hlate
    have hlt : (clock.now r.world).1.toNat < 2 ^ w := BitVec.isLt _
    omega
  · exact hpolls

/-- **`elapsed()` never reports early in a run exactly if every poll is in time.** -/
theorem never_early_iff (clock : Clock σ w) (units : UInt32) (s : σ) (calls : List Call) :
    Always (step clock) (NotEarly units) (init clock units s) calls ↔
      Along (step clock) (InTime clock units) (init clock units s) calls := by
  have hstep : ∀ r call r', Recorded units r ∧ NotEarly units r → InTime clock units r call →
      step clock r call = some r' → Recorded units r' ∧ NotEarly units r' :=
    fun r call r' hr htime h => ⟨step_recorded hr.1 h, not_early_of_inTime hr.1 htime h⟩
  exact always_iff_along (fun r hr => hr.2) hstep (fun r call hr h => early_of_wrapped hr.1 h)
    ⟨init_recorded clock units s, nofun⟩

/-- A clock that only the sleeper moves. -/
def Clock.manual (w : ℕ) : Clock (BitVec w) w :=
  ⟨fun t => (t, t), fun k t => t + k.toBitVec.setWidth w⟩

/-- Ten ticks from the last but five of a 32-bit clock: `elapsed()` is `true` at once. -/
theorem early_at_wrap :
    ¬Always (step (Clock.manual 32)) (NotEarly 10) (init (Clock.manual 32) 10 4294967290#32)
      [.elapsed] := by
  intro h
  have hearly := Always.last h rfl _ rfl
  exact absurd hearly (by decide)

end Brasa.Chronus
