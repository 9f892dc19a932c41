import Brasa.Chronus.Waiter
import Mathlib.Data.Int.ModEq
import Mathlib.Tactic.Ring

/-!
# Brasa.Chronus.Chronometer

`Chronometer` measures the ticks since it was made or reset, with the difference of two
readings of its clock (`count`) or with both of them (`mark`). A clock of `w` bits shows
the time up to its wraps, and what is left of a measurement then depends on the type that
the difference is computed in: for narrow ticks that is `int`, for the others the type of
the ticks itself, and for the fields of `Elapsed` always `uint64_t`.

`measured_iff` says which measurements are right, for every width and along every run.
-/

namespace Brasa.Chronus

open Brasa.Lib

variable {σ : Type} {w : ℕ}

/-- `Elapsed`. -/
structure Elapsed where
  chronoId : UInt32
  markId : UInt32
  begin_ : UInt64
  end_ : UInt64
deriving DecidableEq, Repr

structure Chronometer (w : ℕ) where
  id : UInt32
  begin_ : BitVec w
deriving DecidableEq, Repr

/-- A tick count as an `uint64_t`. -/
def toUInt64 (now : BitVec w) : UInt64 := ⟨now.setWidth 64⟩

/-- `now - begin` as an `uint64_t`. Ticks of less than 32 bits are promoted to `int`, and
the difference may be negative before it is converted. -/
def ticksSince (now begin_ : BitVec w) : UInt64 :=
  if w < 32 then toUInt64 now - toUInt64 begin_ else toUInt64 (now - begin_)

namespace Chronometer

/-- The constructor. -/
def create (clock : Clock σ w) (id : UInt32) (s : σ) : Chronometer w × σ :=
  let (now, s) := clock.now s
  (⟨id, now⟩, s)

def mark (clock : Clock σ w) (self : Chronometer w) (markId : UInt32) (s : σ) : Elapsed × σ :=
  let (now, s) := clock.now s
  (⟨self.id, markId, toUInt64 self.begin_, toUInt64 now⟩, s)

def count (clock : Clock σ w) (self : Chronometer w) (s : σ) : UInt64 × σ :=
  let (now, s) := clock.now s
  (ticksSince now self.begin_, s)

def reset (clock : Clock σ w) (self : Chronometer w) (s : σ) : Chronometer w × σ :=
  let (now, s) := clock.now s
  ({ self with begin_ := now }, s)

end Chronometer

/-! ### Differences of readings -/

/-- What a clock of `w` bits shows. -/
def reading (w t : ℕ) : BitVec w := BitVec.ofNat w t

/-- The time from `b` to `t` fits into 64 bits, and is not changed by the wraps of a clock
of `w` bits: there were none, or so many that they are not seen in 64 bits either. -/
def Unwrapped (w b t : ℕ) : Prop := t - b < 2 ^ 64 ∧ 2 ^ (64 - w) ∣ t / 2 ^ w - b / 2 ^ w

instance (w b t : ℕ) : Decidable (Unwrapped w b t) := inferInstanceAs (Decidable (_ ∧ _))

theorem toUInt64_reading (hw : w ≤ 64) (t : ℕ) : (toUInt64 (reading w t)).toNat = t % 2 ^ w := by
  have hlt : t % 2 ^ w < 2 ^ 64 :=
    Nat.lt_of_lt_of_le (Nat.mod_lt _ (Nat.two_pow_pos w)) (Nat.pow_le_pow_right (by decide) hw)
  show ((BitVec.ofNat w t).setWidth 64).toNat = t % 2 ^ w
  rw [BitVec.toNat_setWidth, BitVec.toNat_ofNat, Nat.mod_eq_of_lt hlt]

/-- The difference of two readings in 64 bits. -/
theorem sub_reading_iff (hw : w ≤ 64) {b t : ℕ} (hbt : b ≤ t) :
    (toUInt64 (reading w t) - toUInt64 (reading w b)).toNat = t - b ↔ Unwrapped w b t := by
  have hpow : 2 ^ 64 = 2 ^ w * 2 ^ (64 - w) := by rw [← Nat.pow_add, Nat.add_sub_cancel' hw]
  have hb : b % 2 ^ w < 2 ^ 64 :=
    Nat.lt_of_lt_of_le (Nat.mod_lt _ (Nat.two_pow_pos w)) (Nat.pow_le_pow_right (by decide) hw)
  -- what the wraps have taken from the time between the readings
  have hwraps : t - b + b % 2 ^ w = t % 2 ^ w + 2 ^ w * (t / 2 ^ w - b / 2 ^ w) := by
    have ht := Nat.mod_add_div t (2 ^ w)
    have hb := Nat.mod_add_div b (2 ^ w)
    have hle : 2 ^ w * (b / 2 ^ w) ≤ 2 ^ w * (t / 2 ^ w) :=
      Nat.mul_le_mul_left _ (Nat.div_le_div_right hbt)
    rw [Nat.mul_sub]
    omega
  have hcongr : (2 ^ 64 - b % 2 ^ w + t % 2 ^ w) % 2 ^ 64 = (t - b) % 2 ^ 64
      ↔ 2 ^ (64 - w) ∣ t / 2 ^ w - b / 2 ^ w := by
    calc (2 ^ 64 - b % 2 ^ w + t % 2 ^ w) % 2 ^ 64 = (t - b) % 2 ^ 64
        ↔ 2 ^ 64 - b % 2 ^ w + t % 2 ^ w + b % 2 ^ w ≡ t - b + b % 2 ^ w [MOD 2 ^ 64] :=
          ⟨fun h => Nat.ModEq.add_right _ h, fun h => Nat.ModEq.add_right_cancel' _ h⟩
      _ ↔ t % 2 ^ w + 2 ^ 64 ≡ t % 2 ^ w + 2 ^ w * (t / 2 ^ w - b / 2 ^ w) [MOD 2 ^ 64] := by
          rw [hwraps, show 2 ^ 64 - b % 2 ^ w + t % 2 ^ w + b % 2 ^ w = t % 2 ^ w + 2 ^ 64 by omega]
      _ ↔ 2 ^ 64 ∣ 2 ^ w * (t / 2 ^ w - b / 2 ^ w) := by
          rw [Nat.add_modulus_modEq_iff, Nat.left_modEq_add_iff]
      _ ↔ 2 ^ (64 - w) ∣ t / 2 ^ w - b / 2 ^ w := by
          rw [hpow, Nat.mul_dvd_mul_iff_left (Nat.two_pow_pos w)]
  rw [UInt64.toNat_sub, toUInt64_reading hw, toUInt64_reading hw, Unwrapped]
  constructor
  · intro h
    have hlt : t - b < 2 ^ 64 := h ▸ Nat.mod_lt _ (by decide)
    exact ⟨hlt, hcongr.mp (by rw [h, Nat.mod_eq_of_lt hlt])⟩
  · rintro ⟨hlt, hdvd⟩
    rw [hcongr.mpr hdvd, Nat.mod_eq_of_lt hlt]

/-- The difference of two readings in the type of the ticks. -/
theorem reading_sub_iff (hw : w ≤ 64) {b t : ℕ} (hbt : b ≤ t) :
    (toUInt64 (reading w t - reading w b)).toNat = t - b ↔ t - b < 2 ^ w := by
  have hadd : reading w t = reading w (t - b) + reading w b := by
    rw [reading, reading, reading, ← BitVec.ofNat_add, Nat.sub_add_cancel hbt]
  rw [hadd, BitVec.add_sub_cancel, toUInt64_reading hw]
  exact ⟨fun h => h ▸ Nat.mod_lt _ (Nat.two_pow_pos w), fun h => Nat.mod_eq_of_lt h⟩

/-! ### Runs -/

/-- A measurement, with the times at which the chronometer was started and read. -/
inductive Measurement
  | marked (elapsed : Elapsed) (markId : UInt32) (begun now : ℕ)
  | counted (ticks : UInt64) (begun now : ℕ)
deriving DecidableEq, Repr

/-- A chronometer in use, with a record of its last start and of its measurements. -/
structure Timing (σ : Type) (w : ℕ) where
  chronometer : Chronometer w
  world : σ
  begun : ℕ
  log : List Measurement

/-- A call of a client, or anything else that changes the world. -/
inductive Timing.Act (σ : Type)
  | mark (markId : UInt32)
  | count
  | reset
  | pass (s : σ)

/-- The clock shows the time, up to its wraps, and reading it does not turn it back. -/
structure Clock.Shows (clock : Clock σ w) (time : σ → ℕ) : Prop where
  now : ∀ s, (clock.now s).1 = reading w (time s)
  forward : ∀ s, time s ≤ time (clock.now s).2

namespace Timing

variable (clock : Clock σ w) (time : σ → ℕ)

def start (id : UInt32) (s : σ) : Timing σ w :=
  let (chronometer, world) := Chronometer.create clock id s
  ⟨chronometer, world, time s, []⟩

def step (r : Timing σ w) : Act σ → Option (Timing σ w)
  | .mark markId =>
    let (elapsed, world) := r.chronometer.mark clock markId r.world
    some { r with world, log := r.log ++ [.marked elapsed markId r.begun (time r.world)] }
  | .count =>
    let (ticks, world) := r.chronometer.count clock r.world
    some { r with world, log := r.log ++ [.counted ticks r.begun (time r.world)] }
  | .reset =>
    let (chronometer, world) := r.chronometer.reset clock r.world
    some { r with chronometer, world, begun := time r.world }
  | .pass s => some { r with world := s }

/-- Time does not go back. -/
def Forward (r : Timing σ w) : Act σ → Prop
  | .pass s => time r.world ≤ time s
  | .mark _ | .count | .reset => True

instance (r : Timing σ w) : ∀ act, Decidable (Forward time r act)
  | .pass s => inferInstanceAs (Decidable (time r.world ≤ time s))
  | .mark _ | .count | .reset => inferInstanceAs (Decidable True)

/-- What a measurement shows, and when it is right. -/
def Measured (w : ℕ) (id : UInt32) : Measurement → Prop
  | .marked e markId b t =>
    e = ⟨id, markId, toUInt64 (reading w b), toUInt64 (reading w t)⟩ ∧ b ≤ t ∧
      ((e.end_ - e.begin_).toNat = t - b ↔ Unwrapped w b t)
  | .counted ticks b t =>
    b ≤ t ∧ (ticks.toNat = t - b ↔ if w < 32 then Unwrapped w b t else t - b < 2 ^ w)

/-- What holds of a chronometer in use. -/
structure Inv (id : UInt32) (r : Timing σ w) : Prop where
  chronoId : r.chronometer.id = id
  begin_ : r.chronometer.begin_ = reading w r.begun
  begun : r.begun ≤ time r.world
  log : ∀ m ∈ r.log, Measured w id m

theorem step_mark (r : Timing σ w) (markId : UInt32) : r.step clock time (.mark markId) =
    some { r with
      world := (clock.now r.world).2
      log := r.log ++ [.marked ⟨r.chronometer.id, markId, toUInt64 r.chronometer.begin_,
        toUInt64 (clock.now r.world).1⟩ markId r.begun (time r.world)] } := rfl

theorem step_count (r : Timing σ w) : r.step clock time .count =
    some { r with
      world := (clock.now r.world).2
      log := r.log ++ [.counted (ticksSince (clock.now r.world).1 r.chronometer.begin_) r.begun
        (time r.world)] } := rfl

variable {clock time} {id : UInt32}

theorem inv_start (hclock : clock.Shows time) (s : σ) : Inv time id (start clock time id s) :=
  ⟨rfl, hclock.now s, hclock.forward s, nofun⟩

theorem Inv.step (hw : w ≤ 64) (hclock : clock.Shows time) {r r' : Timing σ w} {act : Act σ}
    (h : Inv time id r) (hforward : Forward time r act) (hr' : r.step clock time act = some r') :
    Inv time id r' := by
  cases act with
  | mark markId =>
    rw [step_mark, Option.some.injEq] at hr'
    subst hr'
    refine ⟨h.chronoId, h.begin_, h.begun.trans (hclock.forward _), ?_⟩
    rw [List.forall_mem_append, List.forall_mem_singleton]
    refine ⟨h.log, ?_, h.begun, ?_⟩
    · rw [h.chronoId, h.begin_, hclock.now]
    · rw [h.begin_, hclock.now]
      exact sub_reading_iff hw h.begun
  | count =>
    rw [step_count, Option.some.injEq] at hr'
    subst hr'
    refine ⟨h.chronoId, h.begin_, h.begun.trans (hclock.forward _), ?_⟩
    rw [List.forall_mem_append, List.forall_mem_singleton]
    refine ⟨h.log, h.begun, ?_⟩
    rw [h.begin_, hclock.now, ticksSince]
    by_cases hnarrow : w < 32
    · rw [if_pos hnarrow, if_pos hnarrow]
      exact sub_reading_iff hw h.begun
    · rw [if_neg hnarrow, if_neg hnarrow]
      exact reading_sub_iff hw h.begun
  | reset =>
    cases hr'
    exact ⟨h.chronoId, hclock.now _, hclock.forward _, h.log⟩
  | pass s =>
    cases hr'
    exact ⟨h.chronoId, h.begin_, h.begun.trans hforward, h.log⟩

/-- **Which measurements are right.** Whatever a client measures, and whatever happens in
between, `mark` records the readings at the last start and now. Their difference is the time
between them if and only if the wraps of the clock are not seen in 64 bits; and that of
`count` under the same condition where the ticks have less than 32 bits, and otherwise if
and only if the time is less than a round of the clock, whether it has wrapped or not. -/
theorem measured_iff (hw : w ≤ 64) (hclock : clock.Shows time) {s : σ} {acts : List (Act σ)}
    {r : Timing σ w}
    (hforward : Along (step clock time) (Forward time) (start clock time id s) acts)
    (hrun : run (step clock time) (start clock time id s) acts = some r) :
    r.chronometer.id = id ∧ r.chronometer.begin_ = reading w r.begun ∧
      ∀ m ∈ r.log, Measured w id m := by
  have hinv : Inv time id r := run_invariant (I := Inv time id)
    (fun _ _ _ hI hP hs' => hI.step hw hclock hP hs') (inv_start hclock s) hforward hrun
  exact ⟨hinv.chronoId, hinv.begin_, hinv.log⟩

end Timing

/-- A clock that shows a time that passes while it sleeps. -/
def Clock.ideal (w : ℕ) : Clock ℕ w := ⟨fun t => (reading w t, t), fun k t => t + k.toNat⟩

/-- Started five ticks before the clock wraps, read ten ticks later, reset and read again. -/
def acrossWrap (w : ℕ) : List (Timing.Act ℕ) :=
  [.pass (2 ^ w + 5), .count, .mark 1, .reset, .pass (2 ^ w + 7), .mark 2]

/-- With 32 bits the difference is right where it is taken in the type of the ticks. -/
theorem measured_iff_acrossWrap : ∃ r,
    run (Timing.step (Clock.ideal 32) id) (Timing.start (Clock.ideal 32) id 7 (2 ^ 32 - 5))
        (acrossWrap 32) = some r ∧
      (∀ m ∈ r.log, Timing.Measured 32 7 m) ∧
      r.log.head? = some (.counted 10 (2 ^ 32 - 5) (2 ^ 32 + 5)) ∧
      ¬Unwrapped 32 (2 ^ 32 - 5) (2 ^ 32 + 5) := by
  have hclock : (Clock.ideal 32).Shows id := ⟨fun _ => rfl, fun _ => le_rfl⟩
  obtain ⟨r, hr⟩ := Option.isSome_iff_exists.mp
    (rfl : (run (Timing.step (Clock.ideal 32) id)
      (Timing.start (Clock.ideal 32) id 7 (2 ^ 32 - 5)) (acrossWrap 32)).isSome = true)
  have hforward : Along (Timing.step (Clock.ideal 32) id) (Timing.Forward id)
      (Timing.start (Clock.ideal 32) id 7 (2 ^ 32 - 5)) (acrossWrap 32) := by
    decide +kernel
  obtain ⟨-, -, hlog⟩ := Timing.measured_iff (by decide) hclock hforward hr
  refine ⟨r, hr, hlog, ?_, by decide⟩
  cases hr
  decide

end Brasa.Chronus
