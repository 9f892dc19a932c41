import Brasa.Chronus.Waiter

/-!
# Brasa.Chronus.Wait

**How long `wait()` takes.** The step it sleeps in is a tenth of the whole time,
rounded down, so that 19 steps are always enough; and where only the sleeper moves
the clock, the number of steps and the overshoot are exact.
-/

namespace Brasa.Chronus

open Brasa.Lib

variable {σ : Type} {w : ℕ} {clock : Clock σ w} {waiter : Waiter w} {s s' : σ}

/-- The worlds in which a call of `wait()` made in `s` polls the clock. -/
def PollsIn (clock : Clock σ w) (waiter : Waiter w) (s s' : σ) : Prop :=
  ∃ n, Loop.Goes (waiter.waitBody clock) s n s'

/-- During the call of `wait()` the clock never goes back, and every sleep of `k` ticks
moves it by at least `k`. -/
structure Advances (clock : Clock σ w) (waiter : Waiter w) (s : σ) : Prop where
  now : ∀ s', PollsIn clock waiter s s' → clock.time s' ≤ clock.time (clock.now s').2
  sleep : ∀ s', PollsIn clock waiter s s' → (waiter.elapsed clock s').1 = false →
    clock.time (clock.now s').2 + waiter.sleepSize.toNat
      ≤ clock.time (clock.sleep waiter.sleepSize (clock.now s').2)

/-- During the call of `wait()` every sleep of `k` ticks moves the clock by `k`, and
nothing else moves it. -/
structure AdvancesExactly (clock : Clock σ w) (waiter : Waiter w) (s : σ) : Prop where
  now : ∀ s', PollsIn clock waiter s s' → clock.time (clock.now s').2 = clock.time s'
  sleep : ∀ s', PollsIn clock waiter s s' → (waiter.elapsed clock s').1 = false →
    clock.time (clock.sleep waiter.sleepSize (clock.now s').2)
      = clock.time (clock.now s').2 + waiter.sleepSize.toNat

/-! ### One round -/

/-- How many ticks are left. -/
def left (clock : Clock σ w) (waiter : Waiter w) (s : σ) : ℕ :=
  waiter.endOfTime.toNat - clock.time s

theorem waitBody_end (h : waiter.endOfTime.toNat ≤ clock.time s) :
    waiter.waitBody clock s = .inr (clock.now s).2 := by
  rw [waitBody_eq, if_pos h]

/-- A round that goes on has slept, the time not being over. -/
theorem waitBody_next (h : waiter.waitBody clock s = .inl s') :
    (waiter.elapsed clock s).1 = false ∧ clock.time s < waiter.endOfTime.toNat ∧
      s' = clock.sleep waiter.sleepSize (clock.now s).2 := by
  rw [waitBody_eq] at h
  split at h
  · cases h
  · rename_i hend
    cases h
    exact ⟨Bool.eq_false_of_not_eq_true fun helapsed => hend (elapsed_iff.mp helapsed),
      Nat.not_le.mp hend, rfl⟩

theorem left_eq_zero_iff : left clock waiter s = 0 ↔ ∃ out, waiter.waitBody clock s = .inr out := by
  rw [left, Nat.sub_eq_zero_iff_le]
  constructor
  · exact fun h => ⟨_, waitBody_end h⟩
  · rintro ⟨out, hout⟩
    rw [waitBody_eq] at hout
    split at hout
    · assumption
    · cases hout

theorem Advances.left_le {n : ℕ} (h : Advances clock waiter s)
    {s₁ s₂ : σ} (hgoes : Loop.Goes (waiter.waitBody clock) s n s₁)
    (hnext : waiter.waitBody clock s₁ = .inl s₂) :
    left clock waiter s₂ ≤ left clock waiter s₁ - waiter.sleepSize.toNat := by
  obtain ⟨helapsed, -, rfl⟩ := waitBody_next hnext
  have hnow := h.now s₁ ⟨n, hgoes⟩
  have hsleep := h.sleep s₁ ⟨n, hgoes⟩ helapsed
  rw [left, left]
  omega

theorem AdvancesExactly.time_next {n : ℕ} (h : AdvancesExactly clock waiter s)
    {s₁ s₂ : σ} (hgoes : Loop.Goes (waiter.waitBody clock) s n s₁)
    (hnext : waiter.waitBody clock s₁ = .inl s₂) :
    clock.time s₂ = clock.time s₁ + waiter.sleepSize.toNat := by
  obtain ⟨helapsed, -, rfl⟩ := waitBody_next hnext
  rw [h.sleep s₁ ⟨n, hgoes⟩ helapsed, h.now s₁ ⟨n, hgoes⟩]

/-! ### The whole call -/

/-- After `n` sleeps the clock is `n` steps further. -/
theorem AdvancesExactly.time_goes {n : ℕ} (h : AdvancesExactly clock waiter s)
    (hgoes : Loop.Goes (waiter.waitBody clock) s n s') :
    clock.time s' = clock.time s + n * waiter.sleepSize.toNat := by
  induction hgoes with
  | start => rw [Nat.zero_mul, Nat.add_zero]
  | next hgoes hnext ih => rw [h.time_next hgoes hnext, ih, Nat.succ_mul, Nat.add_assoc]

theorem wait_bounded {m : ℕ} (h : Advances clock waiter s)
    (hm : left clock waiter s ≤ m * waiter.sleepSize.toNat) :
    ∃ n out, waiter.wait clock (m + 1) s = some (n, out) ∧ n ≤ m :=
  Loop.loop_bounded (fun _ _ _ hzero => left_eq_zero_iff.mp hzero)
    (fun _ _ _ hgoes hnext => h.left_le hgoes hnext) hm

theorem wait_exact (h : AdvancesExactly clock waiter s) (hpos : 0 < waiter.sleepSize.toNat) :
    ∃ out, waiter.wait clock (left clock waiter s ⌈/⌉ waiter.sleepSize.toNat + 1) s
        = some (left clock waiter s ⌈/⌉ waiter.sleepSize.toNat, out) ∧
      clock.time out
        = clock.time s
          + left clock waiter s ⌈/⌉ waiter.sleepSize.toNat * waiter.sleepSize.toNat := by
  obtain ⟨out, hout⟩ := Loop.loop_exact hpos (fun _ _ _ => left_eq_zero_iff)
    (fun n s₁ s₂ hgoes hnext => by
      have htime := h.time_next hgoes hnext
      rw [left, left]
      omega)
  obtain ⟨s', hgoes, hend⟩ := Loop.goes_of_loop hout
  refine ⟨out, hout, ?_⟩
  rw [← h.time_goes hgoes, ← h.now s' ⟨_, hgoes⟩]
  rw [waitBody_eq] at hend
  split at hend
  · cases hend
    rfl
  · cases hend

theorem run_recorded {units : UInt32} {s₀ : σ} {calls : List Call} {r : Run σ w}
    (hrun : run (step clock) (init clock units s₀) calls = some r) : Recorded units r :=
  run_invariant' (fun _ _ _ hr h => step_recorded hr h) (init_recorded clock units s₀) hrun

/-- A call of `wait()` that returns after `n` sleeps is `n + 1` rounds of a run. -/
theorem run_wait {rounds n : ℕ} {r : Run σ w} (hwaiting : r.waiting = true)
    (h : r.waiter.wait clock rounds r.world = some (n, s)) :
    ∃ t, run (step clock) r (List.replicate (n + 1) .round)
      = some { r with world := s, waiting := false, expired := some t } := by
  induction rounds generalizing r n with
  | zero => cases h
  | succ rounds ih =>
    cases hbody : r.waiter.waitBody clock r.world with
    | inr world =>
      rw [Waiter.wait, Loop.loop_end hbody] at h
      cases h
      exact ⟨(clock.now r.world).1, by simp [step, hwaiting, hbody]⟩
    | inl world =>
      rw [Waiter.wait, Loop.loop_next hbody, Option.map_eq_some_iff] at h
      obtain ⟨⟨m, s'⟩, hrest, h⟩ := h
      cases h
      obtain ⟨t, ht⟩ := ih (r := { r with world := world, expired := none }) hwaiting hrest
      refine ⟨t, ?_⟩
      rw [List.replicate_succ, run_cons, step, if_pos hwaiting, hbody]
      exact ht

/-- **`wait()` returns after at most 19 sleeps; and right after the constructor or a
`reset()`, where only the sleeper moves the clock, it sleeps exactly as often as the
step goes into the whole time, and overshoots by less than one step.** -/
theorem wait_sleeps (clock : Clock σ w) (units : UInt32) (s₀ : σ) (calls : List Call) (r : Run σ w)
    (hrun : run (step clock) (init clock units s₀) calls = some r)
    (hfit : r.start.toNat + units.toNat < 2 ^ w) :
    (r.start.toNat ≤ clock.time r.world → Advances clock r.waiter r.world →
      ∃ n s, r.waiter.wait clock 20 r.world = some (n, s) ∧ n ≤ 19) ∧
    (clock.time r.world = r.start.toNat → AdvancesExactly clock r.waiter r.world →
      ∃ s, r.waiter.wait clock 20 r.world
          = some (units.toNat ⌈/⌉ (sleepSize units).toNat, s) ∧
        units.toNat ≤ clock.time s - r.start.toNat ∧
        clock.time s - r.start.toNat < units.toNat + (sleepSize units).toNat) := by
  have hr := run_recorded hrun
  have hend : r.waiter.endOfTime.toNat = r.start.toNat + units.toNat := by
    rw [hr.endOfTime, endOfTime_toNat, Nat.mod_eq_of_lt hfit]
  have henough := le_sleepSize units
  have hpos := sleepSize_pos units
  rw [← hr.sleepSize] at henough hpos ⊢
  constructor
  · intro hstart hadvances
    apply wait_bounded hadvances
    rw [left, hend]
    omega
  · intro hstart hadvances
    have hleft : left clock r.waiter r.world = units.toNat := by
      rw [left, hend, hstart, Nat.add_sub_cancel_left]
    obtain ⟨out, hout, htime⟩ := wait_exact hadvances hpos
    rw [hleft] at hout htime
    rw [hstart] at htime
    -- the sleeps are as many as the step goes into the whole time, rounded up
    have hle : units.toNat ⌈/⌉ r.waiter.sleepSize.toNat ≤ 19 := by
      rw [ceilDiv_le_iff_le_mul hpos, Nat.mul_comm]
      exact henough
    refine ⟨out, Loop.loop_mono hout (Nat.succ_le_succ hle), ?_, ?_⟩
    · rw [htime, Nat.add_sub_cancel_left]
      exact Loop.le_ceilDiv_mul hpos
    · rw [htime, Nat.add_sub_cancel_left]
      exact Loop.ceilDiv_mul_lt hpos

theorem AdvancesExactly.advances (h : AdvancesExactly clock waiter s) : Advances clock waiter s :=
  ⟨fun s' hs' => (h.now s' hs').ge, fun s' hs' helapsed => (h.sleep s' hs' helapsed).ge⟩

theorem manual_time (t : BitVec w) : (Clock.manual w).time t = t.toNat := rfl

/-- The clock that only the sleeper moves does so, as long as it does not wrap. -/
theorem manual_advancesExactly {waiter : Waiter w} {t : BitVec w}
    (h : waiter.endOfTime.toNat + waiter.sleepSize.toNat ≤ 2 ^ w) :
    AdvancesExactly (Clock.manual w) waiter t where
  now _ _ := rfl
  sleep s' _ helapsed := by
    have hlt : s'.toNat < waiter.endOfTime.toNat := by
      by_contra hend
      have htrue := elapsed_iff.mpr ((manual_time s').symm ▸ Nat.not_lt.mp hend)
      rw [htrue] at helapsed
      cases helapsed
    show (s' + waiter.sleepSize.toBitVec.setWidth w).toNat = s'.toNat + waiter.sleepSize.toNat
    rw [BitVec.toNat_add, BitVec.toNat_setWidth, UInt32.toNat_toBitVec,
      Nat.mod_eq_of_lt (show waiter.sleepSize.toNat < 2 ^ w by omega), Nat.mod_eq_of_lt (by omega)]

/-- 19 ticks in steps of one. -/
theorem wait_sleeps_nineteen :
    let r := init (Clock.manual 32) 19 5#32
    (∃ n s, r.waiter.wait (Clock.manual 32) 20 r.world = some (n, s) ∧ n ≤ 19) ∧
      ∃ s, r.waiter.wait (Clock.manual 32) 20 r.world = some (19, s) := by
  intro r
  have hexact : AdvancesExactly (Clock.manual 32) r.waiter r.world :=
    manual_advancesExactly (by decide)
  obtain ⟨hbounded, hsleeps⟩ := wait_sleeps (Clock.manual 32) 19 5#32 [] r rfl (by decide)
  obtain ⟨s, hs, -⟩ := hsleeps rfl hexact
  exact ⟨hbounded (Nat.le_refl 5) hexact.advances, s, hs⟩

end Brasa.Chronus
