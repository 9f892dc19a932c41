import Mathlib.Data.List.Nodup
import Mathlib.Data.List.Perm.Subperm
import Mathlib.Data.Option.Basic
import Brasa.Thread.Handles

/-!
# Brasa.Thread.Bounded

**The memory of an `Rcu<T>` is bounded by its readers.** Nothing but the cleanup of
`update()` frees a node, and a cleanup keeps the nodes it finds in use, so the list
could grow without bound if what keeps a node did not have to be there already when
the new version was published.

It has: from then on, `read()` leads to the new node only. The nodes already kept and
those still to be examined and in use are together never more than the readers that
were valid at the publication (`Bounded`). A program that never has more than `R`
valid readers at a time never has more than `R + 2` nodes, and `R + 1` when no
session is open (`rcu_bounded`). `R` is less than `2^32`, so that no counter wraps to `0`.
-/

namespace Brasa.Thread.Handles

open Brasa.Lib

variable {Addr T : Type*}

/-- How many readers are valid. -/
def State.valid (s : State Addr T) : ℕ := s.readers.countP Option.isSome

variable [DecidableEq Addr]

/-- How many of the nodes at `l` are in use. -/
def State.inUse (s : State Addr T) (l : List Addr) : ℕ := l.countP (s.held · ≠ 0)

/-- The size of the list in each phase, when at most `R` readers are ever valid. -/
def Bounded (R : ℕ) (s : State Addr T) : Prop :=
  match s.updating with
  | none => s.rcu.addrs.length ≤ R + 1 + if s.rcu.locked then 1 else 0
  | some (_, .publish) => s.rcu.addrs.length ≤ R + 2
  | some (_, .load it) => s.rcu.addrs.length ≤ R + 2 ∧
      ∃ pre post, s.rcu.addrs = pre ++ it :: post ∧
        pre.length + s.inUse (it :: post).dropLast ≤ R
  | some (_, .decide it refcount) => s.rcu.addrs.length ≤ R + 2 ∧
      ∃ pre post, s.rcu.addrs = pre ++ it :: post ∧
        pre.length + (if refcount = 0 then 0 else 1) + s.inUse post.dropLast ≤ R

/-! ### Counting nodes in use -/

variable {R : ℕ} {s s' : State Addr T}

/-- Different nodes in use have different readers. -/
theorem inUse_le_valid (s : State Addr T) {l : List Addr} (h : l.Nodup) :
    s.inUse l ≤ s.valid := by
  have hnodup : ((l.filter (s.held · ≠ 0)).map some).Nodup :=
    (h.filter _).map (Option.some_injective Addr)
  have hsubset : (l.filter (s.held · ≠ 0)).map some ⊆ s.readers.filter Option.isSome := by
    intro r hr
    obtain ⟨a, ha, rfl⟩ := List.mem_map.mp hr
    have hheld := of_decide_eq_true (List.mem_filter.mp ha).2
    rw [State.held, Ne, List.count_eq_zero, not_not] at hheld
    exact List.mem_filter.mpr ⟨hheld, rfl⟩
  have hle := (List.subperm_of_subset hnodup hsubset).length_le
  rw [List.length_map] at hle
  rw [State.inUse, State.valid, List.countP_eq_length_filter, List.countP_eq_length_filter]
  exact hle

/-- The readers of a node are among the valid ones. -/
theorem held_le_valid (s : State Addr T) (a : Addr) : s.held a ≤ s.valid := by
  rw [State.held, State.valid, List.count]
  refine List.countP_mono_left fun r _ hr => ?_
  rw [eq_of_beq hr, Option.isSome_some]

/-- With less than `2^32` valid readers, no counter is wrapped to `0`. -/
theorem ofNat_held_eq_zero_iff (hR : R < 2 ^ 32) (hvalid : s.valid ≤ R) (a : Addr) :
    Int32.ofNat (s.held a) = 0 ↔ s.held a = 0 := by
  have hlt := ((held_le_valid s a).trans hvalid).trans_lt hR
  exact ⟨Rcu.eq_zero_of_ofNat fun hdvd => Nat.eq_zero_of_dvd_of_lt hdvd hlt, congrArg Int32.ofNat⟩

theorem inUse_mono {l : List Addr} (h : ∀ a ∈ l, s'.held a ≤ s.held a) :
    s'.inUse l ≤ s.inUse l := by
  refine List.countP_mono_left fun a ha hheld => ?_
  have hle := h a ha
  have hne := of_decide_eq_true hheld
  exact decide_eq_true (by omega)

/-! ### The operations outside `update()` -/

/-- A quiet step keeps the bound: what is examined in front of the current node can
only lose readers. -/
theorem Quiet.bounded (hq : Quiet s s') (h : Inv s) (hb : Bounded R s) : Bounded R s' := by
  have hw := h.writer
  unfold Bounded at hb ⊢
  rw [hq.updating, hq.addrs, hq.locked]
  obtain hup | ⟨⟨op, pc⟩, hup⟩ := Option.eq_none_or_eq_some s.updating
  · simp only [hup] at hb ⊢
    exact hb
  rw [writerInv_some hup] at hw
  obtain ⟨-, -, hphase⟩ := hw
  -- the last of a cut of the addresses is the current node, which is not in front of it
  have hfront : s.rcu.addrs.getLast? = some s.rcu.current → ∀ {pre l : List Addr},
      s.rcu.addrs = pre ++ l → s'.inUse l.dropLast ≤ s.inUse l.dropLast := by
    intro hlast pre l hcut
    refine inUse_mono fun a ha => hq.held a fun heq => ?_
    have hne : l ≠ [] := by
      rintro rfl
      cases ha
    have hnodup := h.accounted.nodup
    rw [hcut, List.nodup_append] at hnodup
    rw [hcut, List.getLast?_append_of_ne_nil _ hne, List.getLast?_eq_some_iff] at hlast
    obtain ⟨front, rfl⟩ := hlast
    rw [List.dropLast_concat] at ha
    exact (List.nodup_append.mp hnodup.2.1).2.2 _ ha _ (List.mem_singleton.mpr rfl) heq
  cases pc with
  | publish =>
    simp only [hup] at hb ⊢
    exact hb
  | load it =>
    simp only [hup] at hb ⊢
    obtain ⟨hsize, pre, post, hcut, hle⟩ := hb
    have hmono := hfront hphase.1 hcut
    exact ⟨hsize, pre, post, hcut, by omega⟩
  | decide it refcount =>
    simp only [hup] at hb ⊢
    obtain ⟨hsize, pre, post, hcut, hle⟩ := hb
    have hmono := hfront hphase.1 (hcut.trans (List.append_cons pre it post))
    exact ⟨hsize, pre, post, hcut, by omega⟩

/-! ### The steps of `update()` -/

/-- What the cleanup has kept and what it may still have to keep never grows. -/
theorem Bounded.step_update (hb : Bounded R s) (h : Inv s) (hR : R < 2 ^ 32)
    (hvalid : s.valid ≤ R) (hs' : s.step .update = some s') : Bounded R s' := by
  have hw := h.writer
  obtain hup | ⟨⟨op, pc⟩, hup⟩ := Option.eq_none_or_eq_some s.updating
  · rw [State.step, State.updateStep, hup] at hs'
    cases hs'
  rw [writerInv_some hup] at hw
  obtain ⟨-, ⟨w, -, hw⟩, hphase⟩ := hw
  unfold Bounded at hb
  cases pc with
  | publish =>
    simp only [hup] at hb
    obtain ⟨front, rest, haddrs⟩ :=
      List.exists_cons_of_ne_nil (List.ne_nil_of_mem (List.mem_of_getLast? hw))
    have hpublish := Rcu.updateStep_publish (by rw [haddrs]; rfl) hw
    rw [step_update_some hup hpublish, Option.some.injEq] at hs'
    subst hs'
    -- an old node in use has one of the valid readers, and will get no other
    have hnodup : (front :: rest).dropLast.Nodup :=
      (haddrs ▸ h.accounted.nodup).sublist (List.dropLast_sublist _)
    refine ⟨hb, [], rest, haddrs, ?_⟩
    rw [List.length_nil, Nat.zero_add]
    exact (inUse_le_valid s hnodup).trans hvalid
  | load it =>
    simp only [hup] at hb
    obtain ⟨hsize, pre, post, hcut, hle⟩ := hb
    rcases KeyedList.getLast?_cut (hcut ▸ hphase.1) with ⟨rfl, -⟩ | ⟨following, rest, rfl, -⟩
    · rw [step_update_none hup (Rcu.updateStep_load_last h.accounted hcut),
        Option.some.injEq] at hs'
      subst hs'
      change s.rcu.addrs.length ≤ R + 1 + 0
      rw [hcut, List.length_append, List.length_singleton]
      omega
    · rw [step_update_some hup (Rcu.updateStep_load h.accounted hcut), Option.some.injEq] at hs'
      subst hs'
      refine ⟨hsize, pre, following :: rest, hcut, ?_⟩
      have hcons : s.inUse (it :: following :: rest).dropLast =
          s.inUse (following :: rest).dropLast + if s.held it = 0 then 0 else 1 := by
        rw [State.inUse, State.inUse, List.dropLast_cons_cons, List.countP_cons]
        simp
      simp only [ofNat_held_eq_zero_iff hR hvalid]
      change pre.length + _ + s.inUse (following :: rest).dropLast ≤ R
      omega
  | decide it refcount =>
    simp only [hup] at hb
    obtain ⟨hlast, hne, -⟩ := hphase
    obtain ⟨hsize, pre, post, hcut, hle⟩ := hb
    rcases KeyedList.getLast?_cut (hcut ▸ hlast) with ⟨rfl, hit⟩ | ⟨following, rest, rfl, -⟩
    · exact absurd hit hne
    · by_cases hc : refcount = 0
      · subst hc
        rw [step_update_some hup (Rcu.updateStep_erase h.accounted hcut), Option.some.injEq] at hs'
        subst hs'
        have haddrs := Rcu.addrs_erase h.accounted hcut
        refine ⟨?_, pre, rest, haddrs, ?_⟩
        · change (s.rcu.erase it).addrs.length ≤ R + 2
          rw [haddrs]
          rw [hcut] at hsize
          simp only [List.length_append, List.length_cons] at hsize ⊢
          omega
        · rw [if_pos rfl, Nat.add_zero] at hle
          exact hle
      · rw [step_update_some hup (Rcu.updateStep_advance h.accounted hc hcut),
          Option.some.injEq] at hs'
        subst hs'
        refine ⟨hsize, pre ++ [it], rest, hcut.trans (List.append_cons pre it _), ?_⟩
        rw [if_neg hc] at hle
        rw [List.length_append, List.length_singleton]
        exact hle

/-! ### The main result -/

/-- **One step** keeps the bound. -/
theorem Bounded.step (hb : Bounded R s) (h : Inv s) (hR : R < 2 ^ 32) (hvalid : s.valid ≤ R)
    {op : Op Addr} (hs' : s.step op = some s') : Bounded R s' := by
  by_cases hop : op = .update
  · exact hb.step_update h hR hvalid (hop ▸ hs')
  cases h.outside hop hs' with
  | quiet hq => exact hq.bounded h hb
  | write hlock hup hup' hlock' haddrs =>
    unfold Bounded at hb ⊢
    simp only [hup, hlock] at hb
    simp only [hup', hlock', haddrs, List.length_append, List.length_singleton]
    simpa using hb
  | finish hup hup' hrcu =>
    unfold Bounded at hb ⊢
    simp only [hup] at hb
    simp only [hup', hrcu]
    split at hb <;> omega

/-- **The memory of an `Rcu` is bounded by its readers.** Take any program of handle
operations interleaved in any way with the steps of `update()`, in which no more
than `R` readers are ever valid at a time, with `R < 2^32`. `size()` is then never more
than `R + 2`, and not more than `R + 1` while no session is open. -/
theorem rcu_bounded (addr : Addr) (v : T) (R : ℕ) (ops : List (Op Addr)) (s : State Addr T)
    (hR : R < 2 ^ 32)
    (hvalid : Always State.step (fun s => s.valid ≤ R) (State.start addr v) ops)
    (hrun : run State.step (State.start addr v) ops = some s) :
    s.rcu.size ≤ R + 2 ∧ (s.rcu.locked = false → s.rcu.size ≤ R + 1) := by
  have hstart : Inv (State.start addr v) ∧ Bounded R (State.start addr v) := by
    refine ⟨inv_start addr v, ?_⟩
    change 1 ≤ R + 1 + 0
    omega
  have hkeep : ∀ (s : State Addr T) op s', Inv s ∧ Bounded R s → s.valid ≤ R →
      s.step op = some s' → Inv s' ∧ Bounded R s' := by
    intro s op s' hI hv hs'
    have hcount : s.Counted op :=
      counted_of_fit (fun a => ((held_le_valid s a).trans hv).trans_lt hR) op
    exact ⟨(hI.1.step op).2 s' hcount hs', hI.2.step hI.1 hR hv hs'⟩
  obtain ⟨h, hb⟩ := run_invariant hkeep hstart hvalid.along hrun
  rw [Rcu.size_eq]
  unfold Bounded at hb
  obtain hup | ⟨⟨op, pc⟩, hup⟩ := Option.eq_none_or_eq_some s.updating
  · simp only [hup] at hb
    refine ⟨?_, fun hlock => ?_⟩
    · split at hb <;> omega
    · simpa [hlock] using hb
  · have hlock : s.rcu.locked = true := ((writerInv_some hup).mp h.writer).1
    refine ⟨?_, fun hfree => absurd (hlock.symm.trans hfree) (by simp)⟩
    cases pc with
    | publish =>
      simp only [hup] at hb
      exact hb
    | load it =>
      simp only [hup] at hb
      exact hb.1
    | decide it refcount =>
      simp only [hup] at hb
      exact hb.1

/-- One reader at a time, moved around a cleanup that found it. -/
theorem rcu_bounded_moved :
    movedReaderState.rcu.size ≤ 1 + 2 ∧
      (movedReaderState.rcu.locked = false → movedReaderState.rcu.size ≤ 1 + 1) :=
  rcu_bounded 0 7 1 movedReader movedReaderState (by decide) (by decide) rfl

end Brasa.Thread.Handles
