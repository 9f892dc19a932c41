import Brasa.Lib.Run

/-!
# Brasa.Lib.SharedLock

Objects whose methods are **critical sections of one readers-writer lock**.

A method holds the lock, shared or alone, from its first access to the object to its
last, takes any number of steps in between, and may, after it has released the lock,
hand over to a callback of its caller's choice, which may call methods again.

If the sections that hold the lock shared change nothing (`ReadOnly`), then every
interleaving of the steps of any number of threads is *linearizable*: the sections,
in the order in which they ended, are a history of the object used by one thread
alone (`linearizable`). And since no callback runs inside a section, no nesting of
calls blocks for ever: as long as a call or a callback is unfinished, some thread can
go on (`exists_step`).
-/

namespace Brasa.Lib.SharedLock

/-- How a section holds the lock. -/
inductive Mode
  | shared
  | unique
  deriving DecidableEq

/-- What a step inside a section leads to: more of it, or its end with a result. -/
inductive Outcome (L R : Type*)
  | goesOn (l : L)
  | returns (r : R)

/-- The methods of an object with states `σ`: how the section of each holds the lock,
the locals it starts with, its steps, and the callback that follows a result. -/
structure Sections (σ M L R C : Type*) where
  mode : M → Mode
  enter : M → L
  next : M → σ → L → σ × Outcome L R
  callback : R → Option C

/-- Where a thread is with respect to the lock. -/
inductive Position (M L : Type*)
  | outside
  | waiting (m : M)
  | inside (m : M) (l : L)

/-- A thread: its position, and the callbacks it is running, the innermost first. -/
structure Thread (M L C : Type*) where
  position : Position M L
  callbacks : List C

/-- The object, the threads, and the sections that have ended: by which thread, of
which method and with which result. -/
structure State (σ M L R C : Type*) where
  object : σ
  threads : List (Thread M L C)
  log : List (ℕ × M × R)

/-- A step of thread `i`: it calls a method, its section begins, takes a step, or its
innermost callback ends. -/
inductive Act (M : Type*)
  | call (i : ℕ) (m : M)
  | enter (i : ℕ)
  | next (i : ℕ)
  | finish (i : ℕ)

variable {σ M L R C : Type*}

/-- `n` threads that have not called anything. -/
def State.start (n : ℕ) (object : σ) : State σ M L R C :=
  { object, threads := List.replicate n ⟨.outside, []⟩, log := [] }

/-- How the section a thread is in holds the lock. -/
def Position.holds (S : Sections σ M L R C) : Position M L → Option Mode
  | .inside m _ => some (S.mode m)
  | _ => none

/-- The lock is free for a section. -/
def Free (S : Sections σ M L R C) (threads : List (Thread M L C)) : Mode → Prop
  | .shared => ∀ t ∈ threads, t.position.holds S ≠ some .unique
  | .unique => ∀ t ∈ threads, t.position.holds S = none

instance (S : Sections σ M L R C) (threads : List (Thread M L C)) :
    ∀ mode, Decidable (Free S threads mode)
  | .shared => inferInstanceAs (Decidable (∀ t ∈ threads, t.position.holds S ≠ some .unique))
  | .unique => inferInstanceAs (Decidable (∀ t ∈ threads, t.position.holds S = none))

namespace State

variable (S : Sections σ M L R C) (s : State σ M L R C)

/-- Thread `i` goes on at `t`. -/
def setThread (i : ℕ) (t : Thread M L C) : State σ M L R C :=
  { s with threads := s.threads.set i t }

/-- One step; `none` if it is not possible. -/
def step : Act M → Option (State σ M L R C)
  | .call i m => s.threads[i]?.bind fun t =>
    match t.position with
    | .outside => some (s.setThread i { t with position := .waiting m })
    | _ => none
  | .enter i => s.threads[i]?.bind fun t =>
    match t.position with
    | .waiting m =>
      if Free S s.threads (S.mode m) then
        some (s.setThread i { t with position := .inside m (S.enter m) })
      else none
    | _ => none
  | .next i => s.threads[i]?.bind fun t =>
    match t.position with
    | .inside m l =>
      match S.next m s.object l with
      | (object, .goesOn l') =>
        some ({ s with object }.setThread i { t with position := .inside m l' })
      | (object, .returns r) =>
        some ({ s with object, log := s.log ++ [(i, m, r)] }.setThread i
          { position := .outside, callbacks := (S.callback r).toList ++ t.callbacks })
    | _ => none
  | .finish i => s.threads[i]?.bind fun t =>
    match t.position, t.callbacks with
    | .outside, _ :: callbacks => some (s.setThread i { t with callbacks })
    | _, _ => none

end State

/-! ### The object used by one thread alone -/

section Alone

variable (S : Sections σ M L R C)

/-- The states and locals that the section of `m` goes through when it is alone with
the object. -/
inductive Reaches (m : M) (s : σ) : σ → L → Prop
  | enter : Reaches m s s (S.enter m)
  | next {u v : σ} {l l' : L} :
    Reaches m s u l → S.next m u l = (v, .goesOn l') → Reaches m s v l'

/-- The section of `m`, alone with the object in state `s`, ends in state `s'` with
result `r`. -/
def Does (m : M) (s : σ) (r : R) (s' : σ) : Prop :=
  ∃ u l, Reaches S m s u l ∧ S.next m u l = (s', .returns r)

/-- The calls with their results are a history of the object from `s` to `s'`. -/
inductive History (s : σ) : List (M × R) → σ → Prop
  | nil : History s [] s
  | snoc {log : List (M × R)} {u v : σ} {m : M} {r : R} :
    History s log u → Does S m u r v → History s (log ++ [(m, r)]) v

/-- The results of calls made one after the other, each an atomic operation, and the
state after them. -/
def replay (apply : σ → M → R × σ) : σ → List M → List R × σ
  | s, [] => ([], s)
  | s, m :: ms =>
    ((apply s m).1 :: (replay apply (apply s m).2 ms).1, (replay apply (apply s m).2 ms).2)

theorem replay_append (apply : σ → M → R × σ) (m : M) :
    ∀ (ms : List M) (s : σ), replay apply s (ms ++ [m]) =
      ((replay apply s ms).1 ++ [(apply (replay apply s ms).2 m).1],
        (apply (replay apply s ms).2 m).2)
  | [], _ => rfl
  | m' :: ms, s => by
    simp only [List.cons_append, replay, replay_append apply m ms]

/-- The result of a call is that of the operation in the state that the calls before it
lead to. -/
theorem replay_getElem? (apply : σ → M → R × σ) :
    ∀ (ms : List M) (s : σ) (k : ℕ), (replay apply s ms).1[k]? =
      ms[k]?.map fun m => (apply (replay apply s (ms.take k)).2 m).1
  | [], _, _ => rfl
  | m :: ms, s, 0 => by
    simp only [replay, List.getElem?_cons_zero, List.take_zero, Option.map_some]
  | m :: ms, s, k + 1 => by
    simp only [replay, List.getElem?_cons_succ, List.take_succ_cons, replay_getElem? apply ms]

/-- Replaying on a representation of the state. -/
theorem replay_map {τ : Type*} (f : τ → σ) {apply : σ → M → R × σ} {apply' : τ → M → R × τ}
    (happly : ∀ t m, apply (f t) m = ((apply' t m).1, f (apply' t m).2)) :
    ∀ (ms : List M) (t : τ),
      replay apply (f t) ms = ((replay apply' t ms).1, f (replay apply' t ms).2)
  | [], _ => rfl
  | m :: ms, t => by
    simp only [replay, happly, replay_map f happly ms]

/-- If a section alone does what an atomic operation does, a history of sections is a
sequence of these operations. -/
theorem History.replay {apply : σ → M → R × σ} {s u : σ} {log : List (M × R)}
    (h : History S s log u) (hdoes : ∀ m s r s', Does S m s r s' → apply s m = (r, s')) :
    SharedLock.replay apply s (log.map Prod.fst) = (log.map Prod.snd, u) := by
  induction h with
  | nil => rfl
  | snoc hlog hdo ih =>
    rw [List.map_append, List.map_singleton, replay_append, ih, List.map_append,
      List.map_singleton, hdoes _ _ _ _ hdo]

/-- The sections that hold the lock shared change nothing. -/
def ReadOnly : Prop := ∀ m s l, S.mode m = .shared → (S.next m s l).1 = s

end Alone

/-! ### The invariant -/

variable {S : Sections σ M L R C}

/-- Nobody holds the lock alone, and each shared section is where it would be if it
had been alone with the object. -/
def AllShared (S : Sections σ M L R C) (object : σ) (threads : List (Thread M L C)) : Prop :=
  ∀ (t : Thread M L C) m l, t ∈ threads → t.position = .inside m l →
    S.mode m = .shared ∧ Reaches S m object object l

/-- Thread `i` holds the lock alone, and has brought the object from `object` to
`current`. -/
structure HeldAlone (S : Sections σ M L R C) (object current : σ) (threads : List (Thread M L C))
    (i : ℕ) : Prop where
  inside : ∃ (t : Thread M L C) (m : M) (l : L), threads[i]? = some t ∧
    t.position = .inside m l ∧ S.mode m = .unique ∧ Reaches S m object current l
  others : ∀ j (t : Thread M L C), j ≠ i → threads[j]? = some t → t.position.holds S = none

/-- What holds after any number of steps: the log is a history of the object up to
the section that is being executed alone, if there is one. -/
structure Inv (S : Sections σ M L R C) (object : σ) (s : State σ M L R C) : Prop where
  history : ∃ u, History S object (s.log.map Prod.snd) u ∧
    ((s.object = u ∧ AllShared S u s.threads) ∨ ∃ i, HeldAlone S u s.object s.threads i)

section Steps

variable {object u v : σ} {s s' : State σ M L R C} {threads : List (Thread M L C)} {i : ℕ}
  {t t' : Thread M L C}

theorem inv_start (S : Sections σ M L R C) (n : ℕ) (object : σ) :
    Inv S object (State.start n object) := by
  refine ⟨object, .nil, Or.inl ⟨rfl, fun t m l ht hpos => ?_⟩⟩
  rw [(List.eq_of_mem_replicate ht)] at hpos
  cases hpos

theorem AllShared.set (h : AllShared S object threads)
    (ht' : ∀ m l, t'.position = .inside m l →
      S.mode m = .shared ∧ Reaches S m object object l) :
    AllShared S object (threads.set i t') := by
  intro t m l ht hpos
  rcases List.mem_or_eq_of_mem_set ht with ht | rfl
  · exact h t m l ht hpos
  · exact ht' m l hpos

/-- A thread other than the one that holds the lock alone is not inside. -/
theorem HeldAlone.ne {k : ℕ} (h : HeldAlone S object u threads k) (ht : threads[i]? = some t)
    (hpos : ∀ m l, t.position = .inside m l → S.mode m ≠ .unique) : i ≠ k := by
  rintro rfl
  obtain ⟨t₀, m, l, ht₀, hin, hmode, -⟩ := h.inside
  rw [ht, Option.some.injEq] at ht₀
  subst ht₀
  exact hpos m l hin hmode

/-- What another thread does outside is no concern of the one that holds the lock
alone. -/
theorem HeldAlone.set {k : ℕ} (h : HeldAlone S object u threads k) (hik : i ≠ k)
    (ht' : t'.position.holds S = none) : HeldAlone S object u (threads.set i t') k := by
  obtain ⟨t₀, m, l, ht₀, hin⟩ := h.inside
  refine ⟨⟨t₀, m, l, ?_, hin⟩, fun j t hjk hj => ?_⟩
  · rw [List.getElem?_set_ne hik, ht₀]
  · by_cases hij : i = j
    · subst hij
      rw [List.getElem?_set] at hj
      split at hj
      · split at hj
        · rw [← Option.some.inj hj]
          exact ht'
        · cases hj
      · exact absurd rfl ‹_›
    · rw [List.getElem?_set_ne hij] at hj
      exact h.others j t hjk hj

/-- A step of a thread that stays outside keeps the invariant. -/
theorem Inv.outside (h : Inv S object s) (ht : s.threads[i]? = some t)
    (hpos : t.position.holds S = none) (hpos' : t'.position.holds S = none) :
    Inv S object (s.setThread i t') := by
  have hinside : ∀ {t : Thread M L C} {m l}, t.position.holds S = none →
      t.position ≠ .inside m l := by
    intro t m l hnone heq
    rw [heq] at hnone
    cases hnone
  obtain ⟨u, hhistory, ⟨hobject, hall⟩ | ⟨k, halone⟩⟩ := h
  · exact ⟨u, hhistory, Or.inl ⟨hobject, hall.set fun m l heq => absurd heq (hinside hpos')⟩⟩
  · have hik := halone.ne ht fun m l heq => absurd heq (hinside hpos)
    exact ⟨u, hhistory, Or.inr ⟨k, halone.set hik hpos'⟩⟩

/-- A section begins when the lock is free for it. -/
theorem Inv.enter (h : Inv S object s) {m : M} (ht : s.threads[i]? = some t)
    (hfree : Free S s.threads (S.mode m)) :
    Inv S object (s.setThread i { t with position := .inside m (S.enter m) }) := by
  obtain ⟨u, hhistory, ⟨hobject, hall⟩ | ⟨k, halone⟩⟩ := h
  · cases hmode : S.mode m with
    | shared =>
      refine ⟨u, hhistory, Or.inl ⟨hobject, hall.set fun m' l heq => ?_⟩⟩
      cases heq
      exact ⟨hmode, .enter⟩
    | unique =>
      rw [hmode] at hfree
      have hi := (List.getElem?_eq_some_iff.mp ht).1
      refine ⟨u, hhistory, Or.inr ⟨i, ⟨_, m, _, List.getElem?_set_self hi, rfl, hmode, ?_⟩,
        fun j t hji hj => ?_⟩⟩
      · exact (hobject ▸ .enter : Reaches S m u s.object (S.enter m))
      · rw [State.setThread, List.getElem?_set_ne (Ne.symm hji)] at hj
        exact hfree t (List.mem_of_getElem? hj)
  · -- somebody holds the lock alone
    obtain ⟨t₀, m₀, l₀, ht₀, hin, hmode, -⟩ := halone.inside
    have hholds : t₀.position.holds S = some .unique := by rw [hin, Position.holds, hmode]
    have hmem := List.mem_of_getElem? ht₀
    cases hm : S.mode m with
    | shared =>
      rw [hm] at hfree
      exact absurd hholds (hfree t₀ hmem)
    | unique =>
      rw [hm] at hfree
      have hnone := hfree t₀ hmem
      rw [hholds] at hnone
      cases hnone

/-- A thread inside while the lock is held alone is the one that holds it. -/
theorem HeldAlone.holder {k : ℕ} (h : HeldAlone S object u threads k) {m : M} {l : L}
    (ht : threads[i]? = some t) (hpos : t.position = .inside m l) :
    i = k ∧ S.mode m = .unique ∧ Reaches S m object u l := by
  have hik : i = k := by
    by_contra hne
    have hnone := h.others i t hne ht
    rw [hpos] at hnone
    cases hnone
  subst hik
  obtain ⟨t₀, m₀, l₀, ht₀, hin, hmode, hreach⟩ := h.inside
  rw [ht, Option.some.injEq] at ht₀
  subst ht₀
  rw [hpos, Position.inside.injEq] at hin
  obtain ⟨rfl, rfl⟩ := hin
  exact ⟨rfl, hmode, hreach⟩

/-- A section goes on, and a shared one leaves the object as it is. -/
theorem Inv.goesOn (h : Inv S object s) (hread : ReadOnly S) {m : M} {l l' : L}
    (ht : s.threads[i]? = some t) (hpos : t.position = .inside m l)
    (hnext : S.next m s.object l = (v, .goesOn l')) :
    Inv S object ({ s with object := v }.setThread i { t with position := .inside m l' }) := by
  obtain ⟨u, hhistory, ⟨hobject, hall⟩ | ⟨k, halone⟩⟩ := h
  · obtain ⟨hmode, hreach⟩ := hall t m l (List.mem_of_getElem? ht) hpos
    have hsame : v = u := by
      have hsame := hread m s.object l hmode
      rwa [hnext, hobject] at hsame
    rw [hobject, hsame] at hnext
    refine ⟨u, hhistory, Or.inl ⟨hsame, hall.set fun m' l'' heq => ?_⟩⟩
    cases heq
    exact ⟨hmode, hreach.next hnext⟩
  · obtain ⟨rfl, hmode, hreach⟩ := halone.holder ht hpos
    have hi := (List.getElem?_eq_some_iff.mp ht).1
    refine ⟨u, hhistory, Or.inr ⟨i, ⟨_, m, _, List.getElem?_set_self hi, rfl, hmode,
      hreach.next hnext⟩, fun j t' hji hj => ?_⟩⟩
    rw [State.setThread, List.getElem?_set_ne (Ne.symm hji)] at hj
    exact halone.others j t' hji hj

/-- A section ends: it has been done after those in the log. -/
theorem Inv.returns (h : Inv S object s) (hread : ReadOnly S) {m : M} {l : L} {r : R}
    (ht : s.threads[i]? = some t) (hpos : t.position = .inside m l)
    (hnext : S.next m s.object l = (v, .returns r)) (callbacks : List C) :
    Inv S object ({ s with object := v, log := s.log ++ [(i, m, r)] }.setThread i
      { position := .outside, callbacks }) := by
  have hlog : (s.log ++ [(i, m, r)]).map Prod.snd = s.log.map Prod.snd ++ [(m, r)] := by simp
  obtain ⟨u, hhistory, ⟨hobject, hall⟩ | ⟨k, halone⟩⟩ := h
  · obtain ⟨hmode, hreach⟩ := hall t m l (List.mem_of_getElem? ht) hpos
    have hsame : v = u := by
      have hsame := hread m s.object l hmode
      rwa [hnext, hobject] at hsame
    rw [hobject, hsame] at hnext
    refine ⟨u, ?_, Or.inl ⟨hsame, hall.set fun m' l' heq => nomatch heq⟩⟩
    exact hlog ▸ hhistory.snoc ⟨u, l, hreach, hnext⟩
  · obtain ⟨rfl, hmode, hreach⟩ := halone.holder ht hpos
    refine ⟨v, hlog ▸ hhistory.snoc ⟨s.object, l, hreach, hnext⟩, Or.inl ⟨rfl, ?_⟩⟩
    intro t' m' l' ht' hpos'
    obtain ⟨j, hj⟩ := List.mem_iff_getElem?.mp ht'
    by_cases hji : j = i
    · subst hji
      rw [State.setThread, List.getElem?_set_self (List.getElem?_eq_some_iff.mp ht).1,
        Option.some.injEq] at hj
      subst hj
      cases hpos'
    · rw [State.setThread, List.getElem?_set_ne (Ne.symm hji)] at hj
      have hnone := halone.others j t' hji hj
      rw [hpos'] at hnone
      cases hnone

/-- **One step** keeps the invariant. -/
theorem Inv.step (h : Inv S object s) (hread : ReadOnly S) {act : Act M}
    (hs' : s.step S act = some s') : Inv S object s' := by
  cases act with
  | call i m =>
    rw [State.step, Option.bind_eq_some_iff] at hs'
    obtain ⟨t, ht, hs'⟩ := hs'
    cases hpos : t.position with
    | outside =>
      rw [hpos, Option.some.injEq] at hs'
      subst hs'
      exact h.outside ht (by rw [hpos]; rfl) rfl
    | waiting | inside =>
      rw [hpos] at hs'
      cases hs'
  | enter i =>
    rw [State.step, Option.bind_eq_some_iff] at hs'
    obtain ⟨t, ht, hs'⟩ := hs'
    cases hpos : t.position with
    | waiting m =>
      rw [hpos] at hs'
      simp only [Option.ite_none_right_eq_some, Option.some.injEq] at hs'
      obtain ⟨hfree, rfl⟩ := hs'
      exact h.enter ht hfree
    | outside | inside =>
      rw [hpos] at hs'
      cases hs'
  | next i =>
    rw [State.step, Option.bind_eq_some_iff] at hs'
    obtain ⟨t, ht, hs'⟩ := hs'
    cases hpos : t.position with
    | inside m l =>
      rw [hpos] at hs'
      rcases hnext : S.next m s.object l with ⟨v, l' | r⟩
      · simp only [hnext, Option.some.injEq] at hs'
        subst hs'
        exact h.goesOn hread ht hpos hnext
      · simp only [hnext, Option.some.injEq] at hs'
        subst hs'
        exact h.returns hread ht hpos hnext _
    | outside | waiting =>
      rw [hpos] at hs'
      cases hs'
  | finish i =>
    rw [State.step, Option.bind_eq_some_iff] at hs'
    obtain ⟨t, ht, hs'⟩ := hs'
    cases hpos : t.position with
    | outside =>
      cases hcallbacks : t.callbacks with
      | nil =>
        rw [hpos, hcallbacks] at hs'
        cases hs'
      | cons c callbacks =>
        rw [hpos, hcallbacks, Option.some.injEq] at hs'
        subst hs'
        exact h.outside ht (by rw [hpos]; rfl) rfl
    | waiting | inside =>
      rw [hpos] at hs'
      cases hs'

end Steps

/-! ### Runs -/

/-- **Linearizability.** In every state reached by threads whose steps interleave in any
way, the sections that have ended are, in the order in which they ended, a history of
the object used by one thread alone; and the object is in the state after that
history unless some thread holds the lock alone. -/
theorem linearizable (hread : ReadOnly S) {n : ℕ} {object : σ} {acts : List (Act M)}
    {s : State σ M L R C} (hrun : run (State.step S) (State.start n object) acts = some s) :
    ∃ u, History S object (s.log.map Prod.snd) u ∧
      ((∀ t ∈ s.threads, t.position.holds S ≠ some .unique) → s.object = u) := by
  obtain ⟨u, hhistory, hphase⟩ := run_invariant' (I := Inv S object)
    (fun _ _ _ hI hs' => hI.step hread hs') (inv_start S n object) hrun
  refine ⟨u, hhistory, fun hfree => ?_⟩
  rcases hphase with ⟨hobject, -⟩ | ⟨k, ⟨t, m, l, ht, hin, hmode, -⟩, -⟩
  · exact hobject
  · exact absurd (by rw [hin, Position.holds, hmode]) (hfree t (List.mem_of_getElem? ht))

/-- The same in terms of an atomic operation for each section: every section that has
ended answered what the operation answers after those that ended before it. -/
theorem linearizable_answers (hread : ReadOnly S) {apply : σ → M → R × σ}
    (hdoes : ∀ m s r s', Does S m s r s' → apply s m = (r, s')) {n : ℕ} {object : σ}
    {acts : List (Act M)} {s : State σ M L R C}
    (hrun : run (State.step S) (State.start n object) acts = some s) :
    (replay apply object (s.log.map (·.2.1))).1 = s.log.map (·.2.2) ∧
      (∀ (k : ℕ) e, s.log[k]? = some e →
        e.2.2 = (apply (replay apply object ((s.log.take k).map (·.2.1))).2 e.2.1).1) ∧
      ((∀ t ∈ s.threads, t.position.holds S ≠ some .unique) →
        s.object = (replay apply object (s.log.map (·.2.1))).2) := by
  obtain ⟨u, hhistory, hobject⟩ := linearizable hread hrun
  have hreplay := hhistory.replay S hdoes
  simp only [List.map_map, Function.comp_def] at hreplay
  refine ⟨by rw [hreplay], fun k e hk => ?_, fun hfree => by rw [hobject hfree, hreplay]⟩
  have hresult : (replay apply object (s.log.map (·.2.1))).1[k]? = some e.2.2 := by
    rw [hreplay, List.getElem?_map, hk, Option.map_some]
  rw [replay_getElem?, List.getElem?_map, hk] at hresult
  simp only [Option.map_some, Option.some.injEq] at hresult
  rw [← hresult, List.map_take]

/-- **No nesting of calls blocks for ever.** As long as some thread has a call or a
callback to finish, some thread can take a step other than a new call: a section
that is being executed can go on, and callbacks do not keep the lock from anybody. -/
theorem exists_step (S : Sections σ M L R C) (s : State σ M L R C)
    (hbusy : ∃ t ∈ s.threads, ¬ (t.position = .outside ∧ t.callbacks = [])) :
    ∃ act, (∀ i m, act ≠ .call i m) ∧ (s.step S act).isSome := by
  by_cases hinside : ∃ (i : ℕ) (t : Thread M L C) (m : M) (l : L),
      s.threads[i]? = some t ∧ t.position = .inside m l
  · obtain ⟨i, t, m, l, ht, hpos⟩ := hinside
    refine ⟨.next i, fun _ _ h => (nomatch h), ?_⟩
    rw [State.step, ht, Option.bind_some, hpos]
    rcases hnext : S.next m s.object l with ⟨v, l' | r⟩
    · simp only [hnext, Option.isSome_some]
    · simp only [hnext, Option.isSome_some]
  have hnone : ∀ t ∈ s.threads, t.position.holds S = none := by
    intro t ht
    obtain ⟨i, hi⟩ := List.mem_iff_getElem?.mp ht
    cases hpos : t.position with
    | inside m l => exact absurd ⟨i, t, m, l, hi, hpos⟩ hinside
    | outside | waiting => rfl
  by_cases hwaiting : ∃ (i : ℕ) (t : Thread M L C) (m : M),
      s.threads[i]? = some t ∧ t.position = .waiting m
  · obtain ⟨i, t, m, ht, hpos⟩ := hwaiting
    have hfree : Free S s.threads (S.mode m) := by
      cases S.mode m with
      | shared => exact fun t ht heq => (nomatch (hnone t ht).symm.trans heq)
      | unique => exact hnone
    refine ⟨.enter i, fun _ _ h => (nomatch h), ?_⟩
    rw [State.step, ht, Option.bind_some, hpos]
    simp only [if_pos hfree, Option.isSome_some]
  · obtain ⟨t, ht, hbusy⟩ := hbusy
    obtain ⟨i, hi⟩ := List.mem_iff_getElem?.mp ht
    refine ⟨.finish i, fun _ _ h => (nomatch h), ?_⟩
    rw [State.step, hi, Option.bind_some]
    cases hpos : t.position with
    | inside m l => exact absurd ⟨i, t, m, l, hi, hpos⟩ hinside
    | waiting m => exact absurd ⟨i, t, m, hi, hpos⟩ hwaiting
    | outside =>
      cases hcallbacks : t.callbacks with
      | nil => exact absurd ⟨hpos, hcallbacks⟩ hbusy
      | cons c callbacks => rfl

/-! ### Completion -/

section Completion

variable (S) (rank : M → L → ℕ)

/-- The steps that a thread has left when it makes no more calls, if `rank` bounds those
inside a section. -/
def Thread.work (t : Thread M L C) : ℕ :=
  t.callbacks.length + match t.position with
    | .outside => 0
    | .waiting m => rank m (S.enter m) + 3
    | .inside m l => rank m l + 2

/-- The steps that all threads have left. -/
def State.work (s : State σ M L R C) : ℕ := s.threads.foldr (fun t n => t.work S rank + n) 0

variable {S rank}

theorem work_setThread (s : State σ M L R C) {i : ℕ} {t t' : Thread M L C}
    (hlt : t'.work S rank < t.work S rank) (ht : s.threads[i]? = some t) :
    (s.setThread i t').work S rank < s.work S rank := by
  obtain ⟨object, threads, log⟩ := s
  simp only [State.work, State.setThread] at ht ⊢
  induction threads generalizing i with
  | nil => cases ht
  | cons t₀ threads ih =>
    cases i with
    | zero =>
      rw [List.getElem?_cons_zero, Option.some.injEq] at ht
      subst ht
      rw [List.set_cons_zero, List.foldr_cons, List.foldr_cons]
      omega
    | succ i =>
      rw [List.getElem?_cons_succ] at ht
      have hrec := ih ht
      rw [List.set_cons_succ, List.foldr_cons, List.foldr_cons]
      omega

/-- A step that is not a new call takes one off the work that is left. -/
theorem step_work (hrank : ∀ m s l v l', S.next m s l = (v, .goesOn l') → rank m l' < rank m l)
    {s s' : State σ M L R C} {act : Act M} (hact : ∀ i m, act ≠ .call i m)
    (hs' : s.step S act = some s') : s'.work S rank < s.work S rank := by
  cases act with
  | call i m => exact absurd rfl (hact i m)
  | enter i =>
    rw [State.step, Option.bind_eq_some_iff] at hs'
    obtain ⟨t, ht, hs'⟩ := hs'
    cases hpos : t.position with
    | waiting m =>
      rw [hpos] at hs'
      simp only [Option.ite_none_right_eq_some, Option.some.injEq] at hs'
      obtain ⟨-, rfl⟩ := hs'
      refine work_setThread s ?_ ht
      simp only [Thread.work, hpos]
      omega
    | outside | inside =>
      rw [hpos] at hs'
      cases hs'
  | next i =>
    rw [State.step, Option.bind_eq_some_iff] at hs'
    obtain ⟨t, ht, hs'⟩ := hs'
    cases hpos : t.position with
    | inside m l =>
      rw [hpos] at hs'
      rcases hnext : S.next m s.object l with ⟨v, l' | r⟩
      · simp only [hnext, Option.some.injEq] at hs'
        subst hs'
        have hlt := hrank _ _ _ _ _ hnext
        refine work_setThread s ?_ ht
        simp only [Thread.work, hpos]
        omega
      · simp only [hnext, Option.some.injEq] at hs'
        subst hs'
        have hcallback : (S.callback r).toList.length ≤ 1 := by
          cases S.callback r <;> simp
        refine work_setThread s ?_ ht
        simp only [Thread.work, hpos, List.length_append]
        omega
    | outside | waiting =>
      rw [hpos] at hs'
      cases hs'
  | finish i =>
    rw [State.step, Option.bind_eq_some_iff] at hs'
    obtain ⟨t, ht, hs'⟩ := hs'
    cases hpos : t.position with
    | outside =>
      cases hcallbacks : t.callbacks with
      | nil =>
        rw [hpos, hcallbacks] at hs'
        cases hs'
      | cons c callbacks =>
        rw [hpos, hcallbacks, Option.some.injEq] at hs'
        subst hs'
        refine work_setThread s ?_ ht
        simp only [Thread.work, hpos, hcallbacks, List.length_cons]
        omega
    | waiting | inside =>
      rw [hpos] at hs'
      cases hs'

/-- **Every call completes.** Without new calls, whatever the order of the steps, there
are no more of them than the work that was left, and when there is none left to take
all threads are outside with no callback running. -/
theorem completes (hrank : ∀ m s l v l', S.next m s l = (v, .goesOn l') → rank m l' < rank m l)
    {s s' : State σ M L R C} {acts : List (Act M)} (hacts : ∀ act ∈ acts, ∀ i m, act ≠ .call i m)
    (hrun : run (State.step S) s acts = some s') :
    acts.length + s'.work S rank ≤ s.work S rank ∧
      ((∀ act, (∀ i m, act ≠ .call i m) → s'.step S act = none) →
        ∀ t ∈ s'.threads, t.position = .outside ∧ t.callbacks = []) := by
  constructor
  · induction acts generalizing s with
    | nil =>
      rw [run_nil, Option.some.injEq] at hrun
      simp [hrun]
    | cons act acts ih =>
      rw [run_cons, Option.bind_eq_some_iff] at hrun
      obtain ⟨s₁, hs₁, hrun⟩ := hrun
      have hlt := step_work hrank (hacts act List.mem_cons_self) hs₁
      have hle := ih (fun act' hact' => hacts act' (List.mem_cons_of_mem _ hact')) hrun
      rw [List.length_cons]
      omega
  · intro hstuck t ht
    by_contra hbusy
    obtain ⟨act, hact, hsome⟩ := exists_step S s' ⟨t, ht, hbusy⟩
    rw [hstuck act hact] at hsome
    cases hsome

end Completion

end Brasa.Lib.SharedLock
