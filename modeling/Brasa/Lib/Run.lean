import Mathlib.Data.List.Basic

/-!
# Brasa.Lib.Run

Runs of a deterministic machine given by a partial step function
`step : σ → ι → Option σ` over a list of inputs, and the two induction rules
every development over such a machine needs:

* `run_invariant` lifts a property preserved by one step to the whole run;
* `run_lockstep` lifts a step-by-step correspondence of two machines to the
  whole run, including that neither machine gets stuck.

Both rules are relative to a side condition `P s i` that is only required *along
the run* (`Along`), i.e. of the state and input of each step actually taken.
-/

namespace Brasa.Lib

variable {σ τ ι : Type*}

/-- Run `step` from `s` over the inputs, in order; `none` as soon as a step is
impossible. -/
def run (step : σ → ι → Option σ) (s : σ) (is : List ι) : Option σ :=
  is.foldlM step s

variable {step : σ → ι → Option σ}

@[simp] theorem run_nil (s : σ) : run step s [] = some s := rfl

@[simp] theorem run_cons (s : σ) (i : ι) (is : List ι) :
    run step s (i :: is) = (step s i).bind (fun s' => run step s' is) := rfl

theorem run_append (s : σ) (is js : List ι) :
    run step s (is ++ js) = (run step s is).bind (fun s' => run step s' js) := by
  simp only [run, List.foldlM_append]
  rfl

/-- Splitting a completed run at any point of its input. -/
theorem run_append_eq_some {s s' : σ} {is js : List ι} :
    run step s (is ++ js) = some s' ↔
      ∃ m, run step s is = some m ∧ run step m js = some s' := by
  rw [run_append, Option.bind_eq_some_iff]

/-- A machine whose every step is possible is a left fold. -/
theorem run_total (f : σ → ι → σ) (s : σ) (is : List ι) :
    run (fun s i => some (f s i)) s is = some (is.foldl f s) := by
  induction is generalizing s with
  | nil => rfl
  | cons i is ih => exact ih (f s i)

/-- To know exactly when a step is possible and what it gives, it is enough to
perform it when it should be possible, and to know that it is not otherwise. -/
theorem possible_iff {E : Prop} {I : σ → Prop} {o : Option σ}
    (hpossible : E → ∃ s', o = some s' ∧ I s') (honly : o.isSome → E) :
    (E ↔ o.isSome) ∧ ∀ s', o = some s' → I s' := by
  refine ⟨⟨fun hE => ?_, honly⟩, fun s' hs' => ?_⟩
  · obtain ⟨s', hs', -⟩ := hpossible hE
    rw [hs', Option.isSome_some]
  · obtain ⟨s'', hs'', hI⟩ := hpossible (honly (by rw [hs', Option.isSome_some]))
    rw [hs', Option.some.injEq] at hs''
    exact hs'' ▸ hI

/-- `P` holds of the state and the input of every step of the run. -/
def Along (step : σ → ι → Option σ) (P : σ → ι → Prop) : σ → List ι → Prop
  | _, [] => True
  | s, i :: is => P s i ∧ match step s i with
    | some s' => Along step P s' is
    | none => True

variable {P Q : σ → ι → Prop}

@[simp] theorem along_nil (s : σ) : Along step P s [] := trivial

theorem along_cons {s : σ} {i : ι} {is : List ι} :
    Along step P s (i :: is) ↔ P s i ∧ ∀ s', step s i = some s' → Along step P s' is := by
  rw [Along]
  cases step s i with
  | none => simp
  | some s' => simp

instance Along.decide [∀ s i, Decidable (P s i)] :
    ∀ (s : σ) (is : List ι), Decidable (Along step P s is)
  | _, [] => isTrue trivial
  | s, i :: is =>
    have : Decidable (match step s i with
        | some s' => Along step P s' is
        | none => True) :=
      match step s i with
      | some s' => Along.decide s' is
      | none => isTrue trivial
    inferInstanceAs (Decidable (_ ∧ _))

/-- What holds of the inputs in every state holds along every run over them. -/
theorem along_of_forall_mem :
    ∀ {is : List ι} {s : σ}, (∀ i ∈ is, ∀ s, P s i) → Along step P s is := by
  intro is
  induction is with
  | nil => intro s _; trivial
  | cons i is ih =>
    intro s h
    exact along_cons.mpr
      ⟨h i List.mem_cons_self s, fun s' _ => ih fun j hj => h j (List.mem_cons_of_mem i hj)⟩

/-- What holds of every state and input holds along every run. -/
theorem along_of_forall (h : ∀ s i, P s i) {is : List ι} {s : σ} : Along step P s is :=
  along_of_forall_mem fun i _ s => h s i

theorem Along.mono (hPQ : ∀ s i, P s i → Q s i) :
    ∀ {is : List ι} {s : σ}, Along step P s is → Along step Q s is := by
  intro is
  induction is with
  | nil => intro s _; trivial
  | cons i is ih =>
    intro s h
    rw [along_cons] at h ⊢
    exact ⟨hPQ s i h.1, fun s' hs' => ih (h.2 s' hs')⟩

theorem along_and {is : List ι} {s : σ} (hP : Along step P s is) (hQ : Along step Q s is) :
    Along step (fun s i => P s i ∧ Q s i) s is := by
  induction is generalizing s with
  | nil => trivial
  | cons i is ih =>
    rw [along_cons] at hP hQ ⊢
    exact ⟨⟨hP.1, hQ.1⟩, fun s' hs' => ih (hP.2 s' hs') (hQ.2 s' hs')⟩

/-- The side condition along `is ++ js` holds along `is` and then along `js`. -/
theorem along_append {js : List ι} :
    ∀ {is : List ι} {s : σ}, Along step P s (is ++ js) ↔
      Along step P s is ∧ ∀ m, run step s is = some m → Along step P m js := by
  intro is
  induction is with
  | nil => intro s; simp
  | cons i is ih =>
    intro s
    rw [List.cons_append, along_cons, along_cons]
    constructor
    · rintro ⟨hP, hrest⟩
      refine ⟨⟨hP, fun s' hs' => (ih.mp (hrest s' hs')).1⟩, ?_⟩
      intro m hm
      rw [run_cons, Option.bind_eq_some_iff] at hm
      obtain ⟨s', hs', hm⟩ := hm
      exact (ih.mp (hrest s' hs')).2 m hm
    · rintro ⟨⟨hP, hhead⟩, htail⟩
      refine ⟨hP, fun s' hs' => ih.mpr ⟨hhead s' hs', fun m hm => htail m ?_⟩⟩
      rw [run_cons, hs']
      exact hm

/-- `P` holds in every state of the run, the first and the last included. -/
def Always (step : σ → ι → Option σ) (P : σ → Prop) : σ → List ι → Prop
  | s, [] => P s
  | s, i :: is => P s ∧ ∀ s', step s i = some s' → Always step P s' is

theorem Always.head {P : σ → Prop} {s : σ} {is : List ι} (h : Always step P s is) : P s := by
  cases is with
  | nil => exact h
  | cons i is => exact h.1

theorem Always.last {P : σ → Prop} :
    ∀ {is : List ι} {s s' : σ}, Always step P s is → run step s is = some s' → P s' := by
  intro is
  induction is with
  | nil =>
    intro s s' h hrun
    obtain rfl : s = s' := by simpa using hrun
    exact h
  | cons i is ih =>
    intro s s' h hrun
    rw [run_cons, Option.bind_eq_some_iff] at hrun
    obtain ⟨m, hm, hrun⟩ := hrun
    exact ih (h.2 m hm) hrun

instance Always.decide {P : σ → Prop} [∀ s, Decidable (P s)] :
    ∀ (s : σ) (is : List ι), Decidable (Always step P s is)
  | s, [] => inferInstanceAs (Decidable (P s))
  | s, i :: is =>
    have : Decidable (∀ s', step s i = some s' → Always step P s' is) :=
      match step s i with
      | some s' =>
        have : Decidable (Always step P s' is) := Always.decide s' is
        decidable_of_iff (Always step P s' is)
          ⟨fun ha _ hs => Option.some.inj hs ▸ ha, fun ha => ha s' rfl⟩
      | none => isTrue fun _ hs => nomatch hs
    inferInstanceAs (Decidable (_ ∧ _))

/-- What holds in every state holds in the state of every step. -/
theorem Always.along {P : σ → Prop} :
    ∀ {is : List ι} {s : σ}, Always step P s is → Along step (fun s _ => P s) s is := by
  intro is
  induction is with
  | nil => intro s _; trivial
  | cons i is ih =>
    intro s h
    exact along_cons.mpr ⟨h.1, fun s' hs' => ih (h.2 s' hs')⟩

/-- What no step brings back held in every state of a run that ends with it. -/
theorem always_of_last {I P : σ → Prop} (hstep : ∀ s i s', I s → step s i = some s' → I s')
    (hback : ∀ s i s', I s → step s i = some s' → P s' → P s) :
    ∀ {is : List ι} {s s' : σ}, I s → run step s is = some s' → P s' → Always step P s is := by
  intro is
  induction is with
  | nil =>
    intro s s' _ hrun hP
    obtain rfl : s = s' := by simpa using hrun
    exact hP
  | cons i is ih =>
    intro s s' hI hrun hP
    rw [run_cons, Option.bind_eq_some_iff] at hrun
    obtain ⟨m, hm, hrun⟩ := hrun
    have hrest := ih (hstep s i m hI hm) hrun hP
    refine ⟨hback s i m hI hm hrest.head, fun m' hm' => ?_⟩
    rw [hm, Option.some.injEq] at hm'
    exact hm' ▸ hrest

/-- **Equivalence rule.** Let `I` be kept by every step that meets `Q`, and give `P`.
If a step can fail `Q` only by leading to a state without `P`, then `P` holds in
every state of a run exactly when every step of it meets `Q`. -/
theorem always_iff_along {I P : σ → Prop} {Q : σ → ι → Prop} (hP : ∀ s, I s → P s)
    (hstep : ∀ s i s', I s → Q s i → step s i = some s' → I s')
    (hfail : ∀ s i, I s → (∀ s', step s i = some s' → P s') → Q s i) :
    ∀ {is : List ι} {s : σ}, I s → (Always step P s is ↔ Along step Q s is) := by
  intro is
  induction is with
  | nil => intro s hI; exact ⟨fun _ => trivial, fun _ => hP s hI⟩
  | cons i is ih =>
    intro s hI
    rw [along_cons]
    constructor
    · intro h
      have hQ := hfail s i hI fun s' hs' => (h.2 s' hs').head
      exact ⟨hQ, fun s' hs' => (ih (hstep s i s' hI hQ hs')).mp (h.2 s' hs')⟩
    · intro h
      exact ⟨hP s hI, fun s' hs' => (ih (hstep s i s' hI h.1 hs')).mpr (h.2 s' hs')⟩

/-- **Invariant rule.** What holds initially and is preserved by every step
whose side condition holds, holds at the end of the run. -/
theorem run_invariant {I : σ → Prop}
    (hstep : ∀ s i s', I s → P s i → step s i = some s' → I s') :
    ∀ {is : List ι} {s s' : σ}, I s → Along step P s is → run step s is = some s' → I s' := by
  intro is
  induction is with
  | nil =>
    intro s s' hI _ hrun
    obtain rfl : s = s' := by simpa using hrun
    exact hI
  | cons i is ih =>
    intro s s' hI hP hrun
    rw [along_cons] at hP
    rw [run_cons, Option.bind_eq_some_iff] at hrun
    obtain ⟨m, hm, hrun⟩ := hrun
    exact ih (hstep s i m hI hP.1 hm) (hP.2 m hm) hrun

/-- What an invariant gives at a step holds along every run that keeps the invariant. -/
theorem Along.of_invariant {I : σ → Prop}
    (hstep : ∀ s i s', I s → P s i → step s i = some s' → I s')
    (hgive : ∀ s i, I s → P s i → Q s i) :
    ∀ {is : List ι} {s : σ}, I s → Along step P s is → Along step Q s is := by
  intro is
  induction is with
  | nil => intro s _ _; trivial
  | cons i is ih =>
    intro s hI hP
    rw [along_cons] at hP ⊢
    exact ⟨hgive s i hI hP.1, fun s' hs' => ih (hstep s i s' hI hP.1 hs') (hP.2 s' hs')⟩

/-- The invariant rule without a side condition. -/
theorem run_invariant' {I : σ → Prop}
    (hstep : ∀ s i s', I s → step s i = some s' → I s')
    {is : List ι} {s s' : σ} (hI : I s) (hrun : run step s is = some s') : I s' :=
  run_invariant (P := fun _ _ => True) (fun s i s' hI _ h => hstep s i s' hI h) hI
    (along_of_forall (fun _ _ => trivial)) hrun

/-- **Progress rule.** If every step whose side condition holds is possible and
preserves `I`, then so is every run. -/
theorem run_progress {I : σ → Prop}
    (hstep : ∀ s i, I s → P s i → ∃ s', step s i = some s' ∧ I s') :
    ∀ {is : List ι} {s : σ}, I s → Along step P s is → ∃ s', run step s is = some s' ∧ I s' := by
  intro is
  induction is with
  | nil => intro s hI _; exact ⟨s, rfl, hI⟩
  | cons i is ih =>
    intro s hI hP
    rw [along_cons] at hP
    obtain ⟨m, hm, hI'⟩ := hstep s i hI hP.1
    obtain ⟨s', hs', hI''⟩ := ih hI' (hP.2 m hm)
    exact ⟨s', by rw [run_cons, hm]; exact hs', hI''⟩

/-- **Simulation rule.** If every step of `f` whose side condition holds is matched by the
total machine `g`, then so is every run along which it holds. -/
theorem run_simulation {f : σ → ι → Option σ} {g : τ → ι → τ} {P : σ → ι → Prop}
    (R : σ → τ → Prop)
    (hstep : ∀ s t i s', R s t → P s i → f s i = some s' → R s' (g t i)) :
    ∀ {is : List ι} {s s' : σ} {t : τ}, R s t → Along f P s is → run f s is = some s' →
      R s' (is.foldl g t) := by
  intro is
  induction is with
  | nil =>
    intro s s' t hR _ hrun
    obtain rfl : s = s' := by simpa using hrun
    exact hR
  | cons i is ih =>
    intro s s' t hR hP hrun
    rw [along_cons] at hP
    rw [run_cons, Option.bind_eq_some_iff] at hrun
    obtain ⟨m, hm, hrun⟩ := hrun
    exact ih (hstep s t i m hR hP.1 hm) (hP.2 m hm) hrun

/-- What `act` makes of the inputs of a run. -/
def inputs {κ : Type*} (f : σ → ι → Option σ) (act : σ → ι → κ) : σ → List ι → List κ
  | _, [] => []
  | s, i :: is => act s i :: match f s i with
    | some s' => inputs f act s' is
    | none => []

/-- **Refinement rule.** If every step of `f` whose side condition holds is a step of `g`
over the input that `act` makes of it, then so is every run along which it holds. -/
theorem run_refinement {κ : Type*} {f : σ → ι → Option σ} {g : τ → κ → Option τ}
    {act : σ → ι → κ} {P : σ → ι → Prop} (R : σ → τ → Prop)
    (hstep : ∀ s t i s', R s t → P s i → f s i = some s' →
      ∃ t', g t (act s i) = some t' ∧ R s' t') :
    ∀ {is : List ι} {s s' : σ} {t : τ}, R s t → Along f P s is → run f s is = some s' →
      ∃ t', run g t (inputs f act s is) = some t' ∧ R s' t' := by
  intro is
  induction is with
  | nil =>
    intro s s' t hR _ hrun
    obtain rfl : s = s' := by simpa using hrun
    exact ⟨t, rfl, hR⟩
  | cons i is ih =>
    intro s s' t hR hP hrun
    rw [along_cons] at hP
    rw [run_cons, Option.bind_eq_some_iff] at hrun
    obtain ⟨m, hm, hrun⟩ := hrun
    obtain ⟨t', ht', hR'⟩ := hstep s t i m hR hP.1 hm
    obtain ⟨t'', ht'', hR''⟩ := ih hR' (hP.2 m hm) hrun
    refine ⟨t'', ?_, hR''⟩
    rw [inputs, hm, run_cons, ht']
    exact ht''

/-- **Lockstep rule.** If related states always step together to related states
whenever the side condition holds on the right, then the two machines run
together over any input along which it holds; neither gets stuck. -/
theorem run_lockstep {f : σ → ι → Option σ} {g : τ → ι → Option τ} {P : τ → ι → Prop}
    (R : σ → τ → Prop)
    (hstep : ∀ s t i, R s t → P t i → ∃ s' t', f s i = some s' ∧ g t i = some t' ∧ R s' t') :
    ∀ {is : List ι} {s : σ} {t : τ}, R s t → Along g P t is →
      ∃ s' t', run f s is = some s' ∧ run g t is = some t' ∧ R s' t' := by
  intro is
  induction is with
  | nil => intro s t hR _; exact ⟨s, t, rfl, rfl, hR⟩
  | cons i is ih =>
    intro s t hR hP
    rw [along_cons] at hP
    obtain ⟨s₁, t₁, hs, ht, hR₁⟩ := hstep s t i hR hP.1
    obtain ⟨s', t', hs', ht', hR'⟩ := ih hR₁ (hP.2 t₁ ht)
    refine ⟨s', t', ?_, ?_, hR'⟩
    · rw [run_cons, hs]; exact hs'
    · rw [run_cons, ht]; exact ht'

/-- **Agreement rule.** Let `I` be kept by the steps of `g` that meet `P`, and let `f`
and `g` agree wherever `Q` holds. If `U` says of a step of `f` what `Q` says of the
same step of `g`, then `U` holds along the run of `f` exactly when `Q` holds along
that of `g`, and the two are then the same run. -/
theorem along_iff_of_agree {f g : σ → ι → Option σ} {I : σ → Prop} {U : σ → ι → Prop}
    (hstep : ∀ s i s', I s → P s i → g s i = some s' → I s')
    (hiff : ∀ s i, I s → P s i → (U s i ↔ Q s i))
    (hagree : ∀ s i, I s → P s i → Q s i → f s i = g s i) :
    ∀ {is : List ι} {s : σ}, I s → Along g P s is →
      (Along f U s is ↔ Along g Q s is) ∧ (Along g Q s is → run f s is = run g s is) := by
  intro is
  induction is with
  | nil => intro s _ _; exact ⟨Iff.rfl, fun _ => rfl⟩
  | cons i is ih =>
    intro s hI hP
    rw [along_cons] at hP
    have hrest : ∀ s', g s i = some s' → (Along f U s' is ↔ Along g Q s' is) ∧
        (Along g Q s' is → run f s' is = run g s' is) := fun s' hs' =>
      ih (hstep s i s' hI hP.1 hs') (hP.2 s' hs')
    constructor
    · rw [along_cons, along_cons, hiff s i hI hP.1]
      refine and_congr_right fun hQ => ?_
      rw [hagree s i hI hP.1 hQ]
      exact forall₂_congr fun s' hs' => (hrest s' hs').1
    · intro hall
      rw [along_cons] at hall
      rw [run_cons, run_cons, hagree s i hI hP.1 hall.1]
      cases hs' : g s i with
      | none => rfl
      | some s' => exact (hrest s' hs').2 (hall.2 s' hs')

end Brasa.Lib
