import Brasa.Argparse.Integer
import Brasa.Argparse.Missing
import Brasa.Argparse.Reuse

/-!
# Brasa.Argparse.Report

**What `parse` writes to `err`.** A call that returns `Ok` writes nothing, and every
other call ends its text with the usage, which no call changes, whatever was digested and
whatever was thrown (`parse_reports`).

For a parser that has not been used, `positional_report` is the complete account of the
positional phase: the result, the text and the holders for every command line.
-/

namespace Brasa.Argparse

open Brasa.Lib

variable {T δ : Type}

/-! ### What no call changes -/

/-- What the functor leaves alone in each element is the same in the whole tuple, also
where it throws. -/
theorem forEachTuple_leaves_map {ε α σ γ : Type} {f : ℕ → α → σ → EStateM.Result ε (α × σ) Unit}
    {g : α → γ} (hf : ∀ I x s, g (leaves (f I x s)).1 = g x) (I : ℕ) (xs : List α) (s : σ) :
    (leaves (forEachTuple f I xs s)).1.map g = xs.map g := by
  induction xs generalizing I s with
  | nil => rfl
  | cons x xs ih =>
    have hx := hf I x s
    rw [forEachTuple]
    cases hrun : f I x s with
    | error e r =>
      rw [hrun] at hx
      simpa [leaves] using hx
    | ok u r =>
      rw [hrun] at hx
      have hxs := ih (I + 1) r.2
      cases hrest : forEachTuple f (I + 1) xs r.2 with
      | error e q =>
        rw [hrest] at hxs
        simpa [leaves, hrest] using ⟨hx, hxs⟩
      | ok u q =>
        rw [hrest] at hxs
        simpa [leaves, hrest] using ⟨hx, hxs⟩

theorem accumulateTuple_leaves_map {ε α β σ γ : Type} {op : β → β → β}
    {f : ℕ → α → σ → EStateM.Result ε (α × σ) β} {g : α → γ}
    (hf : ∀ I x s, g (leaves (f I x s)).1 = g x) (I : ℕ) (b : β) (xs : List α) (s : σ) :
    (leaves (accumulateTuple op f I b xs s)).1.map g = xs.map g := by
  induction xs generalizing I b s with
  | nil => rfl
  | cons x xs ih =>
    have hx := hf I x s
    rw [accumulateTuple]
    cases hrun : f I x s with
    | error e r =>
      rw [hrun] at hx
      simpa [leaves] using hx
    | ok c r =>
      rw [hrun] at hx
      have hxs := ih (I + 1) (op b c) r.2
      cases hrest : accumulateTuple op f (I + 1) (op b c) xs r.2 with
      | error e q =>
        rw [hrest] at hxs
        simpa [leaves, hrest] using ⟨hx, hxs⟩
      | ok d q =>
        rw [hrest] at hxs
        simpa [leaves, hrest] using ⟨hx, hxs⟩

theorem Value.take_base (v : Value T) (argument : StdString) :
    (leaves (v.digest argument)).base = v.base := by
  have hsingle : ∀ (type : ValueType T) (w : SingleValue T),
      (leaves (w.digest type argument)).base = w.base := by
    intro type w
    rw [SingleValue.digest]
    split
    · rfl
    · split <;> rfl
  have hmulti : ∀ (type : ValueType T) (w : MultiValueBase T),
      (leaves (w.digest type argument)).base = w.base := by
    intro type w
    rw [MultiValueBase.digest]
    split <;> rfl
  cases v with
  | single type w =>
    have hw := hsingle type w
    rw [Value.digest]
    cases hrun : w.digest type argument <;> rw [hrun] at hw <;> exact hw
  | multi type w =>
    have hw := hmulti type w
    rw [Value.digest]
    cases hrun : w.digest type argument <;> rw [hrun] at hw <;> exact hw
  | limited N type w =>
    have hw := hmulti type w
    rw [Value.digest]
    cases assertCanDigest (w.size < N) argument with
    | error e => rfl
    | ok u =>
      dsimp only
      cases hrun : w.digest type argument <;> rw [hrun] at hw <;> exact hw

theorem digestWhile_leaves_base (v : Value T) (args : List StdString) :
    (leaves (digestWhile v args)).1.base = v.base := by
  induction args generalizing v with
  | nil => rfl
  | cons a args ih =>
    rw [digestWhile]
    by_cases hcan : v.canDigest = true
    · have hbase := v.take_base a
      rw [if_pos hcan]
      cases hrun : v.digest a with
      | error e w =>
        rw [hrun] at hbase
        exact hbase
      | ok u w =>
        rw [hrun] at hbase
        exact (ih w).trans hbase
    · rw [if_neg hcan]
      rfl

theorem parseValues_leaves_base (I : ℕ) (v : Value T) (args : List StdString) :
    (leaves (parseValues I v args)).1.base = v.base := by
  have hbase := digestWhile_leaves_base v args
  rw [parseValues]
  split
  · rfl
  · cases hrun : digestWhile v args <;> rw [hrun] at hbase <;> exact hbase

theorem positionalValues_base (values : List (Value T)) (args : List StdString) :
    (positionalValues values args).map Value.base = values.map Value.base := by
  have hbase : (leaves (accumulateTuple (· && ·) parseValues 0 true values args)).1.map Value.base
      = values.map Value.base :=
    accumulateTuple_leaves_map parseValues_leaves_base 0 true values args
  rw [positionalValues, positionalPhase]
  cases hrun : accumulateTuple (· && ·) parseValues 0 true values args with
  | error e r =>
    rw [hrun] at hbase
    exact hbase
  | ok served r =>
    obtain ⟨values', rest⟩ := r
    rw [hrun] at hbase
    cases served with
    | false => exact hbase
    | true => cases rest <;> exact hbase

/-- What the usage shows of an option. -/
def OptionParser.shown : OptionParser δ → BaseParser × Option StdString
  | .boolean p => (p.base, none)
  | .parameter _ p => (p.base, some p.name)

theorem OptionParser.digest_shown (p : OptionParser δ) (argument : StdString) :
    (leaves (p.digest argument)).shown = p.shown := by
  cases p with
  | boolean p => rfl
  | parameter type p =>
    rw [OptionParser.digest, BaseParameterParser.digest]
    by_cases hcheck : p.checkerFunction argument = true
    · rw [if_pos hcheck]
      cases type.digest argument p.digester <;> rfl
    · rw [if_neg hcheck]
      rfl

theorem parseOption_shown (c : Int8) (parameter : StdString) (I : ℕ) (p : OptionParser δ)
    (digests : List DigestCall) :
    (leaves (parseOption c parameter I p digests)).1.shown = p.shown := by
  have hshown := p.digest_shown parameter
  rw [parseOption]
  split
  · cases hrun : p.digest parameter <;> rw [hrun] at hshown <;> exact hshown
  · rfl

theorem optionLoop_shown (rs : List GetoptReturn) (phase : OptionPhase δ) :
    (leaves (optionLoop rs phase)).parsers.map OptionParser.shown
      = phase.parsers.map OptionParser.shown := by
  induction rs generalizing phase with
  | nil => rfl
  | cons r rs ih =>
    rw [optionLoop]
    split
    · rfl
    split
    · rfl
    split
    · rfl
    have hshown := forEachTuple_leaves_map
      (parseOption_shown (δ := δ) r.c.toInt8 (r.optarg.getD [])) 0 phase.parsers phase.digests
    cases hrun : forEachTuple (parseOption r.c.toInt8 (r.optarg.getD [])) 0 phase.parsers
        phase.digests with
    | error e q =>
      rw [hrun] at hshown
      exact hshown
    | ok u q =>
      rw [hrun] at hshown
      exact (ih _).trans hshown

theorem accumulateConst_congr {α β γ : Type} {op : β → β → β} {f : ℕ → α → β} {g : α → γ}
    (hf : ∀ I x y, g x = g y → f I x = f I y) {xs ys : List α} (h : xs.map g = ys.map g) (I : ℕ)
    (b : β) : accumulateConst op f I b xs = accumulateConst op f I b ys := by
  induction xs generalizing ys I b with
  | nil =>
    rw [List.map_nil, eq_comm, List.map_eq_nil_iff] at h
    rw [h]
  | cons x xs ih =>
    cases ys with
    | nil => cases h
    | cons y ys =>
      rw [List.map_cons, List.map_cons, List.cons.injEq] at h
      rw [accumulateConst, accumulateConst, hf I x y h.1, ih h.2]

/-- What the texts of a parser are made of. -/
structure SameTexts (p q : ArgParser T δ) : Prop where
  description : p.description = q.description
  footer : p.footer = q.footer
  longOptions : p.longOptions = q.longOptions
  shortOptions : p.shortOptions = q.shortOptions
  values : p.values.map Value.base = q.values.map Value.base
  parsers : p.parsers.map OptionParser.shown = q.parsers.map OptionParser.shown

theorem SameTexts.usage {p q : ArgParser T δ} (h : SameTexts p q) (executable : StdString) :
    p.usage executable = q.usage executable := by
  have hvalue : ∀ I (v w : Value T), v.base = w.base → buildValueUsage I v = buildValueUsage I w :=
    fun I v w hbase => by rw [buildValueUsage, buildValueUsage, hbase]
  have hcommand : ∀ I (v w : Value T), v.base = w.base →
      buildCommandLine I v = buildCommandLine I w :=
    fun I v w hbase => by rw [buildCommandLine, buildCommandLine, hbase]
  have hparser : ∀ I (v w : OptionParser δ), v.shown = w.shown →
      buildParserUsage I v = buildParserUsage I w := by
    intro I v w hshown
    cases v with
    | boolean v =>
      cases w with
      | boolean w =>
        simp only [buildParserUsage, OptionParser.shortOption, OptionParser.longOption,
          OptionParser.base, (Prod.mk.inj hshown).1]
      | parameter type w => cases (Prod.mk.inj hshown).2
    | parameter type v =>
      cases w with
      | boolean w => cases (Prod.mk.inj hshown).2
      | parameter type' w =>
        obtain ⟨hbase, hname⟩ := Prod.mk.inj hshown
        simp only [buildParserUsage, OptionParser.shortOption, OptionParser.longOption,
          OptionParser.base, hbase, Option.some.inj hname]
  have hempty : p.parsers.isEmpty = q.parsers.isEmpty := by
    rw [← List.isEmpty_map (f := OptionParser.shown), h.parsers, List.isEmpty_map]
  rw [ArgParser.usage, ArgParser.usage, accumulateConst_congr hvalue h.values,
    accumulateConst_congr hcommand h.values, accumulateConst_congr hparser h.parsers, hempty,
    h.description, h.footer]

theorem parse_sameTexts (self : ArgParser T δ) (executable : StdString) (getopt : Getopt) :
    SameTexts (self.parse executable getopt).2.parser self := by
  have hparsers := (@parse_phase T δ self executable getopt).1
  have hvalues : (self.parse executable getopt).2.parser.values.map Value.base
      = self.values.map Value.base := by
    cases hrun : optionLoop getopt.returns ⟨self.parsers, [], 0⟩ with
    | error e phase => rw [(parse_throws executable getopt hrun).2]
    | ok result phase =>
      cases result with
      | some result => rw [(parse_options executable getopt hrun).2]
      | none => rw [(parse_positional executable getopt hrun).2, positionalValues_base]
  have hshown : (self.parse executable getopt).2.parser.parsers.map OptionParser.shown
      = self.parsers.map OptionParser.shown := by
    rw [hparsers, optionLoop_shown]
  rw [parse_frame] at hvalues hshown ⊢
  exact ⟨rfl, rfl, rfl, rfl, hvalues, hshown⟩

theorem SameTexts.trans {p q r : ArgParser T δ} (h : SameTexts p q) (h' : SameTexts q r) :
    SameTexts p r where
  description := h.description.trans h'.description
  footer := h.footer.trans h'.footer
  longOptions := h.longOptions.trans h'.longOptions
  shortOptions := h.shortOptions.trans h'.shortOptions
  values := h.values.trans h'.values
  parsers := h.parsers.trans h'.parsers

/-! ### Any number of calls -/

/-- What a call may write to `err`. -/
structure Reported (usage : StdString) (result : ParseResult) (err : StdString) : Prop where
  ok : result = .ok → err = []
  help : result = .help → err = usage
  error : result = .error → err = usage ∨ ∃ what, err = errorMsg ++ what ++ str "\n\n" ++ usage

theorem positionalPhase_err (values : List (Value T)) (args : List StdString) :
    match positionalPhase values args with
    | .error _ (_, err) => err = []
    | .ok .error (_, err) => ∃ what, err = errorMsg ++ what ++ str "\n\n"
    | .ok _ (_, err) => err = [] := by
  rw [positionalPhase]
  cases accumulateTuple (· && ·) parseValues 0 true values args with
  | error e r => rfl
  | ok served r =>
    obtain ⟨values', rest⟩ := r
    cases served with
    | false => exact ⟨_, by rw [List.append_assoc errorMsg]⟩
    | true =>
      cases rest with
      | nil => rfl
      | cons argument rest => exact ⟨_, by rw [List.append_assoc errorMsg]⟩

theorem doParse_err (self : ArgParser T δ) (getopt : Getopt) :
    match self.doParse getopt with
    | .error _ out => out.err = []
    | .ok .error out => out.err = [] ∨ ∃ what, out.err = errorMsg ++ what ++ str "\n\n"
    | .ok _ out => out.err = [] := by
  rw [ArgParser.doParse]
  cases optionLoop getopt.returns ⟨self.parsers, [], 0⟩ with
  | error e phase => rfl
  | ok result phase =>
    cases result with
    | some result =>
      cases result with
      | error => exact Or.inl rfl
      | ok | help => rfl
    | none =>
      have herr := positionalPhase_err self.values (getopt.residual phase.calls)
      dsimp only
      cases hrun : positionalPhase self.values (getopt.residual phase.calls) with
      | error e r =>
        rw [hrun] at herr
        exact herr
      | ok result r =>
        rw [hrun] at herr
        cases result with
        | error => exact Or.inr herr
        | ok | help => exact herr

theorem parse_reported (self : ArgParser T δ) (executable : StdString) (getopt : Getopt) :
    Reported (self.usage executable) (self.parse executable getopt).1
      (self.parse executable getopt).2.err := by
  have husage := (parse_sameTexts self executable getopt).usage executable
  have herr := doParse_err self getopt
  rw [← husage]
  rw [(parse_run executable getopt).1, ArgParser.parse]
  cases hrun : self.doParse getopt with
  | error e out =>
    rw [hrun] at herr
    refine ⟨fun h => ?_, fun h => ?_, fun _ => Or.inr ⟨cStr e.what, ?_⟩⟩
    · cases h
    · cases h
    · simp [leaves, show out.err = [] from herr]
  | ok result out =>
    rw [hrun] at herr
    cases result with
    | ok =>
      refine ⟨fun _ => herr, fun h => ?_, fun h => ?_⟩
      · cases h
      · cases h
    | help =>
      refine ⟨fun h => ?_, fun _ => ?_, fun h => ?_⟩
      · cases h
      · simp [leaves, show out.err = [] from herr]
      · cases h
    | error =>
      refine ⟨fun h => ?_, fun h => ?_, fun _ => ?_⟩
      · cases h
      · cases h
      · rcases herr with herr | ⟨what, herr⟩
        · exact Or.inl (by simp [leaves, herr])
        · exact Or.inr ⟨what, by simp [leaves, herr]⟩

/-- A parser in use, and what its calls have returned and written to `err`: one entry for
each call, with the name of the executable. -/
structure Reports (T δ : Type) where
  parser : ArgParser T δ
  log : List (StdString × ParseResult × StdString)

/-- One call, whatever `getopt_long` does. -/
def reportCall (r : Reports T δ) (call : StdString × Getopt) : Option (Reports T δ) :=
  let out := r.parser.parse call.1 call.2
  some ⟨out.2.parser, r.log ++ [(call.1, out.1, out.2.err)]⟩

theorem reportCall_log {calls : List (StdString × Getopt)} {r r' : Reports T δ}
    (hrun : run reportCall r calls = some r') :
    r'.log.map Prod.fst = r.log.map Prod.fst ++ calls.map Prod.fst := by
  induction calls generalizing r with
  | nil =>
    cases hrun
    rw [List.map_nil, List.append_nil]
  | cons call calls ih =>
    rw [run_cons, reportCall, Option.bind_some] at hrun
    rw [ih hrun, List.map_append, List.map_singleton, List.append_assoc, List.map_cons,
      List.singleton_append]

/-- **What calls report.** Over any number of calls of `parse`, whatever `getopt_long`
returns and wherever an `InvalidArgument` is thrown in them: the tables and the usage stay
those of the constructor, a call that returns `Ok` has written nothing, one that returns
`Help` the usage, and one that returns `Error` a message or none, and then the usage. Any
other exception would end the process, as `parse` is `noexcept`. -/
theorem parse_reports (self : ArgParser T δ) (calls : List (StdString × Getopt)) :
    ∃ r, run reportCall ⟨self, []⟩ calls = some r ∧
      SameTexts r.parser self ∧ (∀ executable, r.parser.usage executable = self.usage executable) ∧
      r.log.map Prod.fst = calls.map Prod.fst ∧
      ∀ e ∈ r.log, Reported (self.usage e.1) e.2.1 e.2.2 := by
  obtain ⟨r, hrun⟩ : ∃ r, run reportCall ⟨self, []⟩ calls = some r := ⟨_, run_total _ _ _⟩
  have hsame : SameTexts r.parser self ∧ ∀ e ∈ r.log, Reported (self.usage e.1) e.2.1 e.2.2 := by
    refine run_invariant'
      (I := fun r => SameTexts r.parser self ∧ ∀ e ∈ r.log, Reported (self.usage e.1) e.2.1 e.2.2)
      (fun r call r' hI hr' => ?_) ⟨⟨rfl, rfl, rfl, rfl, rfl, rfl⟩, nofun⟩ hrun
    cases hr'
    refine ⟨(parse_sameTexts r.parser call.1 call.2).trans hI.1, ?_⟩
    rw [List.forall_mem_append, List.forall_mem_singleton, ← hI.1.usage]
    exact ⟨hI.2, parse_reported r.parser call.1 call.2⟩
  exact ⟨r, hrun, hsame.1, hsame.1.usage, by simpa using reportCall_log hrun, hsame.2⟩

/-! ### The complete account of one call -/

/-- The holder's name as its `digest` knows it: the elements of multi-value holders have
none. -/
def Value.shownName : Value T → StdString
  | .single _ v => v.base.name
  | .multi _ _ | .limited _ _ _ => []

/-- What the exception says about an argument that does not convert. -/
def notConverted (v : Value T) (argument : StdString) : StdString :=
  str "could not convert value '" ++ argument ++ str "' of " ++ v.shownName

theorem singleDigest_notConverted {type : ValueType T} {v : SingleValue T} {argument : StdString}
    (hdig : v.digested = false) (ht : v.t = type.init)
    (hconv : ¬(type.extract argument type.init).2 = true) :
    ∃ v', v.digest type argument = .error
      ⟨str "could not convert value '" ++ argument ++ str "' of " ++ v.base.name⟩ v' := by
  simp only [SingleValue.digest, SingleValue.canDigest, assertCanDigest, hdig, Bool.not_false,
    if_true, ht]
  rw [← Prod.mk.eta (p := type.extract argument type.init), Bool.eq_false_of_not_eq_true hconv]
  exact ⟨_, rfl⟩

theorem Value.digest_notConverted {v : Value T} {argument : StdString} (hwait : v.Waiting)
    (hcan : v.canDigest = true) (hconv : ¬v.Converts argument) :
    v.digest argument = .error ⟨notConverted v argument⟩ (v.take argument) := by
  suffices h : ∃ v', v.digest argument = .error ⟨notConverted v argument⟩ v' by
    obtain ⟨v', h⟩ := h
    rw [Value.take, h, leaves]
  cases v with
  | single type w =>
    have hdig : w.digested = false := by simpa [canDigest, SingleValue.canDigest] using hcan
    obtain ⟨w', h⟩ := singleDigest_notConverted hdig (hwait hdig) hconv
    exact ⟨_, by rw [digest, h]; rfl⟩
  | multi type w =>
    obtain ⟨w', h⟩ := singleDigest_notConverted (v := SingleValue.create type [] []) rfl rfl hconv
    exact ⟨_, by rw [digest, MultiValueBase.digest, h]; rfl⟩
  | limited N type w =>
    have hlt : w.size < N := by simpa [canDigest] using hcan
    obtain ⟨w', h⟩ := singleDigest_notConverted (v := SingleValue.create type [] []) rfl rfl hconv
    exact ⟨_, by
      rw [digest, assertCanDigest, decide_eq_true hlt, if_pos rfl, MultiValueBase.digest, h]; rfl⟩

/-- The first argument of its share that a holder cannot convert. -/
def Value.refuses (v : Value T) (share : List StdString) : Option StdString :=
  share.find? fun a => ¬v.Converts a

/-- The arguments of its share that a holder digests: up to the first that it cannot
convert, and this one too. -/
def Value.tries (v : Value T) (share : List StdString) : List StdString :=
  share.takeWhile (fun a => v.Converts a) ++ (v.refuses share).toList

section Share

variable {v : Value T} {a : StdString} {share : List StdString}

theorem Value.refuses_cons (h : v.Converts a) : v.refuses (a :: share) = v.refuses share :=
  List.find?_cons_of_neg (by simp [h])

theorem Value.refuses_head (h : ¬v.Converts a) : v.refuses (a :: share) = some a :=
  List.find?_cons_of_pos (by simp [h])

theorem Value.tries_cons (h : v.Converts a) : v.tries (a :: share) = a :: v.tries share := by
  rw [tries, refuses_cons h, List.takeWhile_cons_of_pos (by simpa using h), List.cons_append, tries]

theorem Value.tries_head (h : ¬v.Converts a) : v.tries (a :: share) = [a] := by
  rw [tries, refuses_head h, List.takeWhile_cons_of_neg (by simpa using h)]
  rfl

theorem Value.refuses_eq_none : v.refuses share = none ↔ ∀ a ∈ share, v.Converts a := by
  simp [refuses]

theorem Value.tries_eq_self (h : ∀ a ∈ share, v.Converts a) : v.tries share = share := by
  rw [tries, refuses_eq_none.mpr h,
    List.takeWhile_eq_self_iff.mpr fun a ha => by simpa using h a ha]
  exact List.append_nil share

end Share

theorem Value.take_shownName (v : Value T) (argument : StdString) :
    (v.take argument).shownName = v.shownName := by
  have hbase := v.take_base argument
  cases v with
  | single type w =>
    rw [Value.digest] at hbase
    rw [Value.take, Value.digest]
    cases hrun : w.digest type argument <;> rw [hrun] at hbase <;>
      exact congrArg BaseValue.name hbase
  | multi type w =>
    rw [Value.take, Value.digest]
    cases w.digest type argument <;> rfl
  | limited N type w =>
    rw [Value.take, Value.digest]
    cases assertCanDigest (w.size < N) argument with
    | error e => rfl
    | ok u => cases w.digest type argument <;> rfl

/-- What a holder can convert, and so what it refuses, does not change. -/
theorem Value.refuses_congr {v w : Value T} (h : ∀ a, v.Converts a ↔ w.Converts a) :
    v.refuses = w.refuses ∧ v.tries = w.tries := by
  have hconv : (fun a => decide (v.Converts a)) = fun a => decide (w.Converts a) :=
    funext fun a => decide_eq_decide.mpr (h a)
  have hrefuses : v.refuses = w.refuses := by
    funext share
    simp only [refuses, h]
  refine ⟨hrefuses, funext fun share => ?_⟩
  rw [tries, tries, hrefuses, hconv]

/-- A holder on its share: it throws at the first argument that it cannot convert. -/
theorem digestWhile_refuses {v : Value T} {args : List StdString} {a : StdString}
    (hwait : v.Waiting)
    (hrefuses : v.refuses (args.take (Greedy.room v.left args.length)) = some a) :
    ∃ rest, digestWhile v args = .error ⟨notConverted v a⟩
      (v.takes (v.tries (args.take (Greedy.room v.left args.length))), rest) := by
  induction args generalizing v with
  | nil => simp [Value.refuses] at hrefuses
  | cons b args ih =>
    rw [digestWhile]
    by_cases hcan : v.canDigest = true
    · rw [if_pos hcan]
      by_cases hhead : v.Converts b
      · -- the holder takes this one, and refuses one of the rest
        obtain ⟨v', hdigest, htakes⟩ := Value.digest_ok hwait hcan hhead
        have hv' : v.take b = v' := by rw [Value.take, hdigest, leaves]
        obtain ⟨hsame, htries⟩ := Value.refuses_congr htakes.converts
        have hname : v'.shownName = v.shownName := by rw [← hv', Value.take_shownName]
        rw [htakes.left, List.length_cons, Greedy.room_add_one, List.take_succ_cons] at hrefuses ⊢
        rw [Value.refuses_cons hhead, ← hsame] at hrefuses
        obtain ⟨rest, hrun⟩ := ih htakes.waiting hrefuses
        refine ⟨rest, ?_⟩
        rw [hdigest, Value.tries_cons hhead, Value.takes, List.foldl_cons, hv', ← htries,
          notConverted, ← hname]
        exact hrun
      · obtain ⟨c, hc⟩ := le_iff_exists_add'.mp (v.canDigest_iff.mp hcan)
        rw [hc, List.length_cons, Greedy.room_add_one, List.take_succ_cons] at hrefuses ⊢
        rw [Value.refuses_head hhead, Option.some.injEq] at hrefuses
        subst hrefuses
        rw [Value.tries_head hhead, Value.digest_notConverted hwait hcan hhead]
        exact ⟨_, rfl⟩
    · rw [Value.left_eq_zero hcan, Greedy.room_zero] at hrefuses
      simp [Value.refuses] at hrefuses

/-- The holders with their shares, by the room that is left in them. -/
def shares (values : List (Value T)) (args : List StdString) : List (Value T × List StdString) :=
  values.zip (Greedy.split (values.map Value.left) args)

/-- The first argument that does not convert, with the holder that it falls to. -/
def blame : List (Value T × List StdString) → Option (Value T × StdString)
  | [] => none
  | (v, share) :: rest =>
    match v.refuses share with
    | some a => some (v, a)
    | none => blame rest

/-- The holders after that: those behind the one that throws are not reached. -/
def attempted : List (Value T × List StdString) → List (Value T)
  | [] => []
  | (v, share) :: rest =>
    v.takes (v.tries share) ::
      match v.refuses share with
      | some _ => rest.map Prod.fst
      | none => attempted rest

theorem accumulateTuple_report {values : List (Value T)} (hwait : ∀ v ∈ values, v.Waiting)
    (args : List StdString) (I : ℕ) (b : Bool) :
    match blame (shares values args) with
    | some (v, a) => ∃ rest, accumulateTuple (· && ·) parseValues I b values args
        = .error ⟨notConverted v a⟩ (attempted (shares values args), rest)
    | none => ∃ served, accumulateTuple (· && ·) parseValues I b values args
        = .ok served (attempted (shares values args),
          Greedy.leftover (values.map Value.left) args) ∧
      (served = true ↔ b = true ∧ Greedy.Served (values.map Value.left) args) := by
  induction values generalizing args I b with
  | nil => exact ⟨b, rfl, by simp [Greedy.Served]⟩
  | cons v values ih =>
    have hv := hwait v List.mem_cons_self
    have hih := ih (fun w hw => hwait w (List.mem_cons_of_mem v hw))
      (args.drop (Greedy.room v.left args.length)) (I + 1) (b && !args.isEmpty)
    have hshares : shares (v :: values) args
        = (v, args.take (Greedy.room v.left args.length)) ::
          shares values (args.drop (Greedy.room v.left args.length)) := rfl
    rw [hshares, blame, attempted]
    cases hrefuses : v.refuses (args.take (Greedy.room v.left args.length)) with
    | some a =>
      obtain ⟨rest, hrun⟩ := digestWhile_refuses hv hrefuses
      have hnil : args.isEmpty = false := by
        cases args with
        | nil => simp [Value.refuses] at hrefuses
        | cons b args => rfl
      refine ⟨rest, ?_⟩
      have hfst : (shares values (args.drop (Greedy.room v.left args.length))).map Prod.fst
          = values := List.map_fst_zip (by simp)
      rw [accumulateTuple, parseValues, hnil, hrun, hfst]
      rfl
    | none =>
      have hconv := Value.refuses_eq_none.mp hrefuses
      rw [Value.tries_eq_self hconv, accumulateTuple, parseValues_takes hv hconv]
      dsimp only
      cases hblame : blame (shares values (args.drop (Greedy.room v.left args.length))) with
      | some found =>
        obtain ⟨w, a⟩ := found
        rw [hblame] at hih
        obtain ⟨rest, hruns⟩ := hih
        exact ⟨rest, by rw [hruns]⟩
      | none =>
        rw [hblame] at hih
        obtain ⟨served, hruns, hserved⟩ := hih
        refine ⟨served, by rw [hruns]; rfl, ?_⟩
        rw [hserved, List.map_cons, Greedy.Served]
        simp [and_assoc]

theorem printNames_congr {values values' : List (Value T)}
    (h : values'.map Value.base = values.map Value.base) (n : ℕ) :
    printNames (values'.drop n) = printNames (values.drop n) := by
  have hnames : ∀ l : List (Value T),
      printNames l = (l.map Value.base).flatMap fun base => str " " ++ base.name := by
    intro l
    rw [printNames, List.flatMap_map]
  rw [hnames, hnames, List.map_drop, List.map_drop, h]

/-- The text that lists the arguments no holder has room for. -/
def tooManyText (rest : List StdString) : StdString :=
  errorMsg ++ str "too many arguments" ++ rest.flatMap (fun a => str " '" ++ a ++ str "'")
    ++ str "\n\n"

/-- **The account of one call.** Where the options go through and every holder waits, each
holder in turn digests its share up to the first argument that it cannot convert, and the
first holder that throws is blamed with that argument, in a text that ends at the first
NUL as `what()` does. If none throws, the holders behind
as many as there are arguments are named when the arguments do not reach all holders,
the arguments left over are listed when there are any, and otherwise the call returns
`Ok` and writes nothing. -/
theorem positional_report (self : ArgParser T δ) (executable : StdString) (getopt : Getopt)
    (phase : OptionPhase δ) (hwait : ∀ v ∈ self.values, v.Waiting)
    (hoptions : optionLoop getopt.returns ⟨self.parsers, [], 0⟩ = .ok none phase) :
    let args := getopt.residual phase.calls
    let out := self.parse executable getopt
    let left := self.values.map Value.left
    out.2.parser.values = attempted (shares self.values args) ∧
      match blame (shares self.values args) with
      | some (v, a) => out.1 = .error ∧
          out.2.err = errorMsg ++ cStr (notConverted v a) ++ str "\n\n" ++ self.usage executable
      | none =>
        (¬Greedy.Served left args → out.1 = .error ∧
          out.2.err = missingText (self.values.drop args.length) ++ self.usage executable) ∧
        (Greedy.Served left args → Greedy.leftover left args ≠ [] → out.1 = .error ∧
          out.2.err = tooManyText (Greedy.leftover left args) ++ self.usage executable) ∧
        (Greedy.Served left args → Greedy.leftover left args = [] → out.1 = .ok ∧
          out.2.err = []) := by
  intro args out left
  have husage : out.2.parser.usage executable = self.usage executable :=
    (parse_sameTexts self executable getopt).usage executable
  have hbase : out.2.parser.values.map Value.base = self.values.map Value.base :=
    (parse_sameTexts self executable getopt).values
  have hrun := accumulateTuple_report hwait args 0 true
  have hout : out = self.parse executable getopt := rfl
  rw [ArgParser.parse, ArgParser.doParse, hoptions] at hout
  dsimp only at hout
  rw [positionalPhase] at hout
  rw [← husage]
  cases hblame : blame (shares self.values args) with
  | some found =>
    rw [hblame] at hrun
    obtain ⟨rest, hrun⟩ := hrun
    rw [hrun] at hout
    rw [hout]
    exact ⟨rfl, rfl, rfl⟩
  | none =>
    rw [hblame] at hrun
    obtain ⟨served, hrun, hserved⟩ := hrun
    rw [and_iff_right rfl] at hserved
    rw [hrun] at hout
    cases served with
    | false =>
      have hnot : ¬Greedy.Served left args := fun h => Bool.false_ne_true (hserved.mpr h)
      dsimp only at hout
      rw [Greedy.leftover_of_not_served hnot, List.length_nil, Nat.sub_zero,
        missingParameters_eq] at hout
      have hvalues : out.2.parser.values = attempted (shares self.values args) := by rw [hout]
      rw [hvalues] at hbase
      refine ⟨hvalues, fun _ => ?_, fun h => absurd h hnot, fun h => absurd h hnot⟩
      rw [missingText, ← printNames_congr hbase, hout]
      exact ⟨rfl, rfl⟩
    | true =>
      have hall : Greedy.Served left args := hserved.mp rfl
      cases hrest : Greedy.leftover left args with
      | nil =>
        rw [hrest] at hout
        rw [hout]
        exact ⟨rfl, fun h => absurd hall h, fun _ h => absurd rfl h, fun _ _ => ⟨rfl, rfl⟩⟩
      | cons a rest =>
        rw [hrest] at hout
        rw [hout]
        exact ⟨rfl, fun h => absurd hall h, fun _ _ => ⟨rfl, rfl⟩,
          fun _ h => absurd h (List.cons_ne_nil a rest)⟩

/-- A parser of at most two numbers, then one more. -/
def numberParser : ArgParser Int32 (Value StdString) :=
  { description := str "Add numbers"
    values :=
      [.limited 2 .int (MultiValueBase.create (str "terms") (str "What to add")),
       .single .int (SingleValue.create .int (str "start") (str "What to add it to"))]
    parsers := verboseAndOutput
    footer := []
    longOptions := verboseAndOutput.map OptionParser.longEntry
      ++ [ArgParser.helpOption, ArgParser.terminator]
    shortOptions := str "vo:h" }

/-- `add 1 x 2`: the holder that refuses `x` has two elements then, and the message does not
name it. -/
theorem positional_report_numbers :
    let out := numberParser.parse (str "add") ⟨[], fun _ => [str "1", str "x", str "2"]⟩
    out.1 = .error ∧ out.2.parser.values.map Value.stored = [[1, 0], []] ∧
      out.2.err = errorMsg ++ str "could not convert value 'x' of " ++ str "\n\n"
        ++ numberParser.usage (str "add") := by
  have hwait : ∀ v ∈ numberParser.values, v.Waiting :=
    List.forall_mem_cons.mpr ⟨trivial, List.forall_mem_singleton.mpr fun _ => rfl⟩
  obtain ⟨hvalues, herror, herr⟩ := positional_report numberParser (str "add")
    ⟨[], fun _ => [str "1", str "x", str "2"]⟩ _ hwait rfl
  refine ⟨herror, ?_, herr⟩
  rw [hvalues]
  decide

end Brasa.Argparse
