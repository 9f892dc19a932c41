import Brasa.Argparse.Parse
import Brasa.Lib.Greedy

/-!
# Brasa.Argparse.Positional

**The positional arguments are shared out greedily from left to right**: each
holder takes as many arguments as it has room for, the next holder goes on with
the rest. A command line is accepted exactly when every holder gets an argument,
none is left over, and each argument converts in the holder it falls to.
-/

namespace Brasa.Argparse

open Brasa.Lib

variable {T δ : Type}

/-- The holders with the arguments that fall to each of them. -/
def assignment (values : List (Value T)) (args : List StdString) :
    List (Value T × List StdString) :=
  values.zip (Greedy.split (values.map Value.capacity) args)

/-- Each argument converts in the holder it falls to. -/
def AllConvert (values : List (Value T)) (args : List StdString) : Prop :=
  ∀ share ∈ assignment values args, ∀ argument ∈ share.2, share.1.Converts argument

theorem assignment_cons (v : Value T) (values : List (Value T)) (args : List StdString) :
    assignment (v :: values) args =
      (v, args.take (Greedy.room v.capacity args.length)) ::
        assignment values (args.drop (Greedy.room v.capacity args.length)) := rfl

theorem allConvert_cons {v : Value T} {values : List (Value T)} {args : List StdString} :
    AllConvert (v :: values) args ↔
      (∀ argument ∈ args.take (Greedy.room v.capacity args.length), v.Converts argument) ∧
        AllConvert values (args.drop (Greedy.room v.capacity args.length)) := by
  rw [AllConvert, assignment_cons, List.forall_mem_cons]
  rfl

/-! ### One holder -/

/-- A holder takes as many arguments as it has room for, if they all convert. -/
theorem digestWhile_ok {v : Value T} {args : List StdString} (hwait : v.Waiting)
    (hconv : ∀ argument ∈ args.take (Greedy.room v.left args.length), v.Converts argument) :
    ∃ v', digestWhile v args = .ok () (v', args.drop (Greedy.room v.left args.length)) ∧
      v'.stored = v.stored ++ (args.take (Greedy.room v.left args.length)).map v.convert := by
  induction args generalizing v with
  | nil => exact ⟨v, by simp [digestWhile], by simp⟩
  | cons argument args ih =>
    rw [digestWhile]
    by_cases hcan : v.canDigest = true
    · have hle := v.canDigest_iff.mp hcan
      rw [if_pos hcan]
      -- the holder has room for this argument, so the slice starts with it
      have hhead : v.Converts argument := by
        apply hconv
        rw [← tsub_add_cancel_of_le hle, List.length_cons, Greedy.room_add_one]
        exact List.mem_cons_self
      obtain ⟨v', hdigest, htakes⟩ := Value.digest_ok hwait hcan hhead
      have hroom : Greedy.room v.left (argument :: args).length
          = Greedy.room v'.left args.length + 1 := by
        rw [htakes.left, List.length_cons, Greedy.room_add_one]
      rw [hroom] at hconv ⊢
      obtain ⟨v'', hrest, hstored⟩ := ih htakes.waiting
        fun a ha => (htakes.converts a).mpr (hconv a (List.mem_cons_of_mem argument ha))
      refine ⟨v'', ?_, ?_⟩
      · rw [hdigest]
        exact hrest
      · rw [hstored, htakes.stored, List.take_succ_cons, List.map_cons, List.append_assoc,
          List.singleton_append, funext htakes.convert]
    · rw [if_neg hcan, Value.left_eq_zero hcan]
      exact ⟨v, by simp [Greedy.room], by simp [Greedy.room]⟩

/-- The first argument of its share that does not convert makes a holder throw. -/
theorem digestWhile_error {v : Value T} {args : List StdString} (hwait : v.Waiting)
    (hconv : ¬∀ argument ∈ args.take (Greedy.room v.left args.length), v.Converts argument) :
    ∃ e r, digestWhile v args = .error e r := by
  induction args generalizing v with
  | nil => exact absurd (by simp) hconv
  | cons argument args ih =>
    rw [digestWhile]
    by_cases hcan : v.canDigest = true
    · rw [if_pos hcan]
      -- either this argument does not convert, or one of the rest
      by_cases hhead : v.Converts argument
      · obtain ⟨v', hdigest, htakes⟩ := Value.digest_ok hwait hcan hhead
        rw [hdigest]
        refine ih htakes.waiting fun hall => hconv ?_
        rw [htakes.left, List.length_cons, Greedy.room_add_one, List.take_succ_cons]
        exact List.forall_mem_cons.mpr ⟨hhead, fun a ha => (htakes.converts a).mp (hall a ha)⟩
      · obtain ⟨e, v', hdigest⟩ := Value.digest_error hwait hcan hhead
        rw [hdigest]
        exact ⟨e, _, rfl⟩
    · rw [Value.left_eq_zero hcan] at hconv
      exact absurd (by simp [Greedy.room]) hconv

/-! ### All holders -/

/-- A fresh holder is served when an argument is left for it, and takes its share. -/
theorem parseValues_ok {v : Value T} {args : List StdString} (hfresh : v.Fresh)
    (hconv : ∀ argument ∈ args.take (Greedy.room v.capacity args.length), v.Converts argument)
    (I : ℕ) :
    ∃ v', parseValues I v args
        = .ok (!args.isEmpty) (v', args.drop (Greedy.room v.capacity args.length)) ∧
      v'.stored = (args.take (Greedy.room v.capacity args.length)).map v.convert := by
  rw [parseValues]
  cases args with
  | nil => exact ⟨v, by simp, by simp [hfresh.stored]⟩
  | cons argument args =>
    rw [← hfresh.left] at hconv ⊢
    obtain ⟨v', hrun, hstored⟩ := digestWhile_ok hfresh.waiting hconv
    refine ⟨v', ?_, ?_⟩
    · rw [hrun]
      rfl
    · rw [hstored, hfresh.stored, List.nil_append]

theorem parseValues_error {v : Value T} {args : List StdString} (hfresh : v.Fresh)
    (hconv : ¬∀ argument ∈ args.take (Greedy.room v.capacity args.length), v.Converts argument)
    (I : ℕ) : ∃ e r, parseValues I v args = .error e r := by
  rw [parseValues]
  cases args with
  | nil => exact absurd (by simp) hconv
  | cons argument args =>
    rw [← hfresh.left] at hconv
    obtain ⟨e, r, hrun⟩ := digestWhile_error hfresh.waiting hconv
    rw [hrun]
    exact ⟨e, r, rfl⟩

/-- The pass over fresh holders is the greedy split, as long as every argument
converts. -/
theorem accumulateTuple_ok {values : List (Value T)} {args : List StdString}
    (hfresh : ∀ v ∈ values, v.Fresh) (hconv : AllConvert values args) (I : ℕ) (b : Bool) :
    ∃ served values', accumulateTuple (· && ·) parseValues I b values args
        = .ok served (values', Greedy.leftover (values.map Value.capacity) args) ∧
      (served = true ↔ b = true ∧ Greedy.Served (values.map Value.capacity) args) ∧
      values'.map Value.stored
        = (assignment values args).map fun share => share.2.map share.1.convert := by
  induction values generalizing args I b with
  | nil => exact ⟨b, [], rfl, by simp [Greedy.Served], rfl⟩
  | cons v values ih =>
    obtain ⟨hv, hrest⟩ := allConvert_cons.mp hconv
    obtain ⟨v', hrun, hstored⟩ := parseValues_ok (hfresh v List.mem_cons_self) hv I
    obtain ⟨served, values', hruns, hserved, hall⟩ :=
      ih (fun w hw => hfresh w (List.mem_cons_of_mem v hw)) hrest (I + 1) (b && !args.isEmpty)
    refine ⟨served, v' :: values', ?_, ?_, ?_⟩
    · rw [accumulateTuple, hrun]
      simp only [hruns]
      rfl
    · rw [hserved, List.map_cons, Greedy.Served]
      simp [and_assoc]
    · rw [assignment_cons, List.map_cons, List.map_cons, hall, hstored]

theorem accumulateTuple_error {values : List (Value T)} {args : List StdString}
    (hfresh : ∀ v ∈ values, v.Fresh) (hconv : ¬AllConvert values args) (I : ℕ) (b : Bool) :
    ∃ e r, accumulateTuple (· && ·) parseValues I b values args = .error e r := by
  induction values generalizing args I b with
  | nil => exact absurd nofun hconv
  | cons v values ih =>
    have hv := hfresh v List.mem_cons_self
    rw [accumulateTuple]
    by_cases hhead :
        ∀ argument ∈ args.take (Greedy.room v.capacity args.length), v.Converts argument
    · obtain ⟨v', hrun, -⟩ := parseValues_ok hv hhead I
      obtain ⟨e, r, hruns⟩ := ih (fun w hw => hfresh w (List.mem_cons_of_mem v hw))
        (fun hrest => hconv (allConvert_cons.mpr ⟨hhead, hrest⟩)) (I + 1) (b && !args.isEmpty)
      rw [hrun]
      simp only [hruns]
      exact ⟨e, _, rfl⟩
    · obtain ⟨e, r, hrun⟩ := parseValues_error hv hhead I
      rw [hrun]
      exact ⟨e, _, rfl⟩

/-! ### The grammar -/

/-- The positional arguments the holders accept: none where there is no holder;
otherwise more than the holders before the last have room for, so that the last one
gets an argument too, no more than all holders have room for, and only ones that
convert in the holder they fall to. -/
def Accepts (values : List (Value T)) (args : List StdString) : Prop :=
  values = [] ∧ args = [] ∨
    values ≠ [] ∧ (values.map Value.capacity).dropLast.sum < args.length ∧
      args.length ≤ (values.map Value.capacity).sum ∧ AllConvert values args

/-- What the holders have stored, `values` being the fresh ones: each one its share of
the arguments, converted. Every share starts where the capacities of the earlier
holders end; it fills the holder, or is the rest of the arguments for the last one.
Together the shares are the arguments. -/
structure Stores (values : List (Value T)) (args : List StdString) (values' : List (Value T)) :
    Prop where
  stored : values'.map Value.stored
    = (assignment values args).map fun share => share.2.map share.1.convert
  holders : (assignment values args).map Prod.fst = values
  share : ∀ i v slice, (assignment values args)[i]? = some (v, slice) →
    ∃ offset : ℕ, (offset : ℕ∞) = ((values.take i).map Value.capacity).sum ∧
      (i + 1 < values.length →
        slice = (args.drop offset).take slice.length ∧ (slice.length : ℕ∞) = v.capacity) ∧
      (i + 1 = values.length → slice = args.drop offset)
  flatten : ((assignment values args).map Prod.snd).flatten = args

theorem assignment_fst (values : List (Value T)) (args : List StdString) :
    (assignment values args).map Prod.fst = values :=
  List.map_fst_zip (by simp)

theorem assignment_snd (values : List (Value T)) (args : List StdString) :
    (assignment values args).map Prod.snd = Greedy.split (values.map Value.capacity) args :=
  List.map_snd_zip (by simp)

/-- The arguments suffice for the holders, and the holders for the arguments. -/
theorem accepts_iff {values : List (Value T)} {args : List StdString} :
    Accepts values args ↔
      (Greedy.Served (values.map Value.capacity) args ∧
        Greedy.leftover (values.map Value.capacity) args = []) ∧ AllConvert values args := by
  rw [Accepts, Greedy.served_iff, Greedy.leftover_eq_nil_iff]
  cases values with
  | nil => simp [AllConvert, assignment]
  | cons v values => simp [and_assoc]

/-- The positional phase returns `Ok` on accepted arguments only, and then every
holder has its share. -/
theorem positionalPhase_ok_iff {values : List (Value T)} {args : List StdString}
    (hfresh : ∀ v ∈ values, v.Fresh) :
    (∃ r, positionalPhase values args = .ok .ok r) ↔ Accepts values args := by
  rw [accepts_iff, positionalPhase]
  by_cases hconv : AllConvert values args
  · obtain ⟨served, values', hrun, hserved, -⟩ := accumulateTuple_ok hfresh hconv 0 true
    rw [hrun]
    cases served with
    | false => simpa using fun h _ => absurd (hserved.mpr ⟨rfl, h⟩) Bool.false_ne_true
    | true =>
      cases hrest : Greedy.leftover (values.map Value.capacity) args with
      | nil => simpa [hconv] using (hserved.mp rfl).2
      | cons argument rest => simp
  · obtain ⟨e, r, hrun⟩ := accumulateTuple_error hfresh hconv 0 true
    rw [hrun]
    simp [hconv]

theorem accepts_share {values : List (Value T)} {args : List StdString}
    (haccepts : Accepts values args) {i : ℕ} {v : Value T} {slice : List StdString}
    (h : (assignment values args)[i]? = some (v, slice)) :
    ∃ offset : ℕ, (offset : ℕ∞) = ((values.take i).map Value.capacity).sum ∧
      (i + 1 < values.length →
        slice = (args.drop offset).take slice.length ∧ (slice.length : ℕ∞) = v.capacity) ∧
      (i + 1 = values.length → slice = args.drop offset) := by
  obtain ⟨hvalue, hslice⟩ := List.getElem?_zip_eq_some.mp h
  rcases haccepts with ⟨rfl, -⟩ | ⟨-, hlt, hle, -⟩
  · cases hvalue
  · obtain ⟨offset, hoffset, hinner, hlast⟩ := Greedy.split_exact hlt hle hslice
    rw [List.length_map] at hinner hlast
    refine ⟨offset, by rw [hoffset, List.map_take], fun hi => ?_, hlast⟩
    obtain ⟨htake, hcapacity⟩ := hinner hi
    rw [List.getElem?_map, hvalue, Option.map_some, Option.some.injEq] at hcapacity
    exact ⟨htake, hcapacity.symm⟩

theorem positionalPhase_stores {values values' : List (Value T)} {args : List StdString}
    {err : StdString} (hfresh : ∀ v ∈ values, v.Fresh)
    (h : positionalPhase values args = .ok .ok (values', err)) : Stores values args values' := by
  have haccepts : Accepts values args := (positionalPhase_ok_iff hfresh).mp ⟨_, h⟩
  obtain ⟨⟨-, hleft⟩, hconv⟩ := accepts_iff.mp haccepts
  obtain ⟨served, values'', hrun, -, hstored⟩ := accumulateTuple_ok hfresh hconv 0 true
  have hvalues : values'' = values' := by
    rw [positionalPhase, hrun, hleft] at h
    cases served with
    | false => cases h
    | true => cases h; rfl
  refine ⟨hvalues ▸ hstored, assignment_fst values args,
    fun i v slice => accepts_share haccepts, ?_⟩
  rw [assignment_snd, ← List.append_nil (List.flatten _), ← hleft, Greedy.split_flatten_append]

/-- **`parse` accepts exactly the positional arguments that share out greedily over
the fresh holders, and stores them so; it returns an error for all others.** -/
theorem positional_grammar (self : ArgParser T δ) (executable : StdString) (getopt : Getopt)
    (phase : OptionPhase δ) (hfresh : ∀ v ∈ self.values, v.Fresh)
    (hoptions : optionLoop getopt.returns ⟨self.parsers, [], 0⟩ = .ok none phase) :
    let args := getopt.residual phase.calls
    let out := self.parse executable getopt
    (out.1 = .ok ↔ Accepts self.values args) ∧
      (¬Accepts self.values args → out.1 = .error) ∧
      (out.1 = .ok → Stores self.values args out.2.parser.values) := by
  intro args out
  obtain ⟨hresult, hvalues⟩ := parse_positional executable getopt hoptions
  have hok : out.1 = .ok ↔ ∃ r, positionalPhase self.values args = .ok .ok r := by
    rw [hresult, positionalResult]
    cases positionalPhase self.values args with
    | error e r => simp
    | ok result r => simp
  refine ⟨hok.trans (positionalPhase_ok_iff hfresh), fun hno => ?_, fun h => ?_⟩
  · rw [hresult, positionalResult]
    cases hrun : positionalPhase self.values args with
    | error e r => rfl
    | ok result r =>
      cases result with
      | ok => exact absurd ((positionalPhase_ok_iff hfresh).mp ⟨r, hrun⟩) hno
      | error => rfl
      | help => exact absurd hrun (positionalPhase_ne_help _ _ r)
  · obtain ⟨⟨values', err⟩, hrun⟩ := hok.mp h
    rw [hvalues, positionalValues, hrun]
    exact positionalPhase_stores hfresh hrun

/-- A parser of one argument, then at most two, then any number of them. -/
def copyParser : ArgParser StdString (Value StdString) :=
  { description := str "Copy files"
    values :=
      [.single .string (SingleValue.create .string (str "target") (str "Where to copy to")),
       .limited 2 .string (MultiValueBase.create (str "modes") (str "How to copy")),
       .multi .string (MultiValueBase.create (str "files") (str "What to copy"))]
    parsers := verboseAndOutput
    footer := []
    longOptions := verboseAndOutput.map OptionParser.longEntry
      ++ [ArgParser.helpOption, ArgParser.terminator]
    shortOptions := str "vo:h" }

/-- `copy -v to fast safe a b` -/
def copyCommand : Getopt :=
  { returns := [⟨(chr 'v').toInt32, none⟩]
    residual := fun _ => [str "to", str "fast", str "safe", str "a", str "b"] }

theorem positional_grammar_copy :
    Accepts copyParser.values (copyCommand.residual 2) ∧
      Stores copyParser.values (copyCommand.residual 2)
        (copyParser.parse (str "copy") copyCommand).2.parser.values := by
  have hfresh : ∀ v ∈ copyParser.values, v.Fresh :=
    List.forall_mem_cons.mpr ⟨.single _ _ _, List.forall_mem_cons.mpr ⟨.limited _ _ _ _,
      List.forall_mem_cons.mpr ⟨.multi _ _ _, nofun⟩⟩⟩
  obtain ⟨haccepts, -, hstores⟩ :=
    positional_grammar copyParser (str "copy") copyCommand _ hfresh rfl
  exact ⟨haccepts.mp rfl, hstores rfl⟩

end Brasa.Argparse
