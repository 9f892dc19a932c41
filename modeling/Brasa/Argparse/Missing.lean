import Brasa.Argparse.Positional

/-!
# Brasa.Argparse.Missing

**The names printed after "missing arguments for"** are meant to be those of the
holders that got no argument. `do_parse` finds them by their index in the tuple,
which it compares with the number of arguments consumed: as if no holder had taken
more than one.
-/

namespace Brasa.Argparse

open Brasa.Lib

variable {T δ α : Type}

/-- The positional phase fails for lack of arguments: no digest throws, and some
holder finds no argument left. -/
def Lacks (values : List (Value T)) (args : List StdString) : Prop :=
  ∃ r, accumulateTuple (· && ·) parseValues 0 true values args = .ok false r

/-- The names of holders, as they are printed. -/
def printNames (values : List (Value T)) : StdString :=
  values.flatMap fun v => str " " ++ v.base.name

/-- The holders that have received no argument. -/
def unserved (values : List (Value T)) : List (Value T) :=
  values.filter fun v => v.stored.isEmpty

/-- The text that asks for arguments for these holders. -/
def missingText (values : List (Value T)) : StdString :=
  errorMsg ++ str "missing arguments for" ++ printNames values ++ str "\n\n"

/-! ### Names do not change -/

theorem digestWhile_base {v v' : Value T} {args rest : List StdString}
    (h : digestWhile v args = .ok () (v', rest)) : v'.base = v.base := by
  induction args generalizing v with
  | nil =>
    cases h
    rfl
  | cons argument args ih =>
    rw [digestWhile] at h
    split at h
    · cases hdigest : v.digest argument with
      | error e w =>
        rw [hdigest] at h
        cases h
      | ok u w =>
        rw [hdigest] at h
        rw [ih h, Value.digest_base hdigest]
    · cases h
      rfl

theorem parseValues_base {I : ℕ} {v v' : Value T} {args rest : List StdString} {b : Bool}
    (h : parseValues I v args = .ok b (v', rest)) : v'.base = v.base := by
  rw [parseValues] at h
  split at h
  · cases h
    rfl
  · split at h <;> cases h
    exact digestWhile_base ‹_›

/-! ### The names printed -/

/-- A holder is named if its index is at least the number of arguments consumed. -/
theorem missingParameters_eq (n I : ℕ) (text : StdString) (values : List (Value T)) :
    accumulateConst (· ++ ·) (buildMissingParameters n) I text values
      = text ++ printNames (values.drop (n - I)) := by
  induction values generalizing I text with
  | nil => simp [accumulateConst, printNames]
  | cons v values ih =>
    rw [accumulateConst, ih, buildMissingParameters]
    by_cases hle : n ≤ I
    · rw [if_pos hle, Nat.sub_eq_zero_of_le hle, Nat.sub_eq_zero_of_le (Nat.le_succ_of_le hle)]
      simp [printNames]
    · have hsub : n - I = n - (I + 1) + 1 := by omega
      rw [if_neg hle, hsub, List.drop_succ_cons, List.append_nil]

/-- No holder prints nothing, so the text tells where the names begin. -/
theorem printNames_drop_inj {values : List (Value T)} {m n : ℕ} (hm : m < values.length)
    (hle : m ≤ n) : printNames (values.drop n) = printNames (values.drop m) ↔ n = m := by
  refine ⟨fun h => ?_, fun h => h ▸ rfl⟩
  by_contra hne
  -- the holder of index `m` is printed in front of the later names
  have hsplit : values.drop m = (values.drop m).take (n - m) ++ values.drop n := by
    have happend := List.take_append_drop (n - m) (values.drop m)
    rw [List.drop_drop, Nat.add_sub_cancel' hle] at happend
    exact happend.symm
  have hfront : printNames ((values.drop m).take (n - m)) = [] := by
    rw [hsplit, printNames, printNames, List.flatMap_append] at h
    exact List.self_eq_append_left.mp h
  have hfirst : values[m] ∈ (values.drop m).take (n - m) := by
    rw [List.drop_eq_getElem_cons hm, ← Nat.sub_add_cancel (show 1 ≤ n - m by omega)]
    exact List.mem_cons_self
  exact List.cons_ne_nil _ _ (List.flatMap_eq_nil_iff.mp hfront _ hfirst)

/-! ### The holders without an argument -/

theorem filter_of_map_replicate {p : α → Bool} {xs : List α} {m n : ℕ}
    (h : xs.map p = List.replicate m false ++ List.replicate n true) :
    xs.filter p = xs.drop m := by
  induction m generalizing xs with
  | zero =>
    refine List.filter_eq_self.mpr fun x hx => ?_
    have hmem : p x ∈ List.replicate n true := by
      rw [← List.nil_append (List.replicate n true)]
      exact h ▸ List.mem_map_of_mem hx
    exact (List.mem_replicate.mp hmem).2
  | succ m ih =>
    cases xs with
    | nil => rfl
    | cons x xs =>
      rw [List.map_cons, List.replicate_succ, List.cons_append, List.cons.injEq] at h
      rw [List.filter_cons_of_neg (by simp [h.1]), List.drop_succ_cons, ih h.2]

/-- The holders without an argument are those behind the ones that are reached. -/
theorem unserved_eq {values values' : List (Value T)} {args : List StdString}
    (hcapacity : ∀ v ∈ values, 1 ≤ v.capacity)
    (hstored : values'.map Value.stored
      = (assignment values args).map fun share => share.2.map share.1.convert) :
    unserved values' = values'.drop (Greedy.reached (values.map Value.capacity) args) := by
  have hempty : values'.map (fun v => v.stored.isEmpty)
      = (Greedy.split (values.map Value.capacity) args).map List.isEmpty := by
    rw [← assignment_snd, List.map_map]
    have h := congrArg (List.map List.isEmpty) hstored
    rw [List.map_map, List.map_map] at h
    rw [show (fun v : Value T => v.stored.isEmpty) = List.isEmpty ∘ Value.stored from rfl, h]
    exact List.map_congr_left fun share _ => List.isEmpty_map
  rw [Greedy.split_map_isEmpty (List.forall_mem_map.mpr hcapacity)] at hempty
  exact filter_of_map_replicate hempty

/-! ### The diagnosis -/

/-- Arguments are lacking when they all convert, and do not suffice for the holders. -/
theorem lacks_iff {values : List (Value T)} {args : List StdString}
    (hfresh : ∀ v ∈ values, v.Fresh) :
    Lacks values args ↔
      AllConvert values args ∧ ¬Greedy.Served (values.map Value.capacity) args := by
  rw [Lacks]
  by_cases hconv : AllConvert values args
  · obtain ⟨served, values', hrun, hserved, -⟩ := accumulateTuple_ok hfresh hconv 0 true
    rw [hrun]
    cases served with
    | false => simpa [hconv] using hserved
    | true => simpa [hconv] using hserved
  · obtain ⟨e, r, hrun⟩ := accumulateTuple_error hfresh hconv 0 true
    rw [hrun]
    simp [hconv]

/-- What the positional phase leaves behind when arguments are lacking. -/
theorem positionalPhase_lacks {values : List (Value T)} {args : List StdString}
    (hfresh : ∀ v ∈ values, v.Fresh) (hcapacity : ∀ v ∈ values, 1 ≤ v.capacity)
    (hlacks : Lacks values args) :
    ∃ values', positionalPhase values args
        = .ok .error (values', missingText (values'.drop args.length)) ∧
      values'.map Value.base = values.map Value.base ∧
      unserved values' = values'.drop (Greedy.reached (values.map Value.capacity) args) := by
  obtain ⟨hconv, hnot⟩ := (lacks_iff hfresh).mp hlacks
  obtain ⟨served, values', hrun, hserved, hstored⟩ := accumulateTuple_ok hfresh hconv 0 true
  obtain rfl : served = false :=
    Bool.eq_false_of_not_eq_true fun h => hnot (hserved.mp h).2
  rw [Greedy.leftover_of_not_served hnot] at hrun
  refine ⟨values', ?_, accumulateTuple_map ?_ hrun, unserved_eq hcapacity hstored⟩
  · rw [positionalPhase, hrun]
    dsimp only
    rw [missingParameters_eq]
    rfl
  · exact fun I v args b v' rest => parseValues_base

/-- An error of the positional phase ends `parse` with its text and the usage. -/
theorem parse_positional_error {self : ArgParser T δ} {phase : OptionPhase δ}
    (executable : StdString) (getopt : Getopt) {values' : List (Value T)} {err : StdString}
    (hoptions : optionLoop getopt.returns ⟨self.parsers, [], 0⟩ = .ok none phase)
    (h : positionalPhase self.values (getopt.residual phase.calls) = .ok .error (values', err)) :
    let out := self.parse executable getopt
    out.1 = .error ∧ out.2.parser.values = values' ∧
      out.2.err = err ++ out.2.parser.usage executable := by
  dsimp only
  rw [ArgParser.parse, ArgParser.doParse, hoptions]
  dsimp only
  rw [h]
  exact ⟨rfl, rfl, rfl⟩

/-- **Where arguments are lacking, `parse` asks for those of the holders that got none
exactly if every holder before the one that gets the last argument takes one argument
only.** -/
theorem missing_names_iff (self : ArgParser T δ) (executable : StdString) (getopt : Getopt)
    (phase : OptionPhase δ) (hfresh : ∀ v ∈ self.values, v.Fresh)
    (hcapacity : ∀ v ∈ self.values, 1 ≤ v.capacity)
    (hoptions : optionLoop getopt.returns ⟨self.parsers, [], 0⟩ = .ok none phase)
    (hlacks : Lacks self.values (getopt.residual phase.calls)) :
    let args := getopt.residual phase.calls
    let out := self.parse executable getopt
    out.1 = .error ∧ out.2.parser.values.map Value.base = self.values.map Value.base ∧
      (out.2.err = missingText (unserved out.2.parser.values) ++ out.2.parser.usage executable ↔
        ∀ v ∈ self.values.take (args.length - 1), v.capacity = 1) := by
  intro args out
  obtain ⟨values', hphase, hbase, hunserved⟩ := positionalPhase_lacks hfresh hcapacity hlacks
  obtain ⟨herror, hvalues, herr⟩ := parse_positional_error executable getopt hoptions hphase
  have hnot := ((lacks_iff hfresh).mp hlacks).2
  have hpos : ∀ c ∈ self.values.map Value.capacity, 1 ≤ c := List.forall_mem_map.mpr hcapacity
  refine ⟨herror, by rw [hvalues, hbase], ?_⟩
  have hlength : values'.length = self.values.length := by
    rw [← List.length_map Value.base, hbase, List.length_map]
  have hreached : Greedy.reached (self.values.map Value.capacity) args < values'.length := by
    rw [hlength, ← List.length_map Value.capacity]
    exact Greedy.reached_lt_length hnot
  rw [herr, hvalues, hunserved, List.append_cancel_right_eq, missingText, missingText,
    List.append_cancel_right_eq, List.append_cancel_left_eq,
    printNames_drop_inj hreached (Greedy.reached_le_length hpos), eq_comm,
    Greedy.reached_eq_length_iff hpos hnot, ← List.map_take, List.forall_mem_map]

/-- `copy to` -/
def shortCommand : Getopt :=
  { returns := []
    residual := fun _ => [str "to"] }

theorem missing_names_copy :
    (copyParser.parse (str "copy") shortCommand).2.err
      = missingText (unserved (copyParser.parse (str "copy") shortCommand).2.parser.values)
        ++ (copyParser.parse (str "copy") shortCommand).2.parser.usage (str "copy") := by
  have hfresh : ∀ v ∈ copyParser.values, v.Fresh :=
    List.forall_mem_cons.mpr ⟨.single _ _ _, List.forall_mem_cons.mpr ⟨.limited _ _ _ _,
      List.forall_mem_cons.mpr ⟨.multi _ _ _, nofun⟩⟩⟩
  have hcapacity : ∀ v ∈ copyParser.values, 1 ≤ v.capacity :=
    List.forall_mem_cons.mpr ⟨le_rfl, List.forall_mem_cons.mpr ⟨Nat.one_le_ofNat,
      List.forall_mem_cons.mpr ⟨le_top, nofun⟩⟩⟩
  obtain ⟨-, -, hiff⟩ :=
    missing_names_iff copyParser (str "copy") shortCommand _ hfresh hcapacity rfl ⟨_, rfl⟩
  exact hiff.mpr nofun

/-- A parser of at most two arguments, then one. -/
def modesParser : ArgParser StdString (Value StdString) :=
  { copyParser with
    values :=
      [.limited 2 .string (MultiValueBase.create (str "modes") (str "How to copy")),
       .single .string (SingleValue.create .string (str "target") (str "Where to copy to"))] }

/-- `copy fast safe` -/
def modesCommand : Getopt :=
  { returns := []
    residual := fun _ => [str "fast", str "safe"] }

/-- Both arguments go to `modes`, and the text does not name `target`. -/
theorem missing_names_modes :
    (∀ v ∈ modesParser.values, v.Fresh ∧ 1 ≤ v.capacity) ∧
      Lacks modesParser.values (modesCommand.residual 1) ∧
      (modesParser.parse (str "copy") modesCommand).2.err
        ≠ missingText (unserved (modesParser.parse (str "copy") modesCommand).2.parser.values)
          ++ (modesParser.parse (str "copy") modesCommand).2.parser.usage (str "copy") := by
  refine ⟨?_, ⟨_, rfl⟩, fun h => ?_⟩
  · exact List.forall_mem_cons.mpr ⟨⟨.limited _ _ _ _, Nat.one_le_ofNat⟩,
      List.forall_mem_cons.mpr ⟨⟨.single _ _ _, le_rfl⟩, nofun⟩⟩
  have htext : missingText ([] : List (Value StdString))
      = missingText (unserved (modesParser.parse (str "copy") modesCommand).2.parser.values) :=
    List.append_cancel_right h
  exact absurd htext (by decide)

end Brasa.Argparse
