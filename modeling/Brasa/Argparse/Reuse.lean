import Brasa.Argparse.Dispatch
import Brasa.Argparse.Positional
import Brasa.Lib.Run

/-!
# Brasa.Argparse.Reuse

A parser that is **used for one command line after the other**, with `optind` set back
before each of them. Nothing resets its option parsers and holders, so that, as long as
nothing throws, it stands as if the options and the arguments that got to them so far had
been on one command line (`reuse_combined`). These are the options in front of the first
help or unknown option of each line, and the arguments of the lines that have no such
option. With positional holders a call is accepted if that one command line would be, and
if at least one of its arguments is the call's own; without them, if it has no argument.
-/

namespace Brasa.Argparse

open Brasa.Lib

variable {T δ : Type}

/-! ### Holders that are filled step by step -/

/-- A holder after a call of `digest`, whether it returned or threw. -/
def Value.take (v : Value T) (argument : StdString) : Value T := leaves (v.digest argument)

/-- A holder after calls of `digest` with these arguments. -/
def Value.takes (v : Value T) (arguments : List StdString) : Value T := arguments.foldl Value.take v

theorem Value.takes_append (v : Value T) (as bs : List StdString) :
    v.takes (as ++ bs) = (v.takes as).takes bs := List.foldl_append

/-- What a holder is like after arguments that convert and that it has room for. -/
structure Value.Took (v : Value T) (arguments : List StdString) : Prop where
  waiting : (v.takes arguments).Waiting
  type : (v.takes arguments).type = v.type
  left : v.left = (v.takes arguments).left + arguments.length

theorem Value.took {v : Value T} {arguments : List StdString} (hwait : v.Waiting)
    (hroom : (arguments.length : ℕ∞) ≤ v.left) (hconv : ∀ a ∈ arguments, v.Converts a) :
    v.Took arguments := by
  induction arguments generalizing v with
  | nil => exact ⟨hwait, rfl, (add_zero v.left).symm⟩
  | cons a arguments ih =>
    have hcan : v.canDigest = true :=
      v.canDigest_iff.mpr (le_trans (by rw [List.length_cons, Nat.cast_succ]; simp) hroom)
    obtain ⟨v', hdigest, htakes⟩ := Value.digest_ok hwait hcan (hconv a List.mem_cons_self)
    have hv' : v.take a = v' := by rw [Value.take, hdigest, leaves]
    have hroom' : (arguments.length : ℕ∞) ≤ v'.left := by
      rw [htakes.left, List.length_cons, Nat.cast_succ] at hroom
      exact (ENat.add_le_add_iff_right ENat.one_ne_top).mp hroom
    obtain ⟨hwait', htype, hleft⟩ := ih htakes.waiting hroom'
      fun b hb => (htakes.converts b).mpr (hconv b (List.mem_cons_of_mem a hb))
    rw [← hv'] at hwait' htype hleft htakes
    refine ⟨hwait', htype.trans htakes.type, ?_⟩
    rw [htakes.left, hleft, List.length_cons, Nat.cast_succ, add_assoc]
    rfl

/-- A holder takes as many arguments as it has room for, if they all convert. -/
theorem digestWhile_takes {v : Value T} {args : List StdString} (hwait : v.Waiting)
    (hconv : ∀ a ∈ args.take (Greedy.room v.left args.length), v.Converts a) :
    digestWhile v args = .ok ()
      (v.takes (args.take (Greedy.room v.left args.length)),
        args.drop (Greedy.room v.left args.length)) := by
  induction args generalizing v with
  | nil => simp [digestWhile, Value.takes]
  | cons a args ih =>
    rw [digestWhile]
    by_cases hcan : v.canDigest = true
    · have hle := v.canDigest_iff.mp hcan
      rw [if_pos hcan]
      have hhead : v.Converts a := by
        apply hconv
        rw [← tsub_add_cancel_of_le hle, List.length_cons, Greedy.room_add_one]
        exact List.mem_cons_self
      obtain ⟨v', hdigest, htakes⟩ := Value.digest_ok hwait hcan hhead
      have hv' : v.take a = v' := by rw [Value.take, hdigest, leaves]
      rw [htakes.left, List.length_cons, Greedy.room_add_one, List.take_succ_cons] at hconv
      rw [hdigest, htakes.left, List.length_cons, Greedy.room_add_one, List.take_succ_cons,
        List.drop_succ_cons, Value.takes, List.foldl_cons, hv']
      exact ih htakes.waiting
        fun b hb => (htakes.converts b).mpr (hconv b (List.mem_cons_of_mem a hb))
    · rw [if_neg hcan, Value.left_eq_zero hcan, Greedy.room_zero]
      rfl

theorem parseValues_takes {v : Value T} {args : List StdString} (hwait : v.Waiting)
    (hconv : ∀ a ∈ args.take (Greedy.room v.left args.length), v.Converts a) (I : ℕ) :
    parseValues I v args = .ok (!args.isEmpty)
      (v.takes (args.take (Greedy.room v.left args.length)),
        args.drop (Greedy.room v.left args.length)) := by
  rw [parseValues]
  cases args with
  | nil => simp [Value.takes]
  | cons a args =>
    rw [digestWhile_takes hwait hconv]
    rfl

/-- The holders when these arguments, of any number of command lines, have been shared
out. -/
def filled (values : List (Value T)) (args : List StdString) : List (Value T) :=
  (assignment values args).map fun share => share.1.takes share.2

theorem filled_cons (v : Value T) (values : List (Value T)) (args : List StdString) :
    filled (v :: values) args =
      v.takes (args.take (Greedy.room v.capacity args.length)) ::
        filled values (args.drop (Greedy.room v.capacity args.length)) := rfl

theorem filled_nil (values : List (Value T)) : filled values [] = values := by
  induction values with
  | nil => rfl
  | cons v values ih =>
    rw [filled_cons, List.take_nil, List.drop_nil, ih]
    rfl

theorem allConvert_nil (values : List (Value T)) : AllConvert values [] := by
  induction values with
  | nil => exact nofun
  | cons v values ih =>
    rw [allConvert_cons, List.take_nil, List.drop_nil]
    exact ⟨nofun, ih⟩

/-- The pass over holders that `l` has been shared out to: they share out `m` as if it had
followed `l` on one command line. -/
theorem accumulateTuple_filled {values : List (Value T)} {l m : List StdString}
    (hfresh : ∀ v ∈ values, v.Fresh) (hconv : AllConvert values (l ++ m)) (I : ℕ) (b : Bool) :
    ∃ served rest, accumulateTuple (· && ·) parseValues I b (filled values l) m
        = .ok served (filled values (l ++ m), rest) ∧
      (served = true ↔ b = true ∧
        (values = [] ∨ m ≠ [] ∧ Greedy.Served (values.map Value.capacity) (l ++ m))) ∧
      Greedy.leftover (values.map Value.capacity) (l ++ m)
        = Greedy.leftover (values.map Value.capacity) l ++ rest := by
  induction values generalizing l m I b with
  | nil => exact ⟨b, m, rfl, by simp, rfl⟩
  | cons v values ih =>
    have hv := hfresh v List.mem_cons_self
    obtain ⟨hshare, hrest⟩ := allConvert_cons.mp hconv
    -- what the holder has taken of `l`, and the room `d` that is left
    have hlength : (l.take (Greedy.room v.capacity l.length)).length
        = Greedy.room v.capacity l.length := List.length_take_of_le (Greedy.room_le _ _)
    have htook : v.Took (l.take (Greedy.room v.capacity l.length)) := by
      refine Value.took hv.waiting ?_ fun a ha => hshare a ?_
      · rw [hv.left, hlength]
        exact Greedy.natCast_room_le _ _
      · rw [Greedy.take_room_append
          (tsub_add_cancel_of_le (Greedy.natCast_room_le v.capacity l.length)).symm]
        exact List.mem_append_left _ ha
    have hd := htook.left
    rw [hv.left, hlength] at hd
    rw [Greedy.take_room_append hd, List.forall_mem_append] at hshare
    rw [Greedy.drop_room_append hd] at hrest
    have hrun := parseValues_takes htook.waiting (fun a ha => by
      rw [Value.Converts, htook.type]
      exact hshare.2 a ha) I
    obtain ⟨served, rest, hruns, hserved, hleftover⟩ :=
      ih (fun w hw => hfresh w (List.mem_cons_of_mem v hw)) hrest (I + 1) (b && !m.isEmpty)
    refine ⟨served, rest, ?_, ?_, ?_⟩
    · rw [filled_cons, filled_cons, Greedy.take_room_append hd, Greedy.drop_room_append hd,
        accumulateTuple, hrun, Value.takes_append]
      simp only [hruns]
    · rw [hserved, or_iff_right (List.cons_ne_nil v values), List.map_cons,
        ← Greedy.served_append_cons hd, List.map_eq_nil_iff]
      simp [and_assoc]
    · rw [List.map_cons, Greedy.leftover, Greedy.drop_room_append hd, hleftover, Greedy.leftover]

/-! ### The positional phase -/

section Phase

variable {values : List (Value T)} {l m : List StdString} (hfresh : ∀ v ∈ values, v.Fresh)
  (hconv : AllConvert values (l ++ m))

include hfresh hconv

theorem positionalValues_filled :
    positionalValues (filled values l) m = filled values (l ++ m) := by
  obtain ⟨served, rest, hrun, -, -⟩ := accumulateTuple_filled hfresh hconv 0 true
  rw [positionalValues, positionalPhase, hrun]
  cases served with
  | false => rfl
  | true => cases rest <;> rfl

/-- The phase accepts `m` after `l` if one command line of both is accepted, and `m` is
not empty where arguments are asked for. -/
theorem positionalResult_filled :
    positionalResult (filled values l) m = .ok ↔
      if values = [] then m = [] else m ≠ [] ∧ Accepts values (l ++ m) := by
  obtain ⟨served, rest, hrun, hserved, hleftover⟩ := accumulateTuple_filled hfresh hconv 0 true
  have hok : positionalResult (filled values l) m = .ok ↔ served = true ∧ rest = [] := by
    rw [positionalResult, positionalPhase, hrun]
    cases served with
    | false => simp
    | true => cases rest <;> simp
  rw [hok, hserved, and_iff_right rfl]
  by_cases hnil : values = []
  · subst hnil
    rw [if_pos rfl, and_iff_right (Or.inl rfl)]
    rw [show rest = m from List.append_cancel_left hleftover.symm]
  · rw [if_neg hnil, or_iff_right hnil, accepts_iff, hleftover, List.append_eq_nil_iff]
    constructor
    · rintro ⟨⟨hm, hall⟩, rfl⟩
      refine ⟨hm, ⟨hall, ?_, rfl⟩, hconv⟩
      -- had something been left over before, so would all of `m`
      by_contra hleft
      rw [Greedy.leftover_append hleft, List.append_cancel_left_eq] at hleftover
      exact hm hleftover
    · rintro ⟨hm, ⟨hall, -, hrest⟩, -⟩
      exact ⟨⟨hm, hall⟩, hrest⟩

end Phase

/-! ### The option parsers -/

theorem digestAll_append {xs : List (ℕ × StdString)} {ps ps' : List (OptionParser δ)}
    {calls : List DigestCall} (h : digestAll xs ps = .ok () (ps', calls))
    (ys : List (ℕ × StdString)) :
    (leaves (digestAll (xs ++ ys) ps)).1 = (leaves (digestAll ys ps')).1 ∧
      ((∃ r, digestAll (xs ++ ys) ps = .ok () r) ↔ ∃ r, digestAll ys ps' = .ok () r) := by
  induction xs generalizing ps calls with
  | nil =>
    cases h
    exact ⟨rfl, Iff.rfl⟩
  | cons x xs ih =>
    obtain ⟨i, a⟩ := x
    rw [digestAll] at h
    rw [List.cons_append, digestAll]
    cases hhead : digestAt i a ps with
    | error e r =>
      rw [hhead] at h
      cases h
    | ok u r =>
      obtain ⟨ps₁, calls₁⟩ := r
      rw [hhead] at h
      cases htail : digestAll xs ps₁ with
      | error e r =>
        simp only [htail] at h
        cases h
      | ok u r =>
        simp only [htail] at h
        cases h
        obtain ⟨hleaves, hreturn⟩ := ih htail
        rw [← hleaves, ← hreturn]
        dsimp only
        cases digestAll (xs ++ ys) ps₁ with
        | error e r => exact ⟨rfl, by simp⟩
        | ok u r => exact ⟨rfl, by simp⟩

theorem digestAll_shortEntry {options : List (ℕ × StdString)} {ps ps' : List (OptionParser δ)}
    {calls : List DigestCall} (h : digestAll options ps = .ok () (ps', calls)) :
    ps'.map OptionParser.shortEntry = ps.map OptionParser.shortEntry := by
  induction options generalizing ps calls with
  | nil =>
    cases h
    rfl
  | cons x options ih =>
    obtain ⟨i, a⟩ := x
    rw [digestAll] at h
    cases hhead : digestAt i a ps with
    | error e r =>
      rw [hhead] at h
      cases h
    | ok u r =>
      rw [hhead] at h
      cases htail : digestAll options r.1 with
      | error e r =>
        simp only [htail] at h
        cases h
      | ok u q =>
        simp only [htail] at h
        cases h
        rw [ih htail, digestAt_ok_shortEntry hhead]

/-- The options that are digested on a clear command line use no sentinel. -/
theorem Clear.not_sentinel {ps : List (OptionParser δ)} {occs : List Occurrence}
    (hclear : Clear ps occs) (hreturn : DigestsReturn ps occs) :
    ∀ o ∈ declaredPrefix occs, ¬Sentinel ps o.1 := by
  induction occs generalizing ps with
  | nil => exact nofun
  | cons occ occs ih =>
    cases occ with
    | unknown | help => exact nofun
    | declared i a =>
      obtain ⟨hhead, htail⟩ := clear_cons.mp hclear
      obtain ⟨ps', calls, hdigest, hreturn⟩ := digestsReturn_cons.mp hreturn
      rw [declaredPrefix, List.forall_mem_cons]
      refine ⟨hhead, fun o ho => ?_⟩
      rw [← sentinel_congr (digestAt_ok_shortEntry hdigest)]
      exact ih (htail ps' calls hdigest) hreturn o ho

theorem mem_declaredPrefix {occs : List Occurrence} {o : ℕ × StdString}
    (h : o ∈ declaredPrefix occs) : .declared o.1 o.2 ∈ occs := by
  induction occs with
  | nil => cases h
  | cons occ occs ih =>
    cases occ with
    | unknown | help => cases h
    | declared i a =>
      rcases List.mem_cons.mp h with rfl | h
      · exact List.mem_cons_self
      · exact List.mem_cons_of_mem _ (ih h)

/-- A command line of declared options only. -/
def declaredAll (options : List (ℕ × StdString)) : List Occurrence :=
  options.map fun o => .declared o.1 o.2

theorem declaredPrefix_declaredAll (options : List (ℕ × StdString)) :
    declaredPrefix (declaredAll options) = options := by
  induction options with
  | nil => rfl
  | cons o options ih => exact congrArg (o :: ·) ih

theorem firstOther_declaredAll (options : List (ℕ × StdString)) :
    firstOther (declaredAll options) = none := by
  induction options with
  | nil => rfl
  | cons o options ih => exact ih

/-! ### One command line after the other -/

/-- A command line: its options, and the arguments that `getopt_long` leaves. -/
structure Line where
  occs : List Occurrence
  args : List StdString

/-- The arguments that get to the holders. -/
def Line.served (line : Line) : List StdString :=
  if firstOther line.occs = none then line.args else []

/-- A parser in use, with the options and the arguments that got to it so far. -/
structure Reused (T δ : Type) where
  parser : ArgParser T δ
  options : List (ℕ × StdString)
  args : List StdString

def Reused.start (self : ArgParser T δ) : Reused T δ := ⟨self, [], []⟩

def ArgParser.parseLine (self : ArgParser T δ) (executable : StdString) (line : Line) :
    ParseResult × Run T δ :=
  self.parse executable (commandLine self.parsers line.occs fun _ => line.args)

/-- One call of `parse`. -/
def reuse (executable : StdString) (r : Reused T δ) (line : Line) : Option (Reused T δ) :=
  some
    { parser := (r.parser.parseLine executable line).2.parser
      options := r.options ++ declaredPrefix line.occs
      args := r.args ++ line.served }

/-- The call does not throw: the options are declared ones whose characters are no
sentinels and whose digests return, and the arguments convert where they fall to. -/
structure Goes (made : ArgParser T δ) (r : Reused T δ) (line : Line) : Prop where
  declares : Declares r.parser.parsers line.occs
  clear : Clear r.parser.parsers line.occs
  returns : DigestsReturn r.parser.parsers line.occs
  convert : AllConvert made.values (r.args ++ line.served)

/-- `parse` changes the option parsers and the holders only. -/
theorem parse_frame (self : ArgParser T δ) (executable : StdString) (getopt : Getopt) :
    let parser := (self.parse executable getopt).2.parser
    parser = { self with parsers := parser.parsers, values := parser.values } := by
  dsimp only
  rw [(parse_run executable getopt).1, ArgParser.doParse]
  cases optionLoop getopt.returns ⟨self.parsers, [], 0⟩ with
  | error e phase => rfl
  | ok result phase =>
    cases result with
    | some result => rfl
    | none =>
      dsimp only
      cases positionalPhase self.values (getopt.residual phase.calls) <;> rfl

/-- The parser stands as after one command line of the options and the arguments. -/
structure Combined (made : ArgParser T δ) (r : Reused T δ) : Prop where
  parser : ∃ ps calls, digestAll r.options made.parsers = .ok () (ps, calls) ∧
    r.parser = { made with parsers := ps, values := filled made.values r.args }
  declared : ∀ o ∈ r.options, o.1 < made.parsers.length ∧ ¬Sentinel made.parsers o.1
  convert : AllConvert made.values r.args

theorem combined_start (self : ArgParser T δ) : Combined self (Reused.start self) where
  parser := ⟨self.parsers, [], rfl, by rw [Reused.start, filled_nil]⟩
  declared := nofun
  convert := allConvert_nil self.values

/-- What a call that does not throw does to the parser, and returns. -/
theorem parseLine_spec {self : ArgParser T δ} {line : Line} {ps : List (OptionParser δ)}
    {calls : List DigestCall} (hdistinct : Distinct self.parsers)
    (hdeclares : Declares self.parsers line.occs) (hclear : Clear self.parsers line.occs)
    (hall : digestAll (declaredPrefix line.occs) self.parsers = .ok () (ps, calls))
    (executable : StdString) :
    let out := self.parseLine executable line
    out.2.parser.parsers = ps ∧
      match firstOther line.occs with
      | none => out.1 = positionalResult self.values line.args ∧
          out.2.parser.values = positionalValues self.values line.args
      | some .help => out.1 = .help ∧ out.2.parser.values = self.values
      | some _ => out.1 = .error ∧ out.2.parser.values = self.values := by
  intro out
  have hrun := optionLoop_clear hdistinct hdeclares hclear [] 0
  rw [hall] at hrun
  have hparsers := (@parse_phase T δ self executable
    (commandLine self.parsers line.occs fun _ => line.args)).1
  dsimp only at hrun
  cases hother : firstOther line.occs with
  | none =>
    rw [hother] at hrun
    rw [commandLine, hrun] at hparsers
    exact ⟨hparsers, parse_positional executable
      (commandLine self.parsers line.occs fun _ => line.args) hrun⟩
  | some occ =>
    rw [hother] at hrun
    rcases firstOther_eq_some hother with rfl | rfl
    all_goals
      obtain ⟨k, hrun⟩ := hrun
      rw [commandLine, hrun] at hparsers
      exact ⟨hparsers, parse_options executable
        (commandLine self.parsers line.occs fun _ => line.args) hrun⟩

section Runs

variable {self : ArgParser T δ} {r r' : Reused T δ} {line : Line} {executable : StdString}

/-- The options of all calls, on parsers that the earlier ones have changed. -/
theorem Combined.digest (hr : Combined self r) (hgoes : Goes self r line) :
    ∃ ps calls calls', digestAll (declaredPrefix line.occs) r.parser.parsers = .ok () (ps, calls) ∧
      digestAll (r.options ++ declaredPrefix line.occs) self.parsers = .ok () (ps, calls') := by
  obtain ⟨ps₀, calls₀, hall₀, hparser⟩ := hr.parser
  obtain ⟨⟨ps, calls⟩, hall⟩ := hgoes.returns
  have hparsers : r.parser.parsers = ps₀ := by rw [hparser]
  obtain ⟨hleaves, hreturn⟩ := digestAll_append hall₀ (declaredPrefix line.occs)
  rw [hparsers] at hall
  obtain ⟨⟨ps', calls'⟩, hall'⟩ := hreturn.mpr ⟨_, hall⟩
  rw [hall', hall] at hleaves
  cases (hleaves : ps' = ps)
  exact ⟨ps, calls, calls', hparsers ▸ hall, hall'⟩

theorem Combined.shortEntry (hr : Combined self r) :
    r.parser.parsers.map OptionParser.shortEntry = self.parsers.map OptionParser.shortEntry := by
  obtain ⟨ps, calls, hall, hparser⟩ := hr.parser
  rw [hparser]
  exact digestAll_shortEntry hall

theorem Combined.values (hr : Combined self r) : r.parser.values = filled self.values r.args := by
  obtain ⟨ps, calls, -, hparser⟩ := hr.parser
  rw [hparser]

/-- What one more call does. -/
theorem Combined.parseLine (hr : Combined self r) (hdistinct : Distinct self.parsers)
    (hfresh : ∀ v ∈ self.values, v.Fresh) (hgoes : Goes self r line) (executable : StdString) :
    let out := r.parser.parseLine executable line
    out.2.parser.values = filled self.values (r.args ++ line.served) ∧
      (out.1 = .help ↔ firstOther line.occs = some .help) ∧
      (out.1 = .ok ↔ firstOther line.occs = none ∧
        if self.values = [] then line.args = []
        else line.args ≠ [] ∧ Accepts self.values (r.args ++ line.args)) := by
  intro out
  obtain ⟨ps, calls, -, hall, -⟩ := hr.digest hgoes
  obtain ⟨-, hout⟩ := parseLine_spec ((distinct_congr hr.shortEntry).mpr hdistinct)
    hgoes.declares hgoes.clear hall executable
  have hconv := hgoes.convert
  cases hother : firstOther line.occs with
  | none =>
    rw [Line.served, if_pos hother] at hconv ⊢
    rw [hother] at hout
    obtain ⟨hresult, hvalues⟩ := hout
    rw [hr.values] at hresult hvalues
    refine ⟨by rw [hvalues, positionalValues_filled hfresh hconv], ?_, ?_⟩
    · rw [hresult]
      exact iff_of_false (positionalResult_ne_help _ _) nofun
    · rw [hresult, positionalResult_filled hfresh hconv, and_iff_right rfl]
  | some occ =>
    have hne : ¬firstOther line.occs = none := by rw [hother]; exact nofun
    rw [Line.served, if_neg hne, List.append_nil]
    rw [hother] at hout
    rcases firstOther_eq_some hother with rfl | rfl
    · obtain ⟨hresult, hvalues⟩ := hout
      exact ⟨by rw [hvalues, hr.values], by simp [out, hresult], by simp [out, hresult]⟩
    · obtain ⟨hresult, hvalues⟩ := hout
      exact ⟨by rw [hvalues, hr.values], by simp [out, hresult], by simp [out, hresult]⟩

/-- **One more call** keeps the parser as after one command line. -/
theorem Combined.step (hr : Combined self r) (hdistinct : Distinct self.parsers)
    (hfresh : ∀ v ∈ self.values, v.Fresh) (hgoes : Goes self r line)
    (hr' : reuse executable r line = some r') : Combined self r' := by
  cases hr'
  obtain ⟨ps, calls, calls', hall, hall'⟩ := hr.digest hgoes
  obtain ⟨hparsers, -⟩ := parseLine_spec ((distinct_congr hr.shortEntry).mpr hdistinct)
    hgoes.declares hgoes.clear hall executable
  obtain ⟨hvalues, -, -⟩ := hr.parseLine hdistinct hfresh hgoes executable
  have hlength : r.parser.parsers.length = self.parsers.length := by
    simpa using congrArg List.length hr.shortEntry
  refine ⟨⟨ps, calls', hall', ?_⟩, ?_, hgoes.convert⟩
  · rw [ArgParser.parseLine, parse_frame, ← ArgParser.parseLine, hparsers, hvalues]
    obtain ⟨ps₀, calls₀, -, hparser⟩ := hr.parser
    rw [hparser]
  · rw [List.forall_mem_append]
    refine ⟨hr.declared, fun o ho => ⟨?_, ?_⟩⟩
    · exact hlength ▸ hgoes.declares o.1 o.2 (mem_declaredPrefix ho)
    · rw [← sentinel_congr hr.shortEntry]
      exact hgoes.clear.not_sentinel hgoes.returns o ho

/-- One command line of all the options and arguments can be parsed. -/
theorem Combined.goes (hr : Combined self r) :
    Goes self (Reused.start self) ⟨declaredAll r.options, r.args⟩ := by
  obtain ⟨ps, calls, hall, -⟩ := hr.parser
  have hmem : ∀ i a, .declared i a ∈ declaredAll r.options → (i, a) ∈ r.options := by
    intro i a h
    obtain ⟨o, ho, heq⟩ := List.mem_map.mp h
    cases heq
    exact ho
  refine ⟨fun i a h => (hr.declared _ (hmem i a h)).1, ?_, ?_, ?_⟩
  · intro before i a rest hoccs _ _
    have hocc : .declared i a ∈ declaredAll r.options := by
      rw [show declaredAll r.options = before ++ .declared i a :: rest from hoccs]
      exact List.mem_append_cons_self
    exact (hr.declared (i, a) (hmem i a hocc)).2
  · rw [DigestsReturn, declaredPrefix_declaredAll]
    exact ⟨_, hall⟩
  · rw [Line.served, if_pos (firstOther_declaredAll r.options)]
    exact hr.convert

end Runs

/-- **A parser that is used again.** After any number of calls that do not throw it is
what one call leaves behind whose command line has the options of these calls that stand
in front of the first help or unknown option, and the arguments of those without such an
option. The next call asks for help where its own first such option is help. It is
accepted where it has none and, if there are positional holders, it has arguments and that
one command line would be accepted with them added to it; if there are none, it has no
arguments. -/
theorem reuse_combined {description footer : StdString} {values : List (Value T)}
    {parsers : List (OptionParser δ)} (self : ArgParser T δ)
    (hself : ArgParser.create description values parsers footer = .ok self)
    (hfresh : ∀ v ∈ values, v.Fresh) (executable : StdString) {lines : List Line} {r : Reused T δ}
    (hrun : run (reuse executable) (Reused.start self) lines = some r)
    (hgoes : Along (reuse executable) (Goes self) (Reused.start self) lines) :
    r.parser = (self.parseLine executable ⟨declaredAll r.options, r.args⟩).2.parser ∧
      ∀ line, Goes self r line →
        let result := (r.parser.parseLine executable line).1
        (result = .help ↔ firstOther line.occs = some .help) ∧
          (result = .ok ↔ firstOther line.occs = none ∧
            if values = [] then line.args = []
            else line.args ≠ [] ∧ Accepts values (r.args ++ line.args)) := by
  obtain ⟨hparsers, rfl, hdistinct⟩ := distinct_of_create hself
  rw [← hparsers] at hdistinct
  have hr : Combined self r := run_invariant (I := Combined self)
    (fun _ _ _ hI hgoes hs' => hI.step hdistinct hfresh hgoes hs') (combined_start self) hgoes hrun
  refine ⟨?_, fun line hline => (hr.parseLine hdistinct hfresh hline executable).2⟩
  have hone : Combined self ⟨_, _, _⟩ := (combined_start self).step hdistinct hfresh hr.goes
    (rfl : reuse executable (Reused.start self) ⟨declaredAll r.options, r.args⟩ = some ⟨_, _, _⟩)
  obtain ⟨ps, calls, hall, hparser⟩ := hr.parser
  obtain ⟨ps', calls', hall', hparser'⟩ := hone.parser
  rw [declaredPrefix_declaredAll, Reused.start, List.nil_append, hall] at hall'
  cases hall'
  rw [Line.served, if_pos (firstOther_declaredAll r.options), Reused.start,
    List.nil_append] at hparser'
  exact hparser.trans hparser'.symm

/-- `copy -v to`, which lacks arguments, and `copy fast safe a` -/
def copyLines : List Line :=
  [⟨[.declared 0 []], [str "to"]⟩, ⟨[], [str "fast", str "safe", str "a"]⟩]

/-- Strings always convert. -/
theorem allConvert_copy (args : List StdString) : AllConvert copyParser.values args := by
  rintro ⟨v, slice⟩ hshare a -
  have hv : v ∈ copyParser.values := (List.of_mem_zip hshare).1
  simp only [copyParser, List.mem_cons, List.not_mem_nil, or_false] at hv
  rcases hv with rfl | rfl | rfl <;> rfl

theorem reuse_combined_copy : ∃ r,
    run (reuse (str "copy")) (Reused.start copyParser) copyLines = some r ∧
      r.parser = (copyParser.parseLine (str "copy")
        ⟨[.declared 0 []], [str "to", str "fast", str "safe", str "a"]⟩).2.parser := by
  have hdeclares : ∀ (r : Reused StdString (Value StdString)) (line : Line), line ∈ copyLines →
      r.parser.parsers.length = 2 → Declares r.parser.parsers line.occs := by
    intro r line hline hlength i a h
    rw [hlength]
    simp only [copyLines, List.mem_cons, List.not_mem_nil, or_false] at hline
    rcases hline with rfl | rfl
    · rw [List.mem_singleton] at h
      cases h
      exact Nat.two_pos
    · cases h
  have hfresh : ∀ v ∈ copyParser.values, v.Fresh :=
    List.forall_mem_cons.mpr ⟨.single _ _ _, List.forall_mem_cons.mpr ⟨.limited _ _ _ _,
      List.forall_mem_cons.mpr ⟨.multi _ _ _, nofun⟩⟩⟩
  have hgoes :
      Along (reuse (str "copy")) (Goes copyParser) (Reused.start copyParser) copyLines := by
    refine along_cons.mpr ⟨⟨hdeclares _ _ List.mem_cons_self rfl, clear_of_forall (by decide),
      ⟨_, rfl⟩, allConvert_copy _⟩, ?_⟩
    rintro r ⟨⟩
    refine along_cons.mpr ⟨⟨hdeclares _ _ (List.mem_cons_of_mem _ List.mem_cons_self) rfl,
      clear_of_forall (by decide), ⟨_, rfl⟩, allConvert_copy _⟩, ?_⟩
    rintro r -
    trivial
  have hself : ArgParser.create (str "Copy files") copyParser.values verboseAndOutput []
      = .ok copyParser := rfl
  exact ⟨_, rfl, (reuse_combined copyParser hself hfresh (str "copy") rfl hgoes).1⟩

end Brasa.Argparse
