import Brasa.Argparse.Table

/-!
# Brasa.Argparse.Parse

`do_parse` and `parse`: the loop over the options that `getopt_long` reports, the
pass over the positional arguments it leaves, and the texts written to `err`.

`getopt_long` is not part of the library. What it does with one command line is a
parameter: what its successive calls return, and which arguments stand from
`optind` on.
-/

namespace Brasa.Argparse

variable {T δ : Type}

inductive ParseResult
  | ok
  | error
  | help
deriving DecidableEq, Repr

/-- What a call of `getopt_long` returns, with `optarg` after the call. -/
structure GetoptReturn where
  c : Int32
  optarg : Option StdString
deriving DecidableEq, Repr

/-- What `getopt_long` does with a command line: what its calls return in turn, and
-1 from then on; and the arguments from `optind` on after so many calls. -/
structure Getopt where
  returns : List GetoptReturn
  residual : ℕ → List StdString

/-! ### Usage -/

/-- `build_usage_line`. -/
def buildUsageLine (preamble description : StdString) : StdString :=
  let secondColumn := 24
  let indent := str "    "
  if preamble.length < secondColumn then
    indent ++ (preamble ++ List.replicate (secondColumn - preamble.length) (chr ' '))
      ++ description ++ str "\n"
  else
    indent ++ (preamble ++ str "\n")
      ++ (List.replicate (secondColumn + indent.length) (chr ' ') ++ description) ++ str "\n"

/-- `BuildUsage` of an option. -/
def buildParserUsage (I : ℕ) (parser : OptionParser δ) : StdString :=
  let preamble := str "-" ++ [parser.shortOption] ++ str ", --" ++ parser.longOption
  let parameter := match parser with
    | .boolean _ => []
    | .parameter _ p => str "  <" ++ p.name ++ str ">"
  (if I = 0 then str "Options:\n" else [])
    ++ buildUsageLine (preamble ++ parameter) parser.base.description

/-- `BuildUsage` of a positional argument. -/
def buildValueUsage (I : ℕ) (value : Value T) : StdString :=
  (if I = 0 then str "Positional parameters:\n" else [])
    ++ buildUsageLine value.base.name value.base.description

/-- `BuildCommandLine`. -/
def buildCommandLine (_I : ℕ) (value : Value T) : StdString := str " " ++ value.base.name

/-- `BuildMissingParameters`. -/
def buildMissingParameters (numValuesProcessed I : ℕ) (value : Value T) : StdString :=
  if numValuesProcessed ≤ I then str " " ++ value.base.name else []

def ArgParser.usage (self : ArgParser T δ) (executable : StdString) : StdString :=
  let parametersUsage := accumulateConst (· ++ ·) buildValueUsage 0 [] self.values
  let parsersUsage := accumulateConst (· ++ ·) buildParserUsage 0 [] self.parsers
  let commandLineParameters := accumulateConst (· ++ ·) buildCommandLine 0 [] self.values
  self.description ++ str "\n\n" ++ executable ++ commandLineParameters
    ++ (if self.parsers.isEmpty then [] else str " <options>") ++ str "\n\n"
    ++ parametersUsage ++ parsersUsage
    ++ (if self.footer.isEmpty then [] else str "\n" ++ self.footer ++ str "\n")

/-! ### The option loop -/

/-- What the option loop has done so far: the parsers as they are now, the calls of
`digest` made on them, and how often `getopt_long` was called. -/
structure OptionPhase (δ : Type) where
  parsers : List (OptionParser δ)
  digests : List DigestCall
  calls : ℕ

/-- The option loop of `do_parse`. It ends with the result `do_parse` returns, or with
`none` where `do_parse` goes on. -/
def optionLoop : List GetoptReturn → OptionPhase δ →
    EStateM.Result InvalidArgument (OptionPhase δ) (Option ParseResult)
  | [], phase => .ok none { phase with calls := phase.calls + 1 }
  | r :: rs, phase =>
    let calls := phase.calls + 1
    -- the sentinels come first, whatever options are declared
    if r.c = -1 then .ok none { phase with calls := calls }
    else if r.c = (chr 'h').toInt32 then .ok (some .help) { phase with calls := calls }
    else if r.c = (chr '?').toInt32 then .ok (some .error) { phase with calls := calls }
    else
      match forEachTuple (parseOption r.c.toInt8 (r.optarg.getD [])) 0 phase.parsers
        phase.digests with
      | .error e (parsers, digests) => .error e ⟨parsers, digests, calls⟩
      | .ok () (parsers, digests) => optionLoop rs ⟨parsers, digests, calls⟩

section OptionLoop

variable {r : GetoptReturn} (rs : List GetoptReturn) (phase : OptionPhase δ)

theorem optionLoop_end (h : r.c = -1) :
    optionLoop (r :: rs) phase = .ok none { phase with calls := phase.calls + 1 } := by
  rw [optionLoop, if_pos h]

theorem optionLoop_help (h : r.c = (chr 'h').toInt32) :
    optionLoop (r :: rs) phase = .ok (some .help) { phase with calls := phase.calls + 1 } := by
  rw [optionLoop, if_neg (by rw [h]; decide), if_pos h]

theorem optionLoop_unknown (h : r.c = (chr '?').toInt32) :
    optionLoop (r :: rs) phase = .ok (some .error) { phase with calls := phase.calls + 1 } := by
  rw [optionLoop, if_neg (by rw [h]; decide), if_neg (by rw [h]; decide), if_pos h]

end OptionLoop

/-! ### The positional arguments -/

/-- The loop of `ParseValues`: `args` are the arguments from `index` on. -/
def digestWhile (value : Value T) : List StdString →
    EStateM.Result InvalidArgument (Value T × List StdString) Unit
  | [] => .ok () (value, [])
  | argument :: args =>
    if value.canDigest then
      match value.digest argument with
      | .error e value => .error e (value, argument :: args)
      | .ok () value => digestWhile value args
    else .ok () (value, argument :: args)

/-- `ParseValues`. -/
def parseValues (_I : ℕ) (value : Value T) (args : List StdString) :
    EStateM.Result InvalidArgument (Value T × List StdString) Bool :=
  if args.isEmpty then .ok false (value, args)
  else
    match digestWhile value args with
    | .error e r => .error e r
    | .ok () r => .ok true r

/-- `ERROR_MSG_`. -/
def errorMsg : StdString := str "ERROR processing command line arguments: "

/-- The second half of `do_parse`, with what it writes to `err`. -/
def positionalPhase (values : List (Value T)) (args : List StdString) :
    EStateM.Result InvalidArgument (List (Value T) × StdString) ParseResult :=
  match accumulateTuple (· && ·) parseValues 0 true values args with
  | .error e (values, _) => .error e (values, [])
  | .ok false (values, rest) =>
    let numValuesProcessed := args.length - rest.length
    let missingArguments :=
      accumulateConst (· ++ ·) (buildMissingParameters numValuesProcessed) 0 [] values
    .ok .error (values, errorMsg ++ str "missing arguments for" ++ missingArguments ++ str "\n\n")
  -- `index == argc`: everything was consumed
  | .ok true (values, []) => .ok .ok (values, [])
  | .ok true (values, argument :: rest) =>
    .ok .error (values, errorMsg ++ str "too many arguments"
      ++ (argument :: rest).flatMap (fun a => str " '" ++ a ++ str "'") ++ str "\n\n")

/-! ### `do_parse` and `parse` -/

/-- What a call of `parse` leaves behind: the parser, the text written to `err`, and
the calls of `digest` it made on the option parsers. -/
structure Run (T δ : Type) where
  parser : ArgParser T δ
  err : StdString
  digests : List DigestCall

namespace ArgParser

def doParse (self : ArgParser T δ) (getopt : Getopt) :
    EStateM.Result InvalidArgument (Run T δ) ParseResult :=
  match optionLoop getopt.returns ⟨self.parsers, [], 0⟩ with
  | .error e phase => .error e ⟨{ self with parsers := phase.parsers }, [], phase.digests⟩
  | .ok (some result) phase =>
    .ok result ⟨{ self with parsers := phase.parsers }, [], phase.digests⟩
  | .ok none phase =>
    match positionalPhase self.values (getopt.residual phase.calls) with
    | .error e (values, err) =>
      .error e ⟨{ self with parsers := phase.parsers, values := values }, err, phase.digests⟩
    | .ok result (values, err) =>
      .ok result ⟨{ self with parsers := phase.parsers, values := values }, err, phase.digests⟩

/-- The text of an exception is streamed as the C string `what()`. -/
def parse (self : ArgParser T δ) (executable : StdString) (getopt : Getopt) :
    ParseResult × Run T δ :=
  match self.doParse getopt with
  | .ok .ok run => (.ok, run)
  | .ok result run => (result, { run with err := run.err ++ run.parser.usage executable })
  | .error e run =>
    (.error, { run with err := run.err ++ errorMsg ++ cStr e.what ++ str "\n\n"
      ++ run.parser.usage executable })

end ArgParser

/-! ### What `parse` adds to `do_parse` -/

/-- The state that a call leaves behind, whether it returns or throws. -/
def leaves {ε σ α : Type} : EStateM.Result ε σ α → σ
  | .ok _ s => s
  | .error _ s => s

variable {self : ArgParser T δ} {phase : OptionPhase δ} (executable : StdString) (getopt : Getopt)

/-- The result of `parse` is the one of `do_parse`, with exceptions turned into
errors. -/
theorem parse_result :
    (self.parse executable getopt).1 =
      match self.doParse getopt with
      | .ok result _ => result
      | .error _ _ => .error := by
  rw [ArgParser.parse]
  cases self.doParse getopt with
  | error e run => rfl
  | ok result run => cases result <;> rfl

/-- `parse` changes the parser as `do_parse` does. -/
theorem parse_run :
    (self.parse executable getopt).2.parser = (leaves (self.doParse getopt)).parser ∧
      (self.parse executable getopt).2.digests = (leaves (self.doParse getopt)).digests := by
  rw [ArgParser.parse]
  cases self.doParse getopt with
  | error e run => exact ⟨rfl, rfl⟩
  | ok result run => cases result <;> exact ⟨rfl, rfl⟩

/-- The option parsers are left as the option loop leaves them. -/
theorem parse_phase :
    (self.parse executable getopt).2.parser.parsers
        = (leaves (optionLoop getopt.returns ⟨self.parsers, [], 0⟩)).parsers ∧
      (self.parse executable getopt).2.digests
        = (leaves (optionLoop getopt.returns ⟨self.parsers, [], 0⟩)).digests := by
  rw [(parse_run executable getopt).1, (parse_run executable getopt).2, ArgParser.doParse]
  cases optionLoop getopt.returns ⟨self.parsers, [], 0⟩ with
  | error e phase => exact ⟨rfl, rfl⟩
  | ok result phase =>
    cases result with
    | some result => exact ⟨rfl, rfl⟩
    | none =>
      dsimp only
      cases positionalPhase self.values (getopt.residual phase.calls) <;> exact ⟨rfl, rfl⟩

/-- The result of the positional phase, with exceptions turned into errors. -/
def positionalResult (values : List (Value T)) (args : List StdString) : ParseResult :=
  match positionalPhase values args with
  | .ok result _ => result
  | .error _ _ => .error

/-- The holders as the positional phase leaves them. -/
def positionalValues (values : List (Value T)) (args : List StdString) : List (Value T) :=
  (leaves (positionalPhase values args)).1

theorem positionalPhase_ne_help (values : List (Value T)) (args : List StdString) (r) :
    positionalPhase values args ≠ .ok .help r := by
  rw [positionalPhase]
  cases accumulateTuple (· && ·) parseValues 0 true values args with
  | error e s => exact nofun
  | ok served s =>
    obtain ⟨values', rest⟩ := s
    cases served with
    | false => exact nofun
    | true => cases rest <;> exact nofun

theorem positionalResult_ne_help (values : List (Value T)) (args : List StdString) :
    positionalResult values args ≠ .help := by
  intro h
  rw [positionalResult] at h
  cases hrun : positionalPhase values args with
  | error e r =>
    rw [hrun] at h
    cases h
  | ok result r =>
    rw [hrun] at h
    exact positionalPhase_ne_help values args r (h ▸ hrun)

/-- After an option phase that ends without a result, `parse` goes on to the
positional phase. -/
theorem parse_positional
    (hoptions : optionLoop getopt.returns ⟨self.parsers, [], 0⟩ = .ok none phase) :
    let out := self.parse executable getopt
    let args := getopt.residual phase.calls
    out.1 = positionalResult self.values args ∧
      out.2.parser.values = positionalValues self.values args := by
  dsimp only
  rw [(parse_run executable getopt).1, parse_result, ArgParser.doParse, hoptions,
    positionalResult, positionalValues]
  dsimp only
  cases positionalPhase self.values (getopt.residual phase.calls) with
  | error e r => exact ⟨rfl, rfl⟩
  | ok result r => exact ⟨rfl, rfl⟩

/-- An option phase that ends with a result ends `parse` with it. -/
theorem parse_options {result : ParseResult}
    (hoptions : optionLoop getopt.returns ⟨self.parsers, [], 0⟩ = .ok (some result) phase) :
    let out := self.parse executable getopt
    out.1 = result ∧ out.2.parser.values = self.values := by
  dsimp only
  rw [(parse_run executable getopt).1, parse_result, ArgParser.doParse, hoptions]
  exact ⟨rfl, rfl⟩

/-- An option phase that throws ends `parse` with an error. -/
theorem parse_throws {e : InvalidArgument}
    (hoptions : optionLoop getopt.returns ⟨self.parsers, [], 0⟩ = .error e phase) :
    let out := self.parse executable getopt
    out.1 = .error ∧ out.2.parser.values = self.values := by
  dsimp only
  rw [(parse_run executable getopt).1, parse_result, ArgParser.doParse, hoptions]
  exact ⟨rfl, rfl⟩

end Brasa.Argparse
