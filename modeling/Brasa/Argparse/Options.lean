import Brasa.Argparse.Tuple
import Brasa.Argparse.Value

/-!
# Brasa.Argparse.Options

The parsers of options: `BooleanParser` and `BaseParameterParser`, and the
functor `ParseOption` that hands an option of the command line to its parser.
-/

namespace Brasa.Argparse

structure BaseParser where
  shortOption : Int8
  longOption : StdString
  description : StdString
deriving DecidableEq, Repr

structure BooleanParser where
  base : BaseParser
  active : Bool
deriving DecidableEq, Repr

/-- The constructor. -/
def BooleanParser.create (shortOption : Int8) (longOption description : StdString) :
    BooleanParser :=
  ⟨⟨shortOption, longOption, description⟩, false⟩

def BooleanParser.digest (p : BooleanParser) : BooleanParser := { p with active := true }

/-- The template parameter `DIGESTER`: its constructor from a name and a
description, and its `digest`. -/
structure DigesterType (δ : Type) where
  create : StdString → StdString → δ
  digest : StdString → δ → Outcome δ

structure BaseParameterParser (δ : Type) where
  base : BaseParser
  present : Bool
  name : StdString
  checkerFunction : StdString → Bool
  digester : δ

namespace BaseParameterParser

variable {δ : Type}

/-- The constructor. -/
def create (type : DigesterType δ) (shortOption : Int8) (longOption name description : StdString)
    (checkerFunction : StdString → Bool) : BaseParameterParser δ :=
  { base := ⟨shortOption, longOption, description⟩
    present := false
    name := name
    checkerFunction := checkerFunction
    digester := type.create [] [] }

/-- The option counts as present before its digester has accepted the argument. -/
def digest (type : DigesterType δ) (argument : StdString) (p : BaseParameterParser δ) :
    Outcome (BaseParameterParser δ) :=
  if p.checkerFunction argument then
    match type.digest argument p.digester with
    | .ok () d => .ok () { p with present := true, digester := d }
    | .error e d => .error e { p with present := true, digester := d }
  else
    .error ⟨str "Invalid argument [" ++ argument ++ str "] for " ++ p.base.longOption⟩ p

end BaseParameterParser

/-- `not_empty`. -/
def notEmpty (argument : StdString) : Bool := !argument.isEmpty

/-- The constructor of `ValueParser`. -/
def ValueParser.create {δ : Type} (type : DigesterType δ) (shortOption : Int8)
    (longOption name description : StdString) : BaseParameterParser δ :=
  BaseParameterParser.create type shortOption longOption name description notEmpty

/-- `SingleValue<std::string>` as a digester. -/
def DigesterType.string : DigesterType (Value StdString) :=
  ⟨fun name description => .single .string (SingleValue.create .string name description),
   Value.digest⟩

/-- The holders of the library as digesters. -/
def DigesterType.single {T : Type} (type : ValueType T) : DigesterType (Value T) :=
  ⟨fun name description => .single type (.create type name description), Value.digest⟩

def DigesterType.multi {T : Type} (type : ValueType T) : DigesterType (Value T) :=
  ⟨fun name description => .multi type (.create name description), Value.digest⟩

def DigesterType.limited (N : ℕ) {T : Type} (type : ValueType T) : DigesterType (Value T) :=
  ⟨fun name description => .limited N type (.create name description), Value.digest⟩

/-- A parser of one option: an element of `ParserTupleT`. -/
inductive OptionParser (δ : Type)
  | boolean (p : BooleanParser)
  | parameter (type : DigesterType δ) (p : BaseParameterParser δ)

namespace OptionParser

variable {δ : Type}

def base : OptionParser δ → BaseParser
  | boolean p => p.base
  | parameter _ p => p.base

def shortOption (p : OptionParser δ) : Int8 := p.base.shortOption

def longOption (p : OptionParser δ) : StdString := p.base.longOption

def isBoolean : OptionParser δ → Bool
  | boolean _ => true
  | parameter _ _ => false

/-- `digest()` of a `BooleanParser`, `digest(argument)` of any other parser. -/
def digest (argument : StdString) : OptionParser δ → Outcome (OptionParser δ)
  | boolean p => .ok () (boolean p.digest)
  | parameter type p =>
    match p.digest type argument with
    | .ok () p => .ok () (parameter type p)
    | .error e p => .error e (parameter type p)

end OptionParser

variable {δ : Type}

/-- One call of a `digest`: on the parser of index `parser`, with an argument unless
the parser is a `BooleanParser`. -/
structure DigestCall where
  parser : ℕ
  argument : Option StdString
deriving DecidableEq, Repr

/-- The call of `digest` that a parser gets for an option with this parameter. -/
def OptionParser.call (p : OptionParser δ) (I : ℕ) (parameter : StdString) : DigestCall :=
  ⟨I, if p.isBoolean then none else some parameter⟩

/-- `ParseOption`. The calls of `digest` it makes are written down in `digests`. -/
def parseOption (shortOption : Int8) (parameter : StdString) (I : ℕ) (parser : OptionParser δ)
    (digests : List DigestCall) :
    EStateM.Result InvalidArgument (OptionParser δ × List DigestCall) Unit :=
  if shortOption = parser.shortOption then
    match parser.digest parameter with
    | .ok () p => .ok () (p, digests ++ [parser.call I parameter])
    | .error e p => .error e (p, digests ++ [parser.call I parameter])
  else .ok () (parser, digests)

end Brasa.Argparse
