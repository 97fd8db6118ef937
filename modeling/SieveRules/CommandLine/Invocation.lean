/-!
The arguments of a command line, and what they ask for. Options may stand anywhere among the
operands, up to two hyphens alone; none may be given twice, and no path may be empty.
-/

namespace SieveRules

structure Signature where
  /-- Long and short name of each option with a value. -/
  valued : List (String × Char)
  flags : List String
  operands : Nat

structure Given where
  values : List (String × String)
  flags : List String
  operands : List String
  deriving DecidableEq, Repr

inductive Invocation where
  | generate (model output : Option String)
  | parse (script : String) (save : Bool)
  | validate (model : Option String)
  | help
  | version
  deriving DecidableEq, Repr

def Given.addValue (given : Given) (name value : String) : Option Given :=
  if value ≠ "" ∧ (given.values.lookup name).isNone then
    some { given with values := given.values ++ [(name, value)] }
  else none

namespace Signature

variable (signature : Signature)

def addOperand (given : Given) (operand : String) : Option Given :=
  if operand ≠ "" ∧ given.operands.length < signature.operands then
    some { given with operands := given.operands ++ [operand] }
  else none

def addOperands (given : Given) (operands : List String) : Option Given :=
  operands.foldlM signature.addOperand given

def addFlag (given : Given) (name : String) : Option Given :=
  if name ∈ signature.flags ∧ name ∉ given.flags then
    some { given with flags := given.flags ++ [name] }
  else none

def splitAtEquals (chars : List Char) : String × Option String :=
  match chars.dropWhile (· ≠ '=') with
  | [] => (.ofList chars, none)
  | _ :: value => (.ofList (chars.takeWhile (· ≠ '=')), some (.ofList value))

/-- One argument, as far as it tells by itself what it is. -/
inductive Piece where
  | operand (text : String)
  /-- Two hyphens alone: everything behind them is an operand. -/
  | rest
  | help
  | flag (name : String)
  | option (name : String) (value : Option String)
  | unknown
  deriving DecidableEq, Repr

def long (name : String) (value : Option String) : Piece :=
  if (signature.valued.lookup name).isSome then .option name value
  else if value.isSome then .unknown
  else if name = "help" then .help
  else .flag name

def short (name : Char) (behind : List Char) : Piece :=
  match signature.valued.find? (·.2 = name) with
  | some (long, _) =>
    match behind with
    | [] => .option long none
    | '=' :: value => .option long (some (.ofList value))
    | value => .option long (some (.ofList value))
  | none => if name = 'h' then .help else .unknown

def piece (argument : String) : Piece :=
  match argument.toList with
  | ['-', '-'] => .rest
  | '-' :: '-' :: text =>
    let (name, value) := splitAtEquals text
    signature.long name value
  | '-' :: name :: behind => signature.short name behind
  | _ => .operand argument

def isValue (argument : String) : Bool :=
  argument = "-" || argument.toList.head? ≠ some '-'

/-- Everything given to a command, read with what it makes of that; none if something is wrong. A
request for help counts as soon as it is reached. -/
def read (make : Given → Invocation) : Given → List String → Option Invocation
  | given, [] => some (make given)
  | given, argument :: arguments =>
    match signature.piece argument with
    | .operand text =>
      match signature.addOperand given text with
      | some given => read make given arguments
      | none => none
    | .rest => (signature.addOperands given arguments).map make
    | .help => some .help
    | .flag name =>
      match signature.addFlag given name with
      | some given => read make given arguments
      | none => none
    | .option name (some value) =>
      match given.addValue name value with
      | some given => read make given arguments
      | none => none
    | .option name none =>
      match arguments with
      | [] => none
      | value :: arguments =>
        if isValue value then
          match given.addValue name value with
          | some given => read make given arguments
          | none => none
        else none
    | .unknown => none

end Signature

namespace Invocation

def generateSignature : Signature := ⟨[("output", 'o')], [], 1⟩

def parseSignature : Signature := ⟨[], ["save"], 1⟩

def validateSignature : Signature := ⟨[], [], 1⟩

def commands : List String := ["generate", "parse", "validate", "help"]

def ofArguments : List String → Option Invocation
  | "generate" :: arguments =>
    generateSignature.read (fun given => generate given.operands.head? (given.values.lookup "output"))
      ⟨[], [], []⟩ arguments
  | "parse" :: arguments =>
    parseSignature.read (fun given => parse (given.operands.head?.getD "-") ("save" ∈ given.flags))
      ⟨[], [], []⟩ arguments
  | "validate" :: arguments =>
    validateSignature.read (fun given => validate given.operands.head?) ⟨[], [], []⟩ arguments
  | ["help"] => some help
  | ["help", command] => if command ∈ commands then some help else none
  | "--help" :: _ => some help
  | "--version" :: _ => some version
  | argument :: _ =>
    match argument.toList with
    | '-' :: 'h' :: _ => some help
    | '-' :: 'V' :: _ => some version
    | _ => none
  | [] => none

def usage : String :=
  "Generate, parse and validate Sieve mail filters\n\n" ++
    "Usage: sievekit generate [MODEL] [-o OUTPUT]\n" ++
    "       sievekit parse [SCRIPT] [--save]\n" ++
    "       sievekit validate [MODEL]\n\n" ++
    "A model or a script named - is read from the standard input.\n" ++
    "Without a model, the stored one is taken; --save replaces its rules.\n"

end Invocation

end SieveRules
