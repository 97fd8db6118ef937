/-!
The tree of a filter script, as its grammar gives it: a command has arguments, tests and perhaps a
block. What a command or a test of some name means is not decided here.
-/

namespace SieveRules

inductive Argument where
  | string (value : String)
  | stringList (items : List String)
  | number (digits : String)
  | tag (name : String)
  deriving DecidableEq, Repr

def Argument.strings? : Argument → Option (List String)
  | string value => some [value]
  | stringList items => some items
  | _ => none

/-- A test, with the tests it combines. Names are in lower case. -/
structure Test where
  name : String
  arguments : List Argument
  tests : List Test
  deriving Repr

/-- A command ends in a semicolon or in a block. -/
structure Command where
  name : String
  arguments : List Argument
  tests : List Test
  block : Option (List Command)
  deriving Repr

structure Script where
  commands : List Command
  deriving Repr

end SieveRules
