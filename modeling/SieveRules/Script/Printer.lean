import SieveRules.Script
/-!
The text of a script: one command a line, the block of a command below it in braces and indented,
strings in quotes, and lists of strings always in brackets.
-/

namespace SieveRules

/-- A quote and a backslash are written behind a backslash. -/
def escape (c : Char) : List Char :=
  if c = '"' || c = '\\' then ['\\', c] else [c]

def quote (s : String) : String :=
  "\"" ++ String.ofList (s.toList.flatMap escape) ++ "\""

namespace Argument

def render : Argument → String
  | string value => quote value
  | stringList items => "[" ++ ", ".intercalate (items.map quote) ++ "]"
  | number digits => digits
  | tag name => name

def renderAll (arguments : List Argument) : String :=
  String.join (arguments.map fun a => " " ++ a.render)

def startsWithTag : List Argument → Bool
  | tag _ :: _ => true
  | _ => false

end Argument

namespace Test

mutual

def render : Test → String
  | ⟨name, arguments, tests⟩ => name ++ Argument.renderAll arguments ++ renderAll tests

/-- One test stands alone, several stand in parentheses. -/
def renderAll : List Test → String
  | [] => ""
  | [test] => " " ++ test.render
  | test :: rest => " (" ++ test.render ++ renderMore rest ++ ")"

def renderMore : List Test → String
  | [] => ""
  | test :: rest => ", " ++ test.render ++ renderMore rest

end

end Test

namespace Command

/-- Actions that take options keep the place of the options where there are none. -/
def optionPlace (name : String) (arguments : List Argument) : String :=
  if name ∈ ["fileinto", "redirect", "deleteheader", "vacation"] &&
      !Argument.startsWithTag arguments then " "
  else ""

mutual

def render (indent : String) : Command → String
  | ⟨name, arguments, tests, block⟩ =>
    name ++ optionPlace name arguments ++ Argument.renderAll arguments ++ Test.renderAll tests ++
      renderBlock indent block

def renderBlock (indent : String) : Option (List Command) → String
  | none => ";"
  | some body =>
    "\n" ++ indent ++ "\x7b\n" ++ renderLines (indent ++ "    ") body ++ indent ++ "\x7d"

def renderLines (indent : String) : List Command → String
  | [] => ""
  | command :: rest => indent ++ command.render indent ++ "\n" ++ renderLines indent rest

end

/-- A command of a script, on its own lines. A blank line follows one without a block. -/
def renderTop (command : Command) : String :=
  command.render "" ++ if command.block.isNone then "\n\n" else "\n"

end Command

def Script.render (script : Script) : String :=
  String.join (script.commands.map Command.renderTop)

end SieveRules
