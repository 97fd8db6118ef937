import SieveRules.Json
/-!
The text of JSON values: compact on one line, or with a line for each item and member, indented by
two spaces. Characters outside ASCII stand for themselves.
-/

namespace SieveRules

namespace Json

def escapeChar (c : Char) : List Char :=
  if c = '"' then ['\\', '"']
  else if c = '\\' then ['\\', '\\']
  else if c = '\x08' then ['\\', 'b']
  else if c = '\x0c' then ['\\', 'f']
  else if c = '\n' then ['\\', 'n']
  else if c = '\r' then ['\\', 'r']
  else if c = '\t' then ['\\', 't']
  else if c.toNat < 0x20 then
    ['\\', 'u', '0', '0', Nat.digitChar (c.toNat / 16), Nat.digitChar (c.toNat % 16)]
  else [c]

def quoteText (s : String) : String :=
  "\"" ++ String.ofList (s.toList.flatMap escapeChar) ++ "\""

def scalarText : Json → String
  | null => "null"
  | bool value => if value then "true" else "false"
  | number value => value.text
  | string value => quoteText (value.getD "")
  | array _ => "[]"
  | object _ => "\x7b\x7d"

mutual

def compact : Json → String
  | array (item :: rest) => "[" ++ item.compact ++ compactItems rest ++ "]"
  | object ((name, value) :: rest) =>
    "\x7b" ++ quoteText (name.getD "") ++ ":" ++ value.compact ++ compactMembers rest ++ "\x7d"
  | j => j.scalarText

def compactItems : List Json → String
  | [] => ""
  | item :: rest => "," ++ item.compact ++ compactItems rest

def compactMembers : List (Option String × Json) → String
  | [] => ""
  | (name, value) :: rest =>
    "," ++ quoteText (name.getD "") ++ ":" ++ value.compact ++ compactMembers rest

end

mutual

/-- The value over several lines, the later ones behind the given indent. -/
def prettyAt (indent : String) : Json → String
  | array (item :: rest) =>
    let inner := indent ++ "  "
    "[\n" ++ inner ++ item.prettyAt inner ++ prettyItems inner rest ++ "\n" ++ indent ++ "]"
  | object ((name, value) :: rest) =>
    let inner := indent ++ "  "
    "\x7b\n" ++ inner ++ quoteText (name.getD "") ++ ": " ++ value.prettyAt inner ++
      prettyMembers inner rest ++ "\n" ++ indent ++ "\x7d"
  | j => j.scalarText

def prettyItems (indent : String) : List Json → String
  | [] => ""
  | item :: rest => ",\n" ++ indent ++ item.prettyAt indent ++ prettyItems indent rest

def prettyMembers (indent : String) : List (Option String × Json) → String
  | [] => ""
  | (name, value) :: rest =>
    ",\n" ++ indent ++ quoteText (name.getD "") ++ ": " ++ value.prettyAt indent ++
      prettyMembers indent rest

end

def pretty (j : Json) : String :=
  j.prettyAt ""

end Json

end SieveRules
