import SieveRules.Text
/-!
The tokens of a script, how a message names them, and the ways in which reading a script fails.
-/

namespace SieveRules

/-- The lexical units of the filter language (RFC 5228, section 2). -/
inductive Token where
  /-- A tag such as `:is`, in lower case, with its colon. -/
  | tag (name : String)
  | identifier (name : String)
  | quoted (value : String)
  /-- A multi-line string, its dot-stuffing undone. -/
  | multiline (value : String)
  | number (digits : String)
  | comment
  | blockComment
  | semicolon
  | comma
  | lparen
  | rparen
  | lbrace
  | rbrace
  | lbracket
  | rbracket
  deriving DecidableEq, Repr

namespace Token

def describe : Token → String
  | tag name => "tag '" ++ name ++ "'"
  | identifier name => "identifier '" ++ name ++ "'"
  | quoted _ | multiline _ => "string"
  | number digits => "number " ++ digits
  | comment | blockComment => "comment"
  | semicolon => "';'"
  | comma => "','"
  | lparen => "'('"
  | rparen => "')'"
  | lbrace => "'\x7b'"
  | rbrace => "'\x7d'"
  | lbracket => "'['"
  | rbracket => "']'"

def value : Token → String
  | tag s | identifier s | quoted s | multiline s | number s => s
  | _ => ""

def isComment : Token → Bool
  | comment | blockComment => true
  | _ => false

def string? : Token → Option String
  | quoted s | multiline s => some s
  | _ => none

def punctuation? (c : Char) : Option Token :=
  if c = ';' then some semicolon
  else if c = ',' then some comma
  else if c = '(' then some lparen
  else if c = ')' then some rparen
  else if c = '{' then some lbrace
  else if c = '}' then some rbrace
  else if c = '[' then some lbracket
  else if c = ']' then some rbracket
  else none

end Token

/-- A token and the byte at which it starts. -/
structure Span where
  token : Token
  offset : Nat
  deriving DecidableEq, Repr

inductive Unclosed where
  | string
  | blockComment
  | multiline
  deriving DecidableEq, Repr

def Unclosed.describe : Unclosed → String
  | string => "string"
  | blockComment => "block comment"
  | multiline => "multi-line string"

inductive Expectation where
  | command
  | commandEnd
  | blockEnd
  | string
  | listEnd
  | test
  | testListEnd
  deriving DecidableEq, Repr

def Expectation.describe : Expectation → String
  | command => "command"
  | commandEnd => "';' or '\x7b'"
  | blockEnd => "'\x7d'"
  | string => "string"
  | listEnd => "',' or ']'"
  | test => "test"
  | testListEnd => "',' or ')'"

/-- The deepest nesting of tests and blocks that a script may have. -/
def maxDepth : Nat := 64

/-- Why a text gives no rules. Offsets count bytes. -/
inductive ScriptError where
  | unterminated (what : Unclosed) (offset : Nat)
  | unexpectedChar (c : Char) (offset : Nat)
  | expected (what : Expectation) (found : Token) (offset : Nat)
  | tooDeep (offset : Nat)
  | unexpectedEnd (what : Expectation)
  | noBlocks
  deriving DecidableEq, Repr

def ScriptError.message : ScriptError → String
  | unterminated what offset => "Unterminated " ++ what.describe ++ " at offset " ++ toString offset
  | unexpectedChar c offset =>
    "Unexpected character '" ++ String.singleton c ++ "' at offset " ++ toString offset
  | expected what found offset =>
    "Expected " ++ what.describe ++ " at offset " ++ toString offset ++ ", found " ++ found.describe
  | tooDeep offset =>
    "Nesting deeper than " ++ toString maxDepth ++ " levels at offset " ++ toString offset
  | unexpectedEnd what => "Unexpected end of input, expected " ++ what.describe
  | noBlocks => "No if/elsif blocks found"

end SieveRules
