import ImpFront.Ty
import ImpFront.Number.Shortest

/-! Tokens and the texts that name them in messages. -/

namespace ImpFront

/-- The reserved words that are not types. -/
inductive Keyword where
  | externKw
  | returnKw
  | ifKw
  | elseKw
  | whileKw
  deriving DecidableEq, Repr

namespace Keyword

def text : Keyword → String
  | .externKw => "extern"
  | .returnKw => "return"
  | .ifKw => "if"
  | .elseKw => "else"
  | .whileKw => "while"

def ofText? (word : String) : Option Keyword :=
  [externKw, returnKw, ifKw, elseKw, whileKw].find? fun k => k.text = word

theorem ofText?_text (k : Keyword) : ofText? k.text = some k := by
  cases k <;> decide

end Keyword

/-- A character as messages show it: control characters, quotes and the backslash are escaped, and
so is all that is not ASCII, by its number. -/
def escaped (c : Char) : String :=
  if c = '\t' then "\\t"
  else if c = '\r' then "\\r"
  else if c = '\n' then "\\n"
  else if c = '\x27' then "\\\x27"
  else if c = '\x22' then "\\\x22"
  else if c = '\x5c' then "\\\\"
  else if 0x20 ≤ c.toNat ∧ c.toNat ≤ 0x7e then c.toString
  else "\\u\x7b" ++ String.ofList (Nat.toDigits 16 c.toNat) ++ "\x7d"

inductive Token where
  | eof
  | type (ty : Ty)
  | keyword (k : Keyword)
  | ident (name : String)
  | int (value : Word)
  | double (value : Double)
  | char (c : Char)
  deriving DecidableEq, Repr

namespace Token

def quoted (s : String) : String := "\x27" ++ s ++ "\x27"

/-- The token as messages show it. -/
def text : Token → String
  | .eof => "end of input"
  | .type ty => "type " ++ quoted ty.keyword
  | .keyword k => quoted k.text
  | .ident name => "identifier " ++ quoted name
  | .int value => "integer " ++ toString value.toInt
  | .double value => "double " ++ value.text
  | .char c => quoted (escaped c)

def type? : Token → Option Ty
  | .type ty => some ty
  | _ => none

end Token

end ImpFront
