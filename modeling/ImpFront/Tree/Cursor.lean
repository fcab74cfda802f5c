import ImpFront.Token.Scan

/-! A reader's place among the tokens of a source, and the errors it can meet there. -/

namespace ImpFront

/-- The tokens not yet read. -/
structure Cursor where
  rest : List Placed
  /-- Where the source ends. -/
  stop : Nat
  /-- Braces read and not yet closed. -/
  depth : Nat
  deriving DecidableEq, Repr

/-- The brace depth behind a token; a closing brace too many does not count. -/
def depthAfter (depth : Nat) (t : Token) : Nat :=
  if t = .char '{' then depth + 1
  else if t = .char '}' then depth - 1
  else depth

/-- Items start with a type or with `extern`. -/
def Token.startsItem : Token → Bool
  | .type _ => true
  | .keyword .externKw => true
  | _ => false

namespace Cursor

def ofSource (source : String) : Cursor := ⟨tokens source, byteSize source.toList, 0⟩

def current (c : Cursor) : Token :=
  match c.rest with
  | [] => .eof
  | t :: _ => t.token

def pos (c : Cursor) : Nat :=
  match c.rest with
  | [] => c.stop
  | t :: _ => t.pos

def advance (c : Cursor) : Cursor :=
  match c.rest with
  | [] => c
  | t :: ts => { c with rest := ts, depth := depthAfter c.depth t.token }

/-- Skips to the first token outside of braces that can start an item. -/
def skipToItem : List Placed → Nat → List Placed × Nat
  | [], depth => ([], depth)
  | t :: ts, depth =>
    if depth = 0 ∧ t.token.startsItem then (t :: ts, depth)
      else skipToItem ts (depthAfter depth t.token)

/-- Leaves an abandoned item behind. -/
def synchronize (c : Cursor) : Cursor :=
  let (rest, depth) := skipToItem c.rest c.depth
  { c with rest, depth }

theorem length_advance_le (c : Cursor) : c.advance.rest.length ≤ c.rest.length := by
  unfold advance
  split
  · exact Nat.le_refl _
  · simp_all

theorem length_advance_lt {c : Cursor} (h : c.current ≠ .eof) :
    c.advance.rest.length < c.rest.length := by
  unfold advance
  split
  · simp_all [current]
  · simp_all

end Cursor

/-- What a reader expects and does not find. -/
inductive Expected where
  | item
  | type
  | functionName
  | paramsOpen
  | paramType
  | paramName
  | paramsClose
  | externalEnd
  | functionBody
  | block
  | conditionOpen (after : Keyword)
  | conditionClose
  | statement
  | statementEnd
  | identifier
  | assignment
  | groupClose
  | factor
  | argumentsClose
  deriving DecidableEq, Repr

def Expected.text : Expected → String
  | .item => "Invalid input"
  | .type => "Expected type declaration"
  | .functionName => "Expected function name in prototype"
  | .paramsOpen => "Expected '(' in prototype"
  | .paramType => "Expected param type in prototype"
  | .paramName => "Expected param name in prototype"
  | .paramsClose => "Expected ')' in prototype"
  | .externalEnd => "Expected ';' in global declaration"
  | .functionBody => "Expected '\x7b' in function"
  | .block => "Expected '\x7b' to open block"
  | .conditionOpen k => "Expected '(' after " ++ Token.quoted k.text
  | .conditionClose => "Expected ')' after condition"
  | .statement => "Expected statement"
  | .statementEnd => "Expected ';' after statement"
  | .identifier => "Expected identifier in declaration"
  | .assignment => "Expected '=' in simple statement"
  | .groupClose => "Expected ')'"
  | .factor => "Expected a factor"
  | .argumentsClose => "Expected ')' in callee"

structure SyntaxError where
  expected : Expected
  pos : Nat
  found : Token
  deriving DecidableEq, Repr

def SyntaxError.message (e : SyntaxError) : String := e.expected.text ++ ", found " ++ e.found.text

end ImpFront
