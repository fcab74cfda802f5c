import ImpFront.Tree.Basic
import ImpFront.Tree.Cursor

/-! Reading syntax trees by recursive descent with one token of lookahead. A failed reader leaves
the cursor at the token it fails on. Loops and nesting are bounded by the number of tokens left,
since each round and each level reads at least one. Binary operators nest to the right: `1 + 2 + 3`
is `1 + (2 + 3)`. -/

namespace ImpFront

abbrev Reader := EStateM SyntaxError Cursor

namespace Reader

def peek : Reader Token := fun c => .ok c.current c

def here : Reader Nat := fun c => .ok c.pos c

def skip : Reader Unit := fun c => .ok () c.advance

def fail {α : Type} (e : Expected) : Reader α := fun c => .error ⟨e, c.pos, c.current⟩ c

def expect (ch : Char) (e : Expected) : Reader Unit := do
  if (← peek) = .char ch then skip else fail e

def type (e : Expected) : Reader Ty := do
  match ← peek with
  | .type ty => skip; return ty
  | _ => fail e

def ident (e : Expected) : Reader String := do
  match ← peek with
  | .ident name => skip; return name
  | _ => fail e

/-- Gives a reader a bound above the number of tokens left. -/
def bounded {α : Type} (p : Nat → Reader α) : Reader α := fun c => p (c.rest.length + 1) c

def commaListUpTo {α : Type} (item : Reader α) : Nat → Reader (List α)
  | 0 => return []
  | n + 1 => do
    let a ← item
    if (← peek) = .char ',' then
      skip
      return a :: (← commaListUpTo item n)
    else return [a]

/-- One or more of something, separated by commas. -/
def commaList {α : Type} (item : Reader α) : Reader (List α) := bounded (commaListUpTo item)

/-- None or more of something, separated by commas, up to a closing parenthesis. -/
def listInParens {α : Type} (item : Reader α) (e : Expected) : Reader (List α) := do
  let xs ← if (← peek) = .char ')' then pure [] else commaList item
  expect ')' e
  return xs

/-- The operator that a token spells, if it is one of `ops`. -/
def operator? (ops : List BinOp) : Token → Option BinOp
  | .char c => (BinOp.ofChar? c).filter (· ∈ ops)
  | _ => none

def chainUpTo (ops : List BinOp) (operand : Reader Expr) : Nat → Reader Expr
  | 0 => operand
  | n + 1 => do
    let left ← operand
    match operator? ops (← peek) with
    | some op =>
      skip
      let right ← chainUpTo ops operand n
      return .binary left.pos op left right
    | none => return left

/-- Operands joined by operators of one level. -/
def chain (ops : List BinOp) (operand : Reader Expr) : Reader Expr :=
  bounded (chainUpTo ops operand)

/-- An expression made of the given factors: `*` binds tightest, then `+` and `-`, then `<`. -/
def expression (factor : Reader Expr) : Reader Expr :=
  chain [.less] (chain [.add, .sub] (chain [.mul] factor))

/-- A factor; `n` bounds how deep it nests. -/
def factor : Nat → Reader Expr
  | 0 => fail .factor
  | n + 1 => do
    let pos ← here
    match ← peek with
    | .char '(' =>
      skip
      let e ← expression (factor n)
      expect ')' .groupClose
      return e
    | .ident name =>
      skip
      if (← peek) = .char '(' then
        skip
        return .call pos name (← listInParens (expression (factor n)) .argumentsClose)
      else return .var pos name
    | .int value => skip; return .int pos value
    | .double value => skip; return .double pos value
    | _ => fail .factor

end Reader

open Reader

def Expr.parse : Reader Expr := bounded fun n => expression (factor n)

/-- A condition in parentheses. -/
def Expr.parseCondition (after : Keyword) : Reader Expr := do
  expect '(' (.conditionOpen after)
  let cond ← Expr.parse
  expect ')' .conditionClose
  return cond

namespace Stmt

def parseDeclaration : Reader Stmt := do
  let pos ← here
  let ty ← type .type
  return .declaration pos ty (← commaList (ident .identifier))

def parseAssignment : Reader Stmt := do
  let pos ← here
  let target ← ident .statement
  expect '=' .assignment
  return .assignment pos target (← Expr.parse)

/-- A return, from its keyword on. -/
def parseReturn : Reader Stmt := do
  let pos ← here
  skip
  return .ret pos (← Expr.parse)

end Stmt

namespace Reader

def untilBrace (statement : Reader Stmt) : Nat → Reader (List Stmt)
  | 0 => return []
  | n + 1 => do
    if (← peek) = .char '}' then return []
    else
      let s ← statement
      return s :: (← untilBrace statement n)

/-- A block of the given statements; `e` is expected in place of a missing brace. -/
def block (statement : Reader Stmt) (e : Expected) : Reader Block := do
  let pos ← here
  expect '{' e
  let statements ← bounded (untilBrace statement)
  skip
  return .mk pos statements

def ifElseUpTo (statement : Reader Stmt) : Nat → Reader Stmt
  | 0 => fail .statement
  | n + 1 => do
    let pos ← here
    skip
    let cond ← Expr.parseCondition .ifKw
    let yes ← block statement .block
    if (← peek) = .keyword .elseKw then
      skip
      if (← peek) = .keyword .ifKw then
        let nested ← here
        return .ifElse pos cond yes (.mk nested [← ifElseUpTo statement n])
      else return .ifElse pos cond yes (← block statement .block)
    else return .ifElse pos cond yes (.mk (← here) [])

/-- A conditional, from its keyword on. Without `else` the second block is empty. -/
def ifElse (statement : Reader Stmt) : Reader Stmt := bounded (ifElseUpTo statement)

/-- A loop, from its keyword on. -/
def loop (statement : Reader Stmt) : Reader Stmt := do
  let pos ← here
  skip
  let cond ← Expr.parseCondition .whileKw
  return .loop pos cond (← block statement .block)

/-- A simple statement with the semicolon that ends it. -/
def ended (simple : Reader Stmt) : Reader Stmt := do
  let s ← simple
  expect ';' .statementEnd
  return s

/-- A statement; `n` bounds how deep it nests. -/
def statement : Nat → Reader Stmt
  | 0 => fail .statement
  | n + 1 => do
    match ← peek with
    | .ident _ => ended Stmt.parseAssignment
    | .type _ => ended Stmt.parseDeclaration
    | .keyword .returnKw => ended Stmt.parseReturn
    | .keyword .ifKw => ifElse (statement n)
    | .keyword .whileKw => loop (statement n)
    | .char '{' => return .block (← block (statement n) .block)
    | _ => fail .statement

end Reader

def Stmt.parse : Reader Stmt := bounded statement

def Stmt.parseIf : Reader Stmt := Reader.ifElse Stmt.parse

def Stmt.parseWhile : Reader Stmt := Reader.loop Stmt.parse

def Block.parse (e : Expected) : Reader Block := block Stmt.parse e

def Param.parse : Reader Param := do
  let pos ← here
  let ty ← type .paramType
  let name ← ident .paramName
  return ⟨pos, name, ty⟩

namespace Prototype

def parse : Reader Prototype := do
  let pos ← here
  let ret ← type .type
  let name ← ident .functionName
  expect '(' .paramsOpen
  let params ← listInParens Param.parse .paramsClose
  return ⟨pos, name, params, ret⟩

/-- The prototype of an external function, from the keyword before it to the semicolon after it. -/
def parseExternal : Reader Prototype := do
  skip
  let p ← parse
  expect ';' .externalEnd
  return p

end Prototype

def Definition.parse : Reader Definition := do
  let pos ← here
  let prototype ← Prototype.parse
  let body ← Block.parse .functionBody
  return ⟨pos, prototype, body⟩

def Item.parse : Reader Item := do
  match ← peek with
  | .type _ => return .definition (← Definition.parse)
  | .keyword .externKw => return .external (← Prototype.parseExternal)
  | _ => fail .item

namespace Reader

def itemsUpTo : Nat → Reader (List Item)
  | 0 => return []
  | n + 1 => do
    if (← peek) = .eof then return []
    else
      let item ← Item.parse
      return item :: (← itemsUpTo n)

end Reader

/-- The items of a whole source, or its first syntax error. -/
def parse (source : String) : Except SyntaxError (List Item) :=
  match bounded itemsUpTo (Cursor.ofSource source) with
  | .ok items _ => .ok items
  | .error e _ => .error e

end ImpFront
