import ImpFront.Proofs.Reading

/-! The readers without bounds. Each is given a budget of nested calls instead, and a run whose
budget is used up has no result at all. So what a reader does can be said by induction on the
budget, with nothing to keep account of; that the readers with bounds do the same is shown apart. -/

namespace ImpFront

/-- A reader with a budget: at a cursor it has a result, or none where its budget is used up. -/
abbrev Attempt := ExceptT SyntaxError (StateT Cursor Option)

namespace Attempt

open Reader

variable {α β : Type}

/-- The budget is used up. -/
def spent : Attempt α := fun _ => none

/-- A reader that needs no budget. -/
def ofReader (p : Reader α) : Attempt α := fun c =>
  match p c with
  | .ok a d => some (.ok a, d)
  | .error e d => some (.error e, d)

instance : MonadLift Reader Attempt := ⟨ofReader⟩

def commaList (item : Reader α) : Nat → Attempt (List α)
  | 0 => spent
  | n + 1 => do
    let a ← item
    if (← peek) = .char ',' then
      skip
      return a :: (← commaList item n)
    else return [a]

def listInParens (item : Reader α) (e : Expected) (n : Nat) : Attempt (List α) := do
  let xs ← if (← peek) = .char ')' then pure [] else commaList item n
  expect ')' e
  return xs

/-- The operators that bind loosest come first. -/
def levels : List (List BinOp) := [[.less], [.add, .sub], [.mul]]

mutual

/-- Operands of the tighter levels, joined by operators of the first one. -/
def chain : Nat → List (List BinOp) → Attempt Expr
  | 0, _ => spent
  | n + 1, [] => factor n
  | n + 1, ops :: tighter => do
    let left ← chain n tighter
    match operator? ops (← peek) with
    | some op =>
      skip
      let right ← chain n (ops :: tighter)
      return .binary left.pos op left right
    | none => return left

def factor : Nat → Attempt Expr
  | 0 => spent
  | n + 1 => do
    let pos ← here
    match ← peek with
    | .char '(' =>
      skip
      let e ← chain n levels
      expect ')' .groupClose
      return e
    | .ident name =>
      skip
      if (← peek) = .char '(' then
        skip
        return .call pos name (← argumentsInParens n)
      else return .var pos name
    | .int value => skip; return .int pos value
    | .double value => skip; return .double pos value
    | _ => ofReader (fail .factor)

def argumentsInParens : Nat → Attempt (List Expr)
  | 0 => spent
  | n + 1 => do
    let args ← if (← peek) = .char ')' then pure [] else arguments n
    expect ')' .argumentsClose
    return args

def arguments : Nat → Attempt (List Expr)
  | 0 => spent
  | n + 1 => do
    let a ← chain n levels
    if (← peek) = .char ',' then
      skip
      return a :: (← arguments n)
    else return [a]

end

def expression (n : Nat) : Attempt Expr := chain n levels

def condition (after : Keyword) (n : Nat) : Attempt Expr := do
  expect '(' (.conditionOpen after)
  let cond ← expression n
  expect ')' .conditionClose
  return cond

def declaration (n : Nat) : Attempt Stmt := do
  let pos ← here
  let ty ← type .type
  return .declaration pos ty (← commaList (ident .identifier) n)

def assignment (n : Nat) : Attempt Stmt := do
  let pos ← here
  let target ← ident .statement
  expect '=' .assignment
  return .assignment pos target (← expression n)

def returning (n : Nat) : Attempt Stmt := do
  let pos ← here
  skip
  return .ret pos (← expression n)

def ended (simple : Attempt Stmt) : Attempt Stmt := do
  let s ← simple
  expect ';' .statementEnd
  return s

mutual

def statement : Nat → Attempt Stmt
  | 0 => spent
  | n + 1 => do
    match ← peek with
    | .ident _ => ended (assignment n)
    | .type _ => ended (declaration n)
    | .keyword .returnKw => ended (returning n)
    | .keyword .ifKw => ifElse n
    | .keyword .whileKw => loop n
    | .char '{' => return .block (← block .block n)
    | _ => ofReader (fail .statement)

/-- Statements up to a closing brace. -/
def statements : Nat → Attempt (List Stmt)
  | 0 => spent
  | n + 1 => do
    if (← peek) = .char '}' then return []
    else
      let s ← statement n
      return s :: (← statements n)

def block (e : Expected) : Nat → Attempt Block
  | 0 => spent
  | n + 1 => do
    let pos ← here
    expect '{' e
    let ss ← statements n
    skip
    return .mk pos ss

def ifElse : Nat → Attempt Stmt
  | 0 => spent
  | n + 1 => do
    let pos ← here
    skip
    let cond ← condition .ifKw n
    let yes ← block .block n
    if (← peek) = .keyword .elseKw then
      skip
      if (← peek) = .keyword .ifKw then
        let nested ← here
        return .ifElse pos cond yes (.mk nested [← ifElse n])
      else return .ifElse pos cond yes (← block .block n)
    else return .ifElse pos cond yes (.mk (← here) [])

def loop : Nat → Attempt Stmt
  | 0 => spent
  | n + 1 => do
    let pos ← here
    skip
    let cond ← condition .whileKw n
    return .loop pos cond (← block .block n)

end

def prototype (n : Nat) : Attempt Prototype := do
  let pos ← here
  let ret ← type .type
  let name ← ident .functionName
  expect '(' .paramsOpen
  let params ← listInParens Param.parse .paramsClose n
  return ⟨pos, name, params, ret⟩

def external (n : Nat) : Attempt Prototype := do
  skip
  let p ← prototype n
  expect ';' .externalEnd
  return p

def definition (n : Nat) : Attempt Definition := do
  let pos ← here
  let prototype ← prototype n
  let body ← block .functionBody n
  return ⟨pos, prototype, body⟩

def item (n : Nat) : Attempt Item := do
  match ← peek with
  | .type _ => return .definition (← definition n)
  | .keyword .externKw => return .external (← external n)
  | _ => ofReader (fail .item)

/-- All items up to the end, or the first error. -/
def items : Nat → Attempt (List Item)
  | 0 => spent
  | n + 1 => do
    if (← peek) = .eof then return []
    else
      let i ← item n
      return i :: (← items n)

section Runs

variable {p : Attempt α} {k : α → Attempt β} {c d m : Cursor}

theorem bind_of_ok {a : α} (h : p c = some (.ok a, m)) : (p >>= k) c = k a m := by
  have hstep : (p >>= k) c = (p c).bind fun r => ExceptT.bindCont k r.1 r.2 := rfl
  rw [hstep, h]
  rfl

theorem bind_of_error {e : SyntaxError} (h : p c = some (.error e, m)) :
    (p >>= k) c = some (.error e, m) := by
  have hstep : (p >>= k) c = (p c).bind fun r => ExceptT.bindCont k r.1 r.2 := rfl
  rw [hstep, h]
  rfl

/-- A run of two readers ends with the failure of the first, or with the run of the second. -/
theorem bind_eq_some {r : Except SyntaxError β} (h : (p >>= k) c = some (r, d)) :
    (∃ e, p c = some (.error e, d) ∧ r = .error e) ∨
      ∃ a m, p c = some (.ok a, m) ∧ k a m = some (r, d) := by
  cases hp : p c with
  | none =>
    have hstep : (p >>= k) c = (p c).bind fun r => ExceptT.bindCont k r.1 r.2 := rfl
    rw [hstep, hp] at h
    cases h
  | some s =>
    obtain ⟨x, m⟩ := s
    cases x with
    | error e =>
      rw [bind_of_error hp] at h
      cases h
      exact .inl ⟨e, rfl, rfl⟩
    | ok a =>
      rw [bind_of_ok hp] at h
      exact .inr ⟨a, m, rfl, h⟩

end Runs

section Readers

variable {p : Reader α} {c d : Cursor}

theorem ofReader_eq_ok {a : α} : ofReader p c = some (.ok a, d) ↔ p c = .ok a d := by
  unfold ofReader
  cases p c <;> simp

theorem ofReader_eq_error {e : SyntaxError} :
    ofReader p c = some (.error e, d) ↔ p c = .error e d := by
  unfold ofReader
  cases p c <;> simp

theorem ofReader_bind (p : Reader α) (f : α → Reader β) :
    ofReader (p >>= f) = ofReader p >>= fun a => ofReader (f a) := by
  funext c
  cases h : p c with
  | ok a d =>
    rw [bind_of_ok (ofReader_eq_ok.2 h), ofReader, ImpFront.bind_of_ok h]
    rfl
  | error e d =>
    rw [bind_of_error (ofReader_eq_error.2 h), ofReader, ImpFront.bind_of_error h]

end Readers

end Attempt

end ImpFront
