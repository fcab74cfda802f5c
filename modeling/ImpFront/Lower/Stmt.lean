import ImpFront.Lower.Expr
import ImpFront.Tree.Print

/-! Lowering of statements. Each scope releases its heap cells where control leaves it: at the end
of its block, and at a return, which releases those of all scopes but the one it returns. What
follows a return in its block is not lowered. -/

namespace ImpFront

open Lower

variable {σ : Type} [Emitter σ]

namespace Lower

def declareNames (pos : Nat) (ty : Ty) : List String → Lower σ Unit
  | [] => pure ()
  | name :: names => do
    if (← scopes).isDeclared name then fail pos (.redeclared name)
    else
      let storage ← match ty with
        | .pointer p => emit (.heapAlloc p name)
        | .plain p => emit (.stackAlloc p name)
      declare pos name ⟨storage, ty, ty.isPointer⟩
      declareNames pos ty names

/-- Assignment to a pointer variable copies what the pointers point to. -/
def assign (pos : Nat) (target : String) (value : Expr) : Lower σ Unit := do
  let l ← resolve pos target
  let t ← value.lower
  let v ← coerceTo pos t l.ty
  let v ← match l.ty with
    | .pointer p => emit (.load p v)
    | .plain _ => pure v
  emit (.store v l.storage)
  releaseTemporaries

/-- The declaration whose heap cell a return hands out: that of the returned variable, if its frame
owns a cell. -/
def sparedBy (s : Scopes Value) (value : Expr) : Option (Nat × String) :=
  value.var?.bind fun name => (s.lookup name).bind fun (index, l) =>
    if l.heap then some (index, name) else none

/-- What a function gives back. A returned pointer is always a cell of the caller's own: that of a
call is handed on, that of a local is spared, any other is copied. -/
def result (ret : Ty) (value : Expr) (spared : Bool) (v : Value) : Lower σ Value :=
  match ret with
  | .plain _ => return v
  | .pointer p => do
    if value.isCall then
      dropTemporary
      return v
    else if spared then return v
    else copyToHeap p v

def giveBack (pos : Nat) (value : Expr) : Lower σ Unit := do
  let ret := (← current).ret
  let spared := sparedBy (← scopes) value
  let t ← value.lower
  let v ← coerceTo pos t ret
  let v ← result ret value spared.isSome v
  releaseTemporaries
  release ((← scopes).releases spared)
  emit (.ret v)

def branchUnlessTerminated (target : BlockRef) : Lower σ Unit := do
  unless ← emit .isTerminated do
    emit (.branch target)

/-- Leaves a block's scope and releases what it owns, if control gets there. -/
def leaveScope : Lower σ Unit := do
  let frame ← popScope
  unless ← emit .isTerminated do
    let cells := Frame.handles frame
    unless cells.isEmpty do
      comment ("release " ++ toString cells.length ++ " heap cells")
    release cells

/-- A condition, ready to branch on. -/
def test (cond : Expr) : Lower σ Value := do
  let t ← cond.lower
  let v ← condition t
  releaseTemporaries
  return v

end Lower

mutual

def Stmt.lower : Stmt → Lower σ Unit
  | .declaration pos ty names => do
    comment ((Stmt.declaration pos ty names).printAt 0)
    declareNames pos ty names
  | .assignment pos target value => do
    comment ((Stmt.assignment pos target value).printAt 0)
    assign pos target value
  | .ret pos value => do
    comment ((Stmt.ret pos value).printAt 0)
    giveBack pos value
  | .ifElse _ cond yes no => do
    comment ("if (" ++ cond.print ++ ")")
    let f := (← current).function
    let v ← test cond
    let yesBlock ← emit (.appendBlock f "then")
    let noBlock ← emit (.appendBlock f "else")
    let after ← emit (.appendBlock f "ifcont")
    emit (.condBranch v yesBlock noBlock)
    emit (.positionAtEnd yesBlock)
    yes.lower
    branchUnlessTerminated after
    emit (.positionAtEnd noBlock)
    no.lower
    branchUnlessTerminated after
    emit (.positionAtEnd after)
  | .loop _ cond body => do
    comment ("while (" ++ cond.print ++ ")")
    let f := (← current).function
    let condBlock ← emit (.appendBlock f "while")
    let bodyBlock ← emit (.appendBlock f "loop")
    let after ← emit (.appendBlock f "cont")
    branchUnlessTerminated condBlock
    emit (.positionAtEnd condBlock)
    let v ← test cond
    emit (.condBranch v bodyBlock after)
    emit (.positionAtEnd bodyBlock)
    body.lower
    branchUnlessTerminated condBlock
    emit (.positionAtEnd after)
  | .block body => body.lower

def Block.lower : Block → Lower σ Unit
  | .mk _ statements => do
    pushScope
    Stmt.lowerList statements
    leaveScope

/-- Statements in order, up to one that control does not get past. -/
def Stmt.lowerList : List Stmt → Lower σ Unit
  | [] => pure ()
  | s :: ss => do
    if ← emit .isTerminated then
      comment (toString (ss.length + 1) ++ " unreachable statements")
    else
      s.lower
      Stmt.lowerList ss

end

end ImpFront
