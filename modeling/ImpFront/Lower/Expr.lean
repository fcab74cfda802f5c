import ImpFront.Lower.Convert

/-! Lowering of expressions, operands and arguments from left to right. A pointer variable gives the
pointer itself. A heap cell that a call returns becomes a temporary of the statement. -/

namespace ImpFront

open Lower

variable {σ : Type} [Emitter σ]

namespace Lower

/-- The operation on plain data: on doubles if either operand is one. -/
def combine (op : BinOp) (left right : Typed) : Lower σ Typed := do
  let (l, lp) ← toPrim left
  let (r, rp) ← toPrim right
  let p := if lp = .double ∨ rp = .double then Prim.double else .int
  let l ← coerce ⟨l, .plain lp⟩ p
  let r ← coerce ⟨r, .plain rp⟩ p
  match op with
  | .add => return ⟨← emit (.arith .add p l r), .plain p⟩
  | .sub => return ⟨← emit (.arith .sub p l r), .plain p⟩
  | .mul => return ⟨← emit (.arith .mul p l r), .plain p⟩
  | .less => return ⟨← emit (.compare .lt p l r), .bool⟩

/-- A declared variable as a value. -/
def read (l : Local Value) : Lower σ Typed :=
  match l.ty with
  | .pointer p => return ⟨l.storage, .pointer p⟩
  | .plain p => return ⟨← emit (.load p l.storage), .plain p⟩

/-- A call whose arguments are lowered already. -/
def call (pos : Nat) (callee : String) (ret : Ty) (args : List Value) : Lower σ Typed := do
  let f ← functionHandle pos callee
  let value ← emit (.call f args)
  if ret.isPointer then pushTemporary value
  return ⟨value, .ofTy ret⟩

end Lower

mutual

def Expr.lower : Expr → Lower σ Typed
  | .int _ value => return ⟨← emit (.constInt value), .plain .int⟩
  | .double _ value => return ⟨← emit (.constDouble value), .plain .double⟩
  | .var pos name => do read (← resolve pos name)
  | .binary _ op left right => do
    let l ← left.lower
    let r ← right.lower
    combine op l r
  | .call pos callee args => do
    let signature ← signatureOf pos callee
    if signature.params.length ≠ args.length then
      fail pos (.argumentCount callee signature.params.length args.length)
    else
      let values ← Expr.lowerArgs args signature.params
      Lower.call pos callee signature.ret values

/-- Each argument is converted to its parameter's type before the next one is lowered. -/
def Expr.lowerArgs : List Expr → List Ty → Lower σ (List Value)
  | e :: es, ty :: tys => do
    let t ← e.lower
    let value ← coerceTo e.pos t ty
    let values ← Expr.lowerArgs es tys
    return value :: values
  | _, _ => return []

end

end ImpFront
