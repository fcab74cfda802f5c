import ImpFront.Lower.Signatures

/-! A checker for definitions. It knows the signatures of functions and the types of the variables
in scope, and nothing of the code that a definition is lowered to. It visits a tree in the order of
lowering and stops at the first violation. -/

namespace ImpFront

/-- The variables of one scope with their types, the last declared first. -/
abbrev TypeFrame := List (String × Ty)

/-- The type of the innermost declaration of a variable. -/
def TypeFrame.resolve (frames : List TypeFrame) (pos : Nat) (name : String) :
    Except LowerError Ty :=
  match frames.findSome? fun f => f.lookup name with
  | some ty => .ok ty
  | none => .error ⟨.unknownVariable name, pos⟩

def TypeFrame.declare (pos : Nat) (name : String) (ty : Ty) (f : TypeFrame) :
    Except LowerError TypeFrame :=
  if (f.lookup name).isSome then .error ⟨.redeclared name, pos⟩ else .ok ((name, ty) :: f)

def TypeFrame.declareAll (pos : Nat) (ty : Ty) :
    List String → TypeFrame → Except LowerError TypeFrame
  | [], f => .ok f
  | name :: names, f => do
    let f ← f.declare pos name ty
    TypeFrame.declareAll pos ty names f

def TypeFrame.bindParams : List Param → TypeFrame → Except LowerError TypeFrame
  | [], f => .ok f
  | p :: ps, f => do
    let f ← f.declare p.pos p.name p.ty
    TypeFrame.bindParams ps f

namespace ValTy

/-- The kind of plain data that a value stands for in an operation. -/
def prim : ValTy → Prim
  | .plain p | .pointer p => p
  | .bool => .int

/-- Plain data can be had from every value, a pointer only from one of the same type. -/
def fits (pos : Nat) (t : ValTy) : Ty → Except LowerError Unit
  | .plain _ => .ok ()
  | .pointer p =>
    if t = .pointer p then .ok () else .error ⟨.incompatiblePointer t (.pointer p), pos⟩

end ValTy

/-- The type of an operation: doubles if either operand is one, and truth values for a
comparison. -/
def BinOp.ty (t u : ValTy) : BinOp → ValTy
  | .less => .bool
  | .add | .sub | .mul => .plain (if t.prim = .double ∨ u.prim = .double then .double else .int)

mutual

def Expr.check (Γ : Signatures) (frames : List TypeFrame) : Expr → Except LowerError ValTy
  | .int .. => .ok (.plain .int)
  | .double .. => .ok (.plain .double)
  | .var pos name => do
    let ty ← TypeFrame.resolve frames pos name
    return .ofTy ty
  | .binary _ op left right => do
    let t ← left.check Γ frames
    let u ← right.check Γ frames
    return op.ty t u
  | .call pos callee args =>
    match Γ.find? callee with
    | none => .error ⟨.unknownFunction callee, pos⟩
    | some signature =>
      if signature.params.length ≠ args.length then
        .error ⟨.argumentCount callee signature.params.length args.length, pos⟩
      else do
        Expr.checkArgs Γ frames args signature.params
        return .ofTy signature.ret

def Expr.checkArgs (Γ : Signatures) (frames : List TypeFrame) :
    List Expr → List Ty → Except LowerError Unit
  | e :: es, ty :: tys => do
    let t ← e.check Γ frames
    t.fits e.pos ty
    Expr.checkArgs Γ frames es tys
  | _, _ => .ok ()

end

mutual

/-- Whether what follows in the same list is skipped: a return, or a block that has one in its own
list. Branches and loops never count. -/
def Stmt.ends : Stmt → Bool
  | .ret .. => true
  | .block body => body.ends
  | .declaration .. | .assignment .. | .ifElse .. | .loop .. => false

def Block.ends : Block → Bool
  | .mk _ statements => Stmt.listEnds statements

def Stmt.listEnds : List Stmt → Bool
  | [] => false
  | s :: ss => s.ends || Stmt.listEnds ss

end

mutual

/-- Checks a statement of a function that returns `ret`, inside the frames `outer`; the innermost
frame is the only one that it can change. -/
def Stmt.check (Γ : Signatures) (ret : Ty) (outer : List TypeFrame) (f : TypeFrame) :
    Stmt → Except LowerError TypeFrame
  | .declaration pos ty names => TypeFrame.declareAll pos ty names f
  | .assignment pos target value => do
    let ty ← TypeFrame.resolve (f :: outer) pos target
    let t ← value.check Γ (f :: outer)
    t.fits pos ty
    return f
  | .ret pos value => do
    let t ← value.check Γ (f :: outer)
    t.fits pos ret
    return f
  | .ifElse _ cond yes no => do
    let _ ← cond.check Γ (f :: outer)
    yes.check Γ ret (f :: outer)
    no.check Γ ret (f :: outer)
    return f
  | .loop _ cond body => do
    let _ ← cond.check Γ (f :: outer)
    body.check Γ ret (f :: outer)
    return f
  | .block body => do
    body.check Γ ret (f :: outer)
    return f

def Block.check (Γ : Signatures) (ret : Ty) (frames : List TypeFrame) :
    Block → Except LowerError Unit
  | .mk _ statements => Stmt.checkList Γ ret frames [] statements

def Stmt.checkList (Γ : Signatures) (ret : Ty) (outer : List TypeFrame) (f : TypeFrame) :
    List Stmt → Except LowerError Unit
  | [] => .ok ()
  | s :: ss => do
    let f ← s.check Γ ret outer f
    if s.ends then return () else Stmt.checkList Γ ret outer f ss

end

/-- Checks the parameters and the body of a definition under signatures that hold its own. -/
def Definition.check (Γ : Signatures) (d : Definition) : Except LowerError Unit := do
  let f ← TypeFrame.bindParams d.prototype.params []
  Stmt.checkList Γ d.prototype.ret [] f d.body.statements

end ImpFront
