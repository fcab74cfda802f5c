import Mathlib
import ImpFront.Proofs.Machine

/-! What a tree means, apart from any code: trees run on an environment and a memory, with the same
world around them as code has. Storage is taken and never given back. A run that meets an unknown
name, data of a wrong kind or a bad address has no result; only loops may run forever, and `rounds`
bounds each of them. -/

namespace ImpFront

/-- The declarations that are in force, the innermost first: the type and the storage of each name.
The storage of a pointer is the pointer itself. -/
abbrev Env := List (String × Ty × Datum)

/-- Data of some type used as plain data: a truth value counts as a number, a pointer as what it
points to. -/
def plain? (m : Memory) (v : Datum) : ValTy → Option (Datum × Prim)
  | .plain p => some (v, p)
  | .bool =>
    match v with
    | .bool b => some (.int (if b then 1 else 0), .int)
    | _ => none
  | .pointer p => (m.read? p v).map fun c => (c, p)

/-- Conversion between kinds of plain data. Integers are unsigned. -/
def convert? (W : World) : Prim → Prim → Datum → Option Datum
  | .int, .int, .int a => some (.int a)
  | .double, .double, .double x => some (.double x)
  | .int, .double, .int a => some (.double (W.ofNat a.toNat))
  | .double, .int, .double x => some (.int (BitVec.ofNat 32 (W.toNat x)))
  | _, _, _ => none

/-- Conversion to a declared type. -/
def coerce? (W : World) (m : Memory) (v : Datum) (t : ValTy) : Ty → Option Datum
  | .plain q => do
    let (c, p) ← plain? m v t
    convert? W p q c
  | .pointer p => if t = .pointer p then some v else none

/-- Integers wrap around and are compared as unsigned numbers. -/
def BinOp.result? (W : World) : BinOp → Datum → Datum → Option Datum
  | .add, .int a, .int b => some (.int (a + b))
  | .sub, .int a, .int b => some (.int (a - b))
  | .mul, .int a, .int b => some (.int (a * b))
  | .less, .int a, .int b => some (.bool (decide (a.toNat < b.toNat)))
  | .add, .double x, .double y => some (.double (W.add x y))
  | .sub, .double x, .double y => some (.double (W.sub x y))
  | .mul, .double x, .double y => some (.double (W.mul x y))
  | .less, .double x, .double y => some (.bool (W.less x y))
  | _, _, _ => none

/-- Whether data counts as true in a condition. -/
def truth? (W : World) (m : Memory) (v : Datum) (t : ValTy) : Option Bool :=
  match t, v with
  | .bool, .bool b => some b
  | _, _ => do
    let (c, p) ← plain? m v t
    match p, c with
    | .int, .int a => some (a != 0)
    | .double, .double x => some (W.differ x .zero)
    | _, _ => none

mutual

/-- The value of an expression, its type, and the memory behind it. Operands are evaluated from left
to right, and pointer operands are read when both are known. -/
def Expr.eval (W : World) (Γ : String → Option Signature) (env : Env) :
    Expr → Memory → Option (Datum × ValTy × Memory)
  | .int _ value, m => some (.int value, .plain .int, m)
  | .double _ value, m => some (.double value, .plain .double, m)
  | .var _ name, m => do
    let (ty, a) ← env.lookup name
    match ty with
    | .plain p => (m.read? p a).map fun c => (c, .plain p, m)
    | .pointer p => some (a, .pointer p, m)
  | .binary _ op left right, m => do
    let (x, t, m) ← left.eval W Γ env m
    let (y, u, m) ← right.eval W Γ env m
    let (x, p) ← plain? m x t
    let (y, q) ← plain? m y u
    let kind := if p = .double ∨ q = .double then .double else .int
    let x ← convert? W p kind x
    let y ← convert? W q kind y
    let v ← op.result? W x y
    return (v, if op = .less then .bool else .plain kind, m)
  | .call _ callee args, m => do
    let signature ← Γ callee
    let (values, m) ← Expr.evalArgs W Γ env args signature.params m
    let (v, heap) := W.call callee values m.heap
    if v.hasTy signature.ret then some (v, .ofTy signature.ret, { m with heap }) else none

/-- Each argument is converted before the next is evaluated. -/
def Expr.evalArgs (W : World) (Γ : String → Option Signature) (env : Env) :
    List Expr → List Ty → Memory → Option (List Datum × Memory)
  | [], [], m => some ([], m)
  | e :: es, ty :: tys, m => do
    let (v, t, m) ← e.eval W Γ env m
    let v ← coerce? W m v t ty
    let (vs, m) ← Expr.evalArgs W Γ env es tys m
    return (v :: vs, m)
  | _, _, _ => none

end

/-- How a statement ends: the next one runs with these declarations, or the function gives back
plain data or, where it returns a pointer, what the cell behind it holds. -/
inductive Flow where
  | next (env : Env) (memory : Memory)
  | returned (result : Datum) (memory : Memory)

/-- New storage for a declared name. -/
def Memory.allocate (W : World) (m : Memory) : Ty → Datum × Memory
  | .plain p => m.pushSlot (W.fresh m p)
  | .pointer p => m.pushCell (W.fresh m p)

/-- Declares names one after another. -/
def Env.declare (W : World) (ty : Ty) : List String → Env → Memory → Env × Memory
  | [], env, m => (env, m)
  | name :: names, env, m =>
    let (a, m) := m.allocate W ty
    Env.declare W ty names ((name, ty, a) :: env) m

/-- What is copied by an assignment or a return: plain data, or what a pointer points to. -/
def content? (m : Memory) (v : Datum) : Ty → Option Datum
  | .plain _ => some v
  | .pointer p => m.read? p v

/-- The rounds of a loop. -/
def iterate (test : Memory → Option (Bool × Memory)) (body : Memory → Option Flow) (env : Env) :
    Nat → Memory → Option Flow
  | 0, _ => none
  | rounds + 1, m => do
    let (b, m) ← test m
    if b then
      match ← body m with
      | .next _ m => iterate test body env rounds m
      | .returned v m => some (.returned v m)
    else some (.next env m)

def Expr.test (W : World) (Γ : String → Option Signature) (env : Env) (cond : Expr) (m : Memory) :
    Option (Bool × Memory) := do
  let (v, t, m) ← cond.eval W Γ env m
  let b ← truth? W m v t
  return (b, m)

mutual

/-- A statement of a function that returns `ret`. -/
def Stmt.exec (W : World) (Γ : String → Option Signature) (ret : Ty) (rounds : Nat) :
    Stmt → Env → Memory → Option Flow
  | .declaration _ ty names, env, m =>
    let (env, m) := env.declare W ty names m
    some (.next env m)
  | .assignment _ target value, env, m => do
    let (ty, a) ← env.lookup target
    let (v, t, m) ← value.eval W Γ env m
    let v ← coerce? W m v t ty
    let c ← content? m v ty
    let m ← m.write? c a
    return .next env m
  | .ret _ value, env, m => do
    let (v, t, m) ← value.eval W Γ env m
    let v ← coerce? W m v t ret
    let c ← content? m v ret
    return .returned c m
  | .ifElse _ cond yes no, env, m => do
    let (b, m) ← cond.test W Γ env m
    if b then yes.exec W Γ ret rounds env m else no.exec W Γ ret rounds env m
  | .loop _ cond body, env, m =>
    iterate (cond.test W Γ env) (fun m => body.exec W Γ ret rounds env m) env rounds m
  | .block body, env, m => body.exec W Γ ret rounds env m

/-- The declarations of a block end with it. -/
def Block.exec (W : World) (Γ : String → Option Signature) (ret : Ty) (rounds : Nat) :
    Block → Env → Memory → Option Flow
  | .mk _ statements, env, m => do
    match ← Stmt.execList W Γ ret rounds statements env m with
    | .next _ m => some (.next env m)
    | .returned v m => some (.returned v m)

def Stmt.execList (W : World) (Γ : String → Option Signature) (ret : Ty) (rounds : Nat) :
    List Stmt → Env → Memory → Option Flow
  | [], env, m => some (.next env m)
  | s :: ss, env, m => do
    match ← s.exec W Γ ret rounds env m with
    | .next env m => Stmt.execList W Γ ret rounds ss env m
    | .returned v m => some (.returned v m)

end

/-- Binds parameters to arguments. Plain data is copied to a slot. -/
def Env.bind? : List Param → List Datum → Env → Memory → Option (Env × Memory)
  | [], [], env, m => some (env, m)
  | p :: ps, v :: vs, env, m =>
    match p.ty with
    | .plain _ =>
      let (a, m) := m.pushSlot v
      Env.bind? ps vs ((p.name, p.ty, a) :: env) m
    | .pointer _ => Env.bind? ps vs ((p.name, p.ty, v) :: env) m
  | _, _, _, _ => none

def Prim.zeroDatum : Prim → Datum
  | .int => .int 0
  | .double => .double .zero

/-- A call of a defined function: its result and the heap behind it. -/
def Definition.run (W : World) (Γ : String → Option Signature) (rounds : Nat) (d : Definition)
    (args heap : List Datum) :
    Option (Datum × List Datum) := do
  let (env, m) ← Env.bind? d.prototype.params args [] ⟨[], heap⟩
  match ← Stmt.execList W Γ d.prototype.ret rounds d.body.statements env m with
  | .returned v m => some (v, m.heap)
  | .next _ m =>
    match d.prototype.ret with
    | .plain p => some (p.zeroDatum, m.heap)
    | .pointer _ => none

end ImpFront
