import ImpFront.Ty
import ImpFront.Number.Double

/-! Syntax trees. Every node but an item keeps the byte offset at which it starts in its source. -/

namespace ImpFront

inductive BinOp where
  | add
  | sub
  | mul
  | less
  deriving DecidableEq, Repr

namespace BinOp

def toChar : BinOp → Char
  | .add => '+'
  | .sub => '-'
  | .mul => '*'
  | .less => '<'

def ofChar? (c : Char) : Option BinOp := [add, sub, mul, less].find? fun op => op.toChar = c

theorem ofChar?_toChar (op : BinOp) : ofChar? op.toChar = some op := by
  cases op <;> decide

end BinOp

inductive Expr where
  | int (pos : Nat) (value : Word)
  | double (pos : Nat) (value : Double)
  | var (pos : Nat) (name : String)
  | binary (pos : Nat) (op : BinOp) (left right : Expr)
  | call (pos : Nat) (callee : String) (args : List Expr)
  deriving Repr

namespace Expr

def pos : Expr → Nat
  | .int pos _ => pos
  | .double pos _ => pos
  | .var pos _ => pos
  | .binary pos _ _ _ => pos
  | .call pos _ _ => pos

def isBinary : Expr → Bool
  | .binary .. => true
  | _ => false

def isCall : Expr → Bool
  | .call .. => true
  | _ => false

/-- The name, if the expression is nothing but a variable. -/
def var? : Expr → Option String
  | .var _ name => some name
  | _ => none

end Expr

mutual

inductive Stmt where
  | declaration (pos : Nat) (ty : Ty) (names : List String)
  | assignment (pos : Nat) (target : String) (value : Expr)
  | ret (pos : Nat) (value : Expr)
  | ifElse (pos : Nat) (cond : Expr) (yes no : Block)
  | loop (pos : Nat) (cond : Expr) (body : Block)
  | block (body : Block)
  deriving Repr

inductive Block where
  | mk (pos : Nat) (statements : List Stmt)
  deriving Repr

end

namespace Block

def pos : Block → Nat
  | .mk pos _ => pos

def statements : Block → List Stmt
  | .mk _ statements => statements

end Block

structure Param where
  pos : Nat
  name : String
  ty : Ty
  deriving DecidableEq, Repr

structure Prototype where
  pos : Nat
  name : String
  params : List Param
  ret : Ty
  deriving DecidableEq, Repr

def Prototype.signature (p : Prototype) : Signature := ⟨p.params.map Param.ty, p.ret⟩

structure Definition where
  pos : Nat
  prototype : Prototype
  body : Block
  deriving Repr

inductive Item where
  | external (prototype : Prototype)
  | definition (definition : Definition)
  deriving Repr

namespace Item

def external? : Item → Option Prototype
  | .external p => some p
  | .definition _ => none

def definition? : Item → Option Definition
  | .external _ => none
  | .definition d => some d

end Item

end ImpFront
