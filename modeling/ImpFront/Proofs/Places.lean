import Mathlib
import ImpFront.Tree.Print

/-! Trees with their places moved. Places serve diagnostics only: a tree prints, declares and calls
the same wherever it stands. -/

namespace ImpFront

mutual

def Expr.mapPos (f : Nat → Nat) : Expr → Expr
  | .int pos value => .int (f pos) value
  | .double pos value => .double (f pos) value
  | .var pos name => .var (f pos) name
  | .binary pos op left right => .binary (f pos) op (left.mapPos f) (right.mapPos f)
  | .call pos callee args => .call (f pos) callee (Expr.mapPosList f args)

def Expr.mapPosList (f : Nat → Nat) : List Expr → List Expr
  | [] => []
  | e :: es => e.mapPos f :: Expr.mapPosList f es

end

mutual

def Stmt.mapPos (f : Nat → Nat) : Stmt → Stmt
  | .declaration pos ty names => .declaration (f pos) ty names
  | .assignment pos target value => .assignment (f pos) target (value.mapPos f)
  | .ret pos value => .ret (f pos) (value.mapPos f)
  | .ifElse pos cond yes no => .ifElse (f pos) (cond.mapPos f) (yes.mapPos f) (no.mapPos f)
  | .loop pos cond body => .loop (f pos) (cond.mapPos f) (body.mapPos f)
  | .block body => .block (body.mapPos f)

def Block.mapPos (f : Nat → Nat) : Block → Block
  | .mk pos statements => .mk (f pos) (Stmt.mapPosList f statements)

def Stmt.mapPosList (f : Nat → Nat) : List Stmt → List Stmt
  | [] => []
  | s :: ss => s.mapPos f :: Stmt.mapPosList f ss

end

def Param.mapPos (f : Nat → Nat) (p : Param) : Param := { p with pos := f p.pos }

def Prototype.mapPos (f : Nat → Nat) (p : Prototype) : Prototype :=
  { p with pos := f p.pos, params := p.params.map (Param.mapPos f) }

def Definition.mapPos (f : Nat → Nat) (d : Definition) : Definition :=
  ⟨f d.pos, d.prototype.mapPos f, d.body.mapPos f⟩

def Item.mapPos (f : Nat → Nat) : Item → Item
  | .external p => .external (p.mapPos f)
  | .definition d => .definition (d.mapPos f)

variable (f : Nat → Nat)

mutual

theorem Expr.mapPos_id : ∀ e : Expr, e.mapPos id = e
  | .int _ _ | .double _ _ | .var _ _ => rfl
  | .binary _ _ l r => by simp only [Expr.mapPos, id_eq, Expr.mapPos_id l, Expr.mapPos_id r]
  | .call _ _ args => by simp only [Expr.mapPos, id_eq, Expr.mapPosList_id args]

theorem Expr.mapPosList_id : ∀ es : List Expr, Expr.mapPosList id es = es
  | [] => rfl
  | e :: es => by simp only [Expr.mapPosList, Expr.mapPos_id e, Expr.mapPosList_id es]

end

mutual

theorem Stmt.mapPos_id : ∀ s : Stmt, s.mapPos id = s
  | .declaration _ _ _ => rfl
  | .assignment _ _ e | .ret _ e => by simp only [Stmt.mapPos, id_eq, e.mapPos_id]
  | .ifElse _ c yes no =>
    by simp only [Stmt.mapPos, id_eq, c.mapPos_id, yes.mapPos_id, no.mapPos_id]
  | .loop _ c body => by simp only [Stmt.mapPos, id_eq, c.mapPos_id, body.mapPos_id]
  | .block body => by simp only [Stmt.mapPos, body.mapPos_id]

theorem Block.mapPos_id : ∀ b : Block, b.mapPos id = b
  | .mk _ ss => by simp only [Block.mapPos, id_eq, Stmt.mapPosList_id ss]

theorem Stmt.mapPosList_id : ∀ ss : List Stmt, Stmt.mapPosList id ss = ss
  | [] => rfl
  | s :: ss => by simp only [Stmt.mapPosList, s.mapPos_id, Stmt.mapPosList_id ss]

end

theorem Prototype.mapPos_id (p : Prototype) : p.mapPos id = p := by
  have hparam : Param.mapPos id = id := rfl
  simp only [Prototype.mapPos, hparam, List.map_id, id_eq]

theorem Definition.mapPos_id (d : Definition) : d.mapPos id = d := by
  simp only [Definition.mapPos, id_eq, d.prototype.mapPos_id, d.body.mapPos_id]

@[simp] theorem Expr.pos_mapPos (e : Expr) : (e.mapPos f).pos = f e.pos := by
  cases e <;> rfl

@[simp] theorem Expr.isBinary_mapPos (e : Expr) : (e.mapPos f).isBinary = e.isBinary := by
  cases e <;> rfl

@[simp] theorem Expr.isCall_mapPos (e : Expr) : (e.mapPos f).isCall = e.isCall := by
  cases e <;> rfl

@[simp] theorem Expr.var?_mapPos (e : Expr) : (e.mapPos f).var? = e.var? := by
  cases e <;> rfl

@[simp] theorem Expr.length_mapPosList (es : List Expr) :
    (Expr.mapPosList f es).length = es.length := by
  induction es with
  | nil => rfl
  | cons e es ih => simp [Expr.mapPosList, ih]

@[simp] theorem Stmt.length_mapPosList (ss : List Stmt) :
    (Stmt.mapPosList f ss).length = ss.length := by
  induction ss with
  | nil => rfl
  | cons s ss ih => simp [Stmt.mapPosList, ih]

mutual

@[simp] theorem Expr.print_mapPos : ∀ e : Expr, (e.mapPos f).print = e.print
  | .int _ _ | .double _ _ | .var _ _ => rfl
  | .binary _ _ l r =>
    by simp only [Expr.mapPos, Expr.print, Expr.isBinary_mapPos, l.print_mapPos, r.print_mapPos]
  | .call _ _ args => by simp only [Expr.mapPos, Expr.print, Expr.printList_mapPosList args]

@[simp] theorem Expr.printList_mapPosList :
    ∀ es : List Expr, Expr.printList (Expr.mapPosList f es) = Expr.printList es
  | [] => rfl
  | e :: es =>
    by simp only [Expr.mapPosList, Expr.printList, e.print_mapPos, Expr.printList_mapPosList es]

end

@[simp] theorem Block.statements_mapPos (b : Block) :
    (b.mapPos f).statements = Stmt.mapPosList f b.statements := by
  cases b
  rfl

@[simp] theorem Prototype.signature_mapPos (p : Prototype) :
    (p.mapPos f).signature = p.signature := by
  have hty : Param.ty ∘ Param.mapPos f = Param.ty := rfl
  simp only [Prototype.signature, Prototype.mapPos, List.map_map, hty]

@[simp] theorem Prototype.print_mapPos (p : Prototype) : (p.mapPos f).print = p.print := by
  have hprint : Param.print ∘ Param.mapPos f = Param.print := rfl
  simp only [Prototype.print, Prototype.mapPos, List.map_map, hprint]

end ImpFront
