import ImpFront.Tree.Basic

/-! Equality of syntax trees. It looks at everything but places, and compares double literals as
numbers. -/

namespace ImpFront

mutual

def Expr.same : Expr → Expr → Bool
  | .int _ a, .int _ b => a = b
  | .double _ a, .double _ b => a.same b
  | .var _ a, .var _ b => a = b
  | .binary _ op l r, .binary _ op' l' r' => op = op' && l.same l' && r.same r'
  | .call _ f as, .call _ g bs => f = g && Expr.sameList as bs
  | _, _ => false

def Expr.sameList : List Expr → List Expr → Bool
  | [], [] => true
  | a :: as, b :: bs => a.same b && Expr.sameList as bs
  | _, _ => false

end

mutual

def Stmt.same : Stmt → Stmt → Bool
  | .declaration _ ty names, .declaration _ ty' names' => ty = ty' && names = names'
  | .assignment _ target e, .assignment _ target' e' => target = target' && e.same e'
  | .ret _ e, .ret _ e' => e.same e'
  | .ifElse _ c yes no, .ifElse _ c' yes' no' => c.same c' && yes.same yes' && no.same no'
  | .loop _ c body, .loop _ c' body' => c.same c' && body.same body'
  | .block body, .block body' => body.same body'
  | _, _ => false

def Block.same : Block → Block → Bool
  | .mk _ ss, .mk _ ss' => Stmt.sameList ss ss'

def Stmt.sameList : List Stmt → List Stmt → Bool
  | [], [] => true
  | s :: ss, s' :: ss' => s.same s' && Stmt.sameList ss ss'
  | _, _ => false

end

def Param.same (a b : Param) : Bool := a.name = b.name && a.ty = b.ty

def Prototype.same (a b : Prototype) : Bool :=
  a.name = b.name && a.ret = b.ret && a.params.length = b.params.length &&
    (a.params.zip b.params).all fun (p, q) => p.same q

def Definition.same (a b : Definition) : Bool := a.prototype.same b.prototype && a.body.same b.body

def Item.same : Item → Item → Bool
  | .external p, .external q => p.same q
  | .definition d, .definition d' => d.same d'
  | _, _ => false

def Item.sameList (as bs : List Item) : Bool :=
  as.length = bs.length && (as.zip bs).all fun (a, b) => a.same b

end ImpFront
