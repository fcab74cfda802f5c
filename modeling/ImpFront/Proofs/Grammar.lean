import Mathlib
import ImpFront.Tree.Cursor
import ImpFront.Tree.Basic

/-! The grammar of the language: which token sequences are programs, and of which tree. A derivation
is a proof of a relation between tokens and a tree without places, one relation for each nonterminal
and one constructor for each production. Operators of one level nest to the right. -/

namespace ImpFront

mutual

/-- The tree without its places. -/
def Expr.erase : Expr → Expr
  | .int _ value => .int 0 value
  | .double _ value => .double 0 value
  | .var _ name => .var 0 name
  | .binary _ op left right => .binary 0 op left.erase right.erase
  | .call _ callee args => .call 0 callee (Expr.eraseList args)

def Expr.eraseList : List Expr → List Expr
  | [] => []
  | e :: es => e.erase :: Expr.eraseList es

end

mutual

def Stmt.erase : Stmt → Stmt
  | .declaration _ ty names => .declaration 0 ty names
  | .assignment _ target value => .assignment 0 target value.erase
  | .ret _ value => .ret 0 value.erase
  | .ifElse _ cond yes no => .ifElse 0 cond.erase yes.erase no.erase
  | .loop _ cond body => .loop 0 cond.erase body.erase
  | .block body => .block body.erase

def Block.erase : Block → Block
  | .mk _ statements => .mk 0 (Stmt.eraseList statements)

def Stmt.eraseList : List Stmt → List Stmt
  | [] => []
  | s :: ss => s.erase :: Stmt.eraseList ss

end

def Param.erase (p : Param) : Param := { p with pos := 0 }

def Prototype.erase (p : Prototype) : Prototype :=
  { p with pos := 0, params := p.params.map Param.erase }

def Definition.erase (d : Definition) : Definition := ⟨0, d.prototype.erase, d.body.erase⟩

def Item.erase : Item → Item
  | .external p => .external p.erase
  | .definition d => .definition d.erase

theorem Expr.eraseList_eq_map (es : List Expr) : Expr.eraseList es = es.map Expr.erase := by
  induction es with
  | nil => rfl
  | cons e es ih => simp [Expr.eraseList, ih]

/-- What texts are made of: letters with a token each. With them goes the law of places: where a
node may stand, given the text that it has. -/
structure Lettering (L : Type) where
  token : L → Token
  node : List L → Nat → Prop
  /-- The law for binary operations. -/
  operation : List L → Nat → Prop

namespace Lettering

variable {L : Type}

section Lists

variable {α : Type}

/-- One or more of something, with commas between them. -/
inductive Separated (G : Lettering L) (P : List L → α → Prop) : List L → List α → Prop
  | one {ts : List L} {a : α} : P ts a → Separated G P ts [a]
  | more {x : L} {ts us : List L} {a : α} {as : List α} :
    P ts a → G.token x = .char ',' → Separated G P us as → Separated G P (ts ++ x :: us) (a :: as)

/-- None or more of something, with commas between them. -/
inductive Listed (G : Lettering L) (P : List L → α → Prop) : List L → List α → Prop
  | none : Listed G P [] []
  | some {ts : List L} {as : List α} : G.Separated P ts as → Listed G P ts as

end Lists

/-- Operands joined by operators of one level: `level → operand (op level)?`. -/
inductive Chain (G : Lettering L) (ops : List BinOp) (P : List L → Expr → Prop) :
    List L → Expr → Prop
  | operand {ts : List L} {e : Expr} : P ts e → Chain G ops P ts e
  | binary {x : L} {ts us : List L} {op : BinOp} {l r : Expr} {p : Nat} :
    P ts l → op ∈ ops → G.token x = .char op.toChar → Chain G ops P us r →
      G.operation (ts ++ x :: us) p → Chain G ops P (ts ++ x :: us) (.binary p op l r)

/-- Expressions with the given factors. -/
abbrev ExprOf (G : Lettering L) (P : List L → Expr → Prop) : List L → Expr → Prop :=
  G.Chain [.less] (G.Chain [.add, .sub] (G.Chain [.mul] P))

-- The factor is the only nonterminal that contains itself through others, so the levels above it
-- are spelled out here.
inductive IsFactor (G : Lettering L) : List L → Expr → Prop
  | group {x y : L} {ts : List L} {e : Expr} :
    G.token x = .char '(' →
      G.Chain [.less] (G.Chain [.add, .sub] (G.Chain [.mul] (IsFactor G))) ts e →
      G.token y = .char ')' → IsFactor G (x :: ts ++ [y]) e
  | var {x : L} {name : String} {p : Nat} :
    G.token x = .ident name → G.node [x] p → IsFactor G [x] (.var p name)
  | call {x y z : L} {ts : List L} {callee : String} {args : List Expr} {p : Nat} :
    G.token x = .ident callee → G.token y = .char '(' →
      G.Listed (G.Chain [.less] (G.Chain [.add, .sub] (G.Chain [.mul] (IsFactor G)))) ts args →
      G.token z = .char ')' → G.node (x :: y :: ts ++ [z]) p →
      IsFactor G (x :: y :: ts ++ [z]) (.call p callee args)
  | int {x : L} {value : Word} {p : Nat} :
    G.token x = .int value → G.node [x] p → IsFactor G [x] (.int p value)
  | double {x : L} {value : Double} {p : Nat} :
    G.token x = .double value → G.node [x] p → IsFactor G [x] (.double p value)

abbrev IsExpr (G : Lettering L) : List L → Expr → Prop := G.ExprOf G.IsFactor

inductive IsName (G : Lettering L) : List L → String → Prop
  | mk {x : L} {name : String} : G.token x = .ident name → IsName G [x] name

mutual

inductive IsStmt (G : Lettering L) : List L → Stmt → Prop
  | declaration {x y : L} {ts : List L} {ty : Ty} {names : List String} {p : Nat} :
    G.token x = .type ty → G.Separated G.IsName ts names → G.token y = .char ';' →
      G.node (x :: ts ++ [y]) p → IsStmt G (x :: ts ++ [y]) (.declaration p ty names)
  | assignment {x y z : L} {ts : List L} {target : String} {value : Expr} {p : Nat} :
    G.token x = .ident target → G.token y = .char '=' → G.IsExpr ts value →
      G.token z = .char ';' → G.node (x :: y :: ts ++ [z]) p →
      IsStmt G (x :: y :: ts ++ [z]) (.assignment p target value)
  | ret {x y : L} {ts : List L} {value : Expr} {p : Nat} :
    G.token x = .keyword .returnKw → G.IsExpr ts value → G.token y = .char ';' →
      G.node (x :: ts ++ [y]) p → IsStmt G (x :: ts ++ [y]) (.ret p value)
  | conditional {ts : List L} {s : Stmt} : IsIf G ts s → IsStmt G ts s
  | loop {x y z : L} {ts us : List L} {cond : Expr} {body : Block} {p : Nat} :
    G.token x = .keyword .whileKw → G.token y = .char '(' → G.IsExpr ts cond →
      G.token z = .char ')' → IsBlock G us body → G.node (x :: y :: ts ++ z :: us) p →
      IsStmt G (x :: y :: ts ++ z :: us) (.loop p cond body)
  | block {ts : List L} {body : Block} : IsBlock G ts body → IsStmt G ts (.block body)

inductive IsIf (G : Lettering L) : List L → Stmt → Prop
  | mk {x y z : L} {ts us vs : List L} {cond : Expr} {yes no : Block} {p : Nat} :
    G.token x = .keyword .ifKw → G.token y = .char '(' → G.IsExpr ts cond →
      G.token z = .char ')' → IsBlock G us yes → IsElse G vs no →
      G.node (x :: y :: ts ++ z :: us ++ vs) p →
      IsIf G (x :: y :: ts ++ z :: us ++ vs) (.ifElse p cond yes no)

/-- The end of a conditional, and the block that it stands for. -/
inductive IsElse (G : Lettering L) : List L → Block → Prop
  | none {p : Nat} : G.node [] p → IsElse G [] (.mk p [])
  | block {x : L} {ts : List L} {no : Block} :
    G.token x = .keyword .elseKw → IsBlock G ts no → IsElse G (x :: ts) no
  | conditional {x : L} {ts : List L} {s : Stmt} {p : Nat} :
    G.token x = .keyword .elseKw → IsIf G ts s → G.node ts p → IsElse G (x :: ts) (.mk p [s])

inductive IsBlock (G : Lettering L) : List L → Block → Prop
  | mk {x y : L} {ts : List L} {ss : List Stmt} {p : Nat} :
    G.token x = .char '{' → IsStmts G ts ss → G.token y = .char '}' → G.node (x :: ts ++ [y]) p →
      IsBlock G (x :: ts ++ [y]) (.mk p ss)

inductive IsStmts (G : Lettering L) : List L → List Stmt → Prop
  | nil : IsStmts G [] []
  | cons {ts us : List L} {s : Stmt} {ss : List Stmt} :
    IsStmt G ts s → IsStmts G us ss → IsStmts G (ts ++ us) (s :: ss)

end

inductive IsParam (G : Lettering L) : List L → Param → Prop
  | mk {x y : L} {ty : Ty} {name : String} {p : Nat} :
    G.token x = .type ty → G.token y = .ident name → G.node [x, y] p →
      IsParam G [x, y] ⟨p, name, ty⟩

inductive IsPrototype (G : Lettering L) : List L → Prototype → Prop
  | mk {x y z w : L} {ts : List L} {ret : Ty} {name : String} {params : List Param} {p : Nat} :
    G.token x = .type ret → G.token y = .ident name → G.token z = .char '(' →
      G.Listed G.IsParam ts params → G.token w = .char ')' →
      G.node (x :: y :: z :: ts ++ [w]) p →
      IsPrototype G (x :: y :: z :: ts ++ [w]) ⟨p, name, params, ret⟩

inductive IsItem (G : Lettering L) : List L → Item → Prop
  | external {x y : L} {ts : List L} {q : Prototype} :
    G.token x = .keyword .externKw → G.IsPrototype ts q → G.token y = .char ';' →
      IsItem G (x :: ts ++ [y]) (.external q)
  | definition {ts us : List L} {q : Prototype} {body : Block} {p : Nat} :
    G.IsPrototype ts q → G.IsBlock us body → G.node (ts ++ us) p →
      IsItem G (ts ++ us) (.definition ⟨p, q, body⟩)

inductive IsProgram (G : Lettering L) : List L → List Item → Prop
  | nil : IsProgram G [] []
  | cons {ts us : List L} {item : Item} {items : List Item} :
    G.IsItem ts item → IsProgram G us items → IsProgram G (ts ++ us) (item :: items)

/-- Induction over factors: the expressions inside of one are made of factors that are known to have
the property. -/
@[elab_as_elim]
theorem IsFactor.induction {G : Lettering L}
    {motive : (ts : List L) → (e : Expr) → G.IsFactor ts e → Prop}
    (group : ∀ {x y : L} {ts : List L} {e : Expr} (hx : G.token x = .char '(')
      (he : G.IsExpr ts e) (hy : G.token y = .char ')'),
      G.ExprOf (fun ts e => ∃ h, motive ts e h) ts e →
      motive (x :: ts ++ [y]) e (.group hx he hy))
    (var : ∀ {x : L} {name : String} {p : Nat} (hx : G.token x = .ident name) (hp : G.node [x] p),
      motive [x] (.var p name) (.var hx hp))
    (call : ∀ {x y z : L} {ts : List L} {callee : String} {args : List Expr} {p : Nat}
      (hx : G.token x = .ident callee) (hy : G.token y = .char '(')
      (hargs : G.Listed G.IsExpr ts args) (hz : G.token z = .char ')')
      (hp : G.node (x :: y :: ts ++ [z]) p),
      G.Listed (G.ExprOf fun ts e => ∃ h, motive ts e h) ts args →
      motive (x :: y :: ts ++ [z]) (.call p callee args) (.call hx hy hargs hz hp))
    (int : ∀ {x : L} {value : Word} {p : Nat} (hx : G.token x = .int value) (hp : G.node [x] p),
      motive [x] (.int p value) (.int hx hp))
    (double : ∀ {x : L} {value : Double} {p : Nat} (hx : G.token x = .double value)
      (hp : G.node [x] p), motive [x] (.double p value) (.double hx hp))
    {ts : List L} {e : Expr} (h : G.IsFactor ts e) : motive ts e h :=
  @IsFactor.rec L G motive
    (fun ts e _ => G.ExprOf (fun ts e => ∃ h, motive ts e h) ts e)
    (fun ts as _ => G.Listed (G.ExprOf fun ts e => ∃ h, motive ts e h) ts as)
    (fun ts e _ => G.Chain [.add, .sub] (G.Chain [.mul] fun ts e => ∃ h, motive ts e h) ts e)
    (fun ts as _ => G.Separated (G.ExprOf fun ts e => ∃ h, motive ts e h) ts as)
    (fun ts e _ => G.Chain [.mul] (fun ts e => ∃ h, motive ts e h) ts e)
    group var call int double
    (fun _ ih => .operand ih) (fun _ hop hx _ hp ihl ihr => .binary ihl hop hx ihr hp)
    .none (fun _ ih => .some ih)
    (fun _ ih => .operand ih) (fun _ hop hx _ hp ihl ihr => .binary ihl hop hx ihr hp)
    (fun _ ih => .one ih) (fun _ hx _ iha ihas => .more iha hx ihas)
    (fun h ih => .operand ⟨h, ih⟩) (fun h hop hx _ hp ihl ihr => .binary ⟨h, ihl⟩ hop hx ihr hp)
    ts e h

/-- The text starts with a letter whose token has the property. -/
def StartsWith (G : Lettering L) (p : Token → Bool) (ts : List L) : Prop :=
  ∃ x us, ts = x :: us ∧ p (G.token x) = true

end Lettering

def Token.startsFactor : Token → Bool
  | .char '(' | .ident _ | .int _ | .double _ => true
  | _ => false

def Token.startsStmt : Token → Bool
  | .type _ | .ident _ | .keyword .returnKw | .keyword .ifKw | .keyword .whileKw | .char '{' => true
  | _ => false

namespace Lettering

variable {L : Type} {G : Lettering L} {ts : List L} {p : Token → Bool}

theorem startsWith_cons {x : L} {t : Token} (hx : G.token x = t) (ht : p t = true) :
    G.StartsWith p (x :: ts) :=
  ⟨x, ts, rfl, hx ▸ ht⟩

namespace StartsWith

theorem append (h : G.StartsWith p ts) (us : List L) : G.StartsWith p (ts ++ us) := by
  obtain ⟨x, ts, rfl, hx⟩ := h
  exact ⟨x, ts ++ us, rfl, hx⟩

theorem ne_nil (h : G.StartsWith p ts) : ts ≠ [] := by
  obtain ⟨x, ts, rfl, -⟩ := h
  simp

theorem mono {q : Token → Bool} (h : G.StartsWith p ts) (hpq : ∀ t, p t → q t) :
    G.StartsWith q ts := by
  obtain ⟨x, us, rfl, hx⟩ := h
  exact ⟨x, us, rfl, hpq _ hx⟩

end StartsWith

theorem Chain.starts {ops : List BinOp} {P : List L → Expr → Prop} {e : Expr}
    (hP : ∀ ts e, P ts e → G.StartsWith p ts) (h : G.Chain ops P ts e) : G.StartsWith p ts := by
  cases h with
  | operand h => exact hP _ _ h
  | binary h _ _ _ _ => exact (hP _ _ h).append _

theorem Separated.starts {α : Type} {P : List L → α → Prop} {as : List α}
    (hP : ∀ ts a, P ts a → G.StartsWith p ts) (h : G.Separated P ts as) : G.StartsWith p ts := by
  cases h with
  | one h => exact hP _ _ h
  | more h _ _ => exact (hP _ _ h).append _

theorem IsFactor.starts {e : Expr} (h : G.IsFactor ts e) : G.StartsWith Token.startsFactor ts := by
  cases h with
  | group hx _ _ => exact startsWith_cons hx rfl
  | var hx _ => exact startsWith_cons hx rfl
  | call hx _ _ _ _ => exact startsWith_cons hx rfl
  | int hx _ => exact startsWith_cons hx rfl
  | double hx _ => exact startsWith_cons hx rfl

theorem IsExpr.starts {e : Expr} (h : G.IsExpr ts e) : G.StartsWith Token.startsFactor ts :=
  Chain.starts (fun _ _ => Chain.starts fun _ _ => Chain.starts fun _ _ => IsFactor.starts) h

theorem IsIf.starts {s : Stmt} (h : G.IsIf ts s) : G.StartsWith (· = .keyword .ifKw) ts := by
  cases h with
  | mk hx _ _ _ _ _ _ => exact startsWith_cons hx (by simp)

theorem IsBlock.starts {b : Block} (h : G.IsBlock ts b) : G.StartsWith (· = .char '{') ts := by
  cases h with
  | mk hx _ _ _ => exact startsWith_cons hx (by simp)

theorem IsStmt.starts {s : Stmt} (h : G.IsStmt ts s) : G.StartsWith Token.startsStmt ts := by
  cases h with
  | declaration hx _ _ _ => exact startsWith_cons hx rfl
  | assignment hx _ _ _ _ => exact startsWith_cons hx rfl
  | ret hx _ _ _ => exact startsWith_cons hx rfl
  | conditional h =>
    refine h.starts.mono fun t ht => ?_
    rw [of_decide_eq_true ht]
    rfl
  | loop hx _ _ _ _ _ => exact startsWith_cons hx rfl
  | block h =>
    refine h.starts.mono fun t ht => ?_
    rw [of_decide_eq_true ht]
    rfl

theorem IsItem.starts {item : Item} (h : G.IsItem ts item) :
    G.StartsWith Token.startsItem ts := by
  cases h with
  | external hx _ _ => exact startsWith_cons hx rfl
  | definition h _ _ =>
    cases h with
    | mk hx _ _ _ _ _ => exact startsWith_cons hx rfl

/-- Tokens alone. Trees have no places then. -/
abbrev bare : Lettering Token := ⟨fun t => t, fun _ p => p = 0, fun _ p => p = 0⟩

end Lettering

abbrev IsFactor : List Token → Expr → Prop := Lettering.bare.IsFactor

abbrev IsExpr : List Token → Expr → Prop := Lettering.bare.IsExpr

abbrev IsName : List Token → String → Prop := Lettering.bare.IsName

abbrev IsStmt : List Token → Stmt → Prop := Lettering.bare.IsStmt

abbrev IsIf : List Token → Stmt → Prop := Lettering.bare.IsIf

abbrev IsElse : List Token → Block → Prop := Lettering.bare.IsElse

abbrev IsBlock : List Token → Block → Prop := Lettering.bare.IsBlock

abbrev IsStmts : List Token → List Stmt → Prop := Lettering.bare.IsStmts

abbrev IsParam : List Token → Param → Prop := Lettering.bare.IsParam

abbrev IsPrototype : List Token → Prototype → Prop := Lettering.bare.IsPrototype

abbrev IsItem : List Token → Item → Prop := Lettering.bare.IsItem

abbrev IsProgram : List Token → List Item → Prop := Lettering.bare.IsProgram

/-- Where a text starts. -/
def startOf (ts : List Placed) : Option Nat := ts.head?.map Placed.pos

/-- The place is the one of the first token. -/
def AtStart (ts : List Placed) (p : Nat) : Prop := startOf ts = some p

/-- The place is the one of the first token that is no opening parenthesis. -/
def BehindParens (ts : List Placed) (p : Nat) : Prop :=
  startOf (ts.dropWhile (·.token = .char '(')) = some p

/-- Tokens with their places. A node stands at the first token of its text; a block that is not
there has no text, and may stand anywhere. Only for binary operations the law is left open. -/
abbrev Lettering.placed (law : List Placed → Nat → Prop) : Lettering Placed :=
  ⟨Placed.token, fun ts p => ts = [] ∨ AtStart ts p, law⟩

section Places

variable (law : List Placed → Nat → Prop)

abbrev FactorAt : List Placed → Expr → Prop := (Lettering.placed law).IsFactor

abbrev ExprAt : List Placed → Expr → Prop := (Lettering.placed law).IsExpr

abbrev NameAt : List Placed → String → Prop := (Lettering.placed law).IsName

abbrev StmtAt : List Placed → Stmt → Prop := (Lettering.placed law).IsStmt

abbrev IfAt : List Placed → Stmt → Prop := (Lettering.placed law).IsIf

abbrev ElseAt : List Placed → Block → Prop := (Lettering.placed law).IsElse

abbrev BlockAt : List Placed → Block → Prop := (Lettering.placed law).IsBlock

abbrev StmtsAt : List Placed → List Stmt → Prop := (Lettering.placed law).IsStmts

abbrev ParamAt : List Placed → Param → Prop := (Lettering.placed law).IsParam

abbrev PrototypeAt : List Placed → Prototype → Prop := (Lettering.placed law).IsPrototype

abbrev ItemAt : List Placed → Item → Prop := (Lettering.placed law).IsItem

abbrev ProgramAt : List Placed → List Item → Prop := (Lettering.placed law).IsProgram

end Places

namespace Lettering

variable {law : List Placed → Nat → Prop} {ts : List Placed}

section Lists

variable {α β : Type} {f : α → β} {P : List Placed → α → Prop} {Q : List Token → β → Prop}
  {as : List α} (hPQ : ∀ ts a, P ts a → Q (ts.map Placed.token) (f a))

include hPQ

theorem Separated.forget (h : (placed law).Separated P ts as) :
    bare.Separated Q (ts.map Placed.token) (as.map f) := by
  induction h with
  | one h => exact .one (hPQ _ _ h)
  | more h hx _ ih =>
    rw [List.map_append]
    exact .more (hPQ _ _ h) hx ih

theorem Listed.forget (h : (placed law).Listed P ts as) :
    bare.Listed Q (ts.map Placed.token) (as.map f) := by
  cases h with
  | none => exact .none
  | some h => exact .some (h.forget hPQ)

end Lists

section Levels

variable {P : List Placed → Expr → Prop} {Q : List Token → Expr → Prop} {e : Expr}
  (hPQ : ∀ ts e, P ts e → Q (ts.map Placed.token) e.erase)

include hPQ

theorem Chain.forget {ops : List BinOp} (h : (placed law).Chain ops P ts e) :
    bare.Chain ops Q (ts.map Placed.token) e.erase := by
  induction h with
  | operand h => exact .operand (hPQ _ _ h)
  | binary h hop hx _ _ ih =>
    rw [List.map_append]
    exact .binary (hPQ _ _ h) hop hx ih rfl

theorem ExprOf.forget (h : (placed law).ExprOf P ts e) :
    bare.ExprOf Q (ts.map Placed.token) e.erase :=
  Chain.forget (fun _ _ => Chain.forget fun _ _ => Chain.forget hPQ) h

end Levels

theorem IsFactor.forget {e : Expr} (h : FactorAt law ts e) :
    ImpFront.IsFactor (ts.map Placed.token) e.erase := by
  induction h using IsFactor.induction with
  | group hx _ hy ih =>
    rw [List.map_append]
    exact .group hx (ExprOf.forget (fun _ _ h => h.2) ih) hy
  | var hx _ => exact .var hx rfl
  | call hx hy _ hz _ ih =>
    rw [List.map_append, Expr.erase, Expr.eraseList_eq_map]
    exact .call hx hy (ih.forget fun _ _ => ExprOf.forget fun _ _ h => h.2) hz rfl
  | int hx _ => exact .int hx rfl
  | double hx _ => exact .double hx rfl

theorem IsExpr.forget {e : Expr} (h : ExprAt law ts e) :
    ImpFront.IsExpr (ts.map Placed.token) e.erase :=
  ExprOf.forget (fun _ _ => IsFactor.forget) h

theorem IsName.forget {name : String} (h : NameAt law ts name) :
    ImpFront.IsName (ts.map Placed.token) name := by
  obtain ⟨hx⟩ := h
  exact .mk hx

mutual

theorem IsStmt.forget {ts : List Placed} {s : Stmt} (h : StmtAt law ts s) :
    ImpFront.IsStmt (ts.map Placed.token) s.erase :=
  match h with
  | .declaration hx hnames hy _ => by
    have hnames := hnames.forget (f := id) fun _ _ => IsName.forget
    rw [List.map_id] at hnames
    rw [List.map_append]
    exact .declaration hx hnames hy rfl
  | .assignment hx hy he hz _ => by
    rw [List.map_append]
    exact .assignment hx hy (IsExpr.forget he) hz rfl
  | .ret hx he hy _ => by
    rw [List.map_append]
    exact .ret hx (IsExpr.forget he) hy rfl
  | .conditional h => .conditional (IsIf.forget h)
  | .loop hx hy he hz hbody _ => by
    rw [List.map_append]
    exact .loop hx hy (IsExpr.forget he) hz (IsBlock.forget hbody) rfl
  | .block h => .block (IsBlock.forget h)

theorem IsIf.forget {ts : List Placed} {s : Stmt} (h : IfAt law ts s) :
    ImpFront.IsIf (ts.map Placed.token) s.erase :=
  match h with
  | .mk hx hy he hz hyes hno _ => by
    rw [List.map_append, List.map_append]
    exact .mk hx hy (IsExpr.forget he) hz (IsBlock.forget hyes) (IsElse.forget hno) rfl

theorem IsElse.forget {ts : List Placed} {b : Block} (h : ElseAt law ts b) :
    ImpFront.IsElse (ts.map Placed.token) b.erase :=
  match h with
  | .none _ => .none rfl
  | .block hx h => .block hx (IsBlock.forget h)
  | .conditional hx h _ => .conditional hx (IsIf.forget h) rfl

theorem IsBlock.forget {ts : List Placed} {b : Block} (h : BlockAt law ts b) :
    ImpFront.IsBlock (ts.map Placed.token) b.erase :=
  match h with
  | .mk hx hss hy _ => by
    rw [List.map_append]
    exact .mk hx (IsStmts.forget hss) hy rfl

theorem IsStmts.forget {ts : List Placed} {ss : List Stmt} (h : StmtsAt law ts ss) :
    ImpFront.IsStmts (ts.map Placed.token) (Stmt.eraseList ss) :=
  match h with
  | .nil => .nil
  | .cons hs hss => by
    rw [List.map_append]
    exact .cons (IsStmt.forget hs) (IsStmts.forget hss)

end

theorem IsParam.forget {q : Param} (h : ParamAt law ts q) :
    ImpFront.IsParam (ts.map Placed.token) q.erase := by
  obtain ⟨hx, hy, _⟩ := h
  exact .mk hx hy rfl

theorem IsPrototype.forget {q : Prototype} (h : PrototypeAt law ts q) :
    ImpFront.IsPrototype (ts.map Placed.token) q.erase := by
  obtain ⟨hx, hy, hz, hparams, hw, _⟩ := h
  rw [List.map_append]
  exact .mk hx hy hz (hparams.forget fun _ _ => IsParam.forget) hw rfl

theorem IsItem.forget {item : Item} (h : ItemAt law ts item) :
    ImpFront.IsItem (ts.map Placed.token) item.erase := by
  cases h with
  | external hx hq hy =>
    rw [List.map_append]
    exact .external hx hq.forget hy
  | definition hq hbody _ =>
    rw [List.map_append]
    exact .definition hq.forget hbody.forget rfl

/-- A derivation with places is one without. -/
theorem IsProgram.forget {items : List Item} (h : ProgramAt law ts items) :
    ImpFront.IsProgram (ts.map Placed.token) (items.map Item.erase) := by
  induction h with
  | nil => exact .nil
  | cons hitem _ ih =>
    rw [List.map_append]
    exact .cons hitem.forget ih

end Lettering

end ImpFront
