import ImpFront.Proofs.Grammar
import ImpFront.Proofs.Spelling
import ImpFront.Tree.Print

/-! The text of a printable tree spells tokens that derive the tree. A tree is printable if its
names are words that are not reserved, its declarations name something and its double literals are
neither negative nor a NaN. -/

namespace ImpFront

def Double.printable (x : Double) : Bool := !x.isNegative && !x.isNaN

mutual

def Expr.printable : Expr → Bool
  | .int _ _ => true
  | .double _ value => value.printable
  | .var _ name => isName name
  | .binary _ _ left right => left.printable && right.printable
  | .call _ callee args => isName callee && Expr.printableList args

def Expr.printableList : List Expr → Bool
  | [] => true
  | e :: es => e.printable && Expr.printableList es

end

mutual

def Stmt.printable : Stmt → Bool
  | .declaration _ _ names => !names.isEmpty && names.all isName
  | .assignment _ target value => isName target && value.printable
  | .ret _ value => value.printable
  | .ifElse _ cond yes no => cond.printable && yes.printable && no.printable
  | .loop _ cond body => cond.printable && body.printable
  | .block body => body.printable

def Block.printable : Block → Bool
  | .mk _ statements => Stmt.printableList statements

def Stmt.printableList : List Stmt → Bool
  | [] => true
  | s :: ss => s.printable && Stmt.printableList ss

end

def Param.printable (p : Param) : Bool := isName p.name

def Prototype.printable (p : Prototype) : Bool := isName p.name && p.params.all Param.printable

def Definition.printable (d : Definition) : Bool := d.prototype.printable && d.body.printable

def Item.printable : Item → Bool
  | .external p => p.printable
  | .definition d => d.printable

section Lists

variable {α β : Type} {P : List Token → β → Prop}

/-- The text spells a derivation of `a`. -/
def Writes (P : List Token → β → Prop) (text : List Char) (b : β) : Prop :=
  ∃ ts, Spells text ts ∧ P ts b

variable {text : α → String} {f : α → β}

theorem writes_commas {as : List α} (hne : as ≠ []) (h : ∀ a ∈ as, Writes P (text a).toList (f a)) :
    Writes (Lettering.bare.Separated P) (commas (as.map text)).toList (as.map f) := by
  induction as with
  | nil => exact absurd rfl hne
  | cons a as ih =>
    obtain ⟨ts, hts, ha⟩ := h a List.mem_cons_self
    cases as with
    | nil => exact ⟨ts, by simpa [commas, String.toList_intercalate] using hts, .one ha⟩
    | cons b bs =>
      obtain ⟨us, hus, hbs⟩ := ih (by simp) fun c hc => h c (List.mem_cons_of_mem _ hc)
      refine ⟨ts ++ .char ',' :: us, ?_, .more ha rfl hbs⟩
      have hspell := hts.append rfl (.mark (c := ',') rfl (.blank (c := ' ') rfl hus))
      simpa [commas, String.toList_intercalate, List.intercalate_cons_cons] using hspell

theorem writes_listed {as : List α} (h : ∀ a ∈ as, Writes P (text a).toList (f a)) :
    Writes (Lettering.bare.Listed P) (commas (as.map text)).toList (as.map f) := by
  by_cases hne : as = []
  · subst hne
    exact ⟨[], .nil, .none⟩
  · obtain ⟨ts, hts, has⟩ := writes_commas hne h
    exact ⟨ts, hts, .some has⟩

end Lists

theorem isExpr_of_isFactor {ts : List Token} {e : Expr} (h : IsFactor ts e) : IsExpr ts e :=
  .operand (.operand (.operand h))

theorem isExpr_binary {ts us : List Token} {l r : Expr} (op : BinOp) (hl : IsFactor ts l)
    (hr : IsFactor us r) :
    IsExpr (ts ++ .char op.toChar :: us) (.binary 0 op l r) := by
  cases op with
  | mul => exact .operand (.operand (.binary hl (by decide) rfl (.operand hr) rfl))
  | add => exact .operand (.binary (.operand hl) (by decide) rfl (.operand (.operand hr)) rfl)
  | sub => exact .operand (.binary (.operand hl) (by decide) rfl (.operand (.operand hr)) rfl)
  | less =>
    exact .binary (.operand (.operand hl)) (by decide) rfl (.operand (.operand (.operand hr))) rfl

namespace Expr

/-- A printed operation is an expression; everything else that is printed is a factor. -/
def Printed (e : Expr) : Prop :=
  Writes (if e.isBinary then IsExpr else IsFactor) e.print.toList e.erase

theorem printList_eq_map (es : List Expr) : printList es = es.map print := by
  induction es with
  | nil => rfl
  | cons e es ih => rw [printList, ih, List.map_cons]

theorem Printed.isExpr {e : Expr} (h : e.Printed) : Writes IsExpr e.print.toList e.erase := by
  obtain ⟨ts, hts, he⟩ := h
  refine ⟨ts, hts, ?_⟩
  split at he
  · exact he
  · exact isExpr_of_isFactor he

theorem Printed.grouped {e : Expr} (h : e.Printed) :
    Writes IsFactor (grouped e.isBinary e.print).toList e.erase := by
  obtain ⟨ts, hts, he⟩ := h
  cases hop : e.isBinary with
  | false => exact ⟨ts, by simpa [ImpFront.grouped] using hts, by simpa [hop] using he⟩
  | true =>
    have hgroup := Spells.mark (c := '(') rfl (hts.append rfl (.mark (c := ')') rfl .nil))
    exact ⟨_, by simpa [ImpFront.grouped] using hgroup, .group rfl (by simpa [hop] using he) rfl⟩

theorem printed_binary {l r : Expr} (pos : Nat) (op : BinOp) (hl : l.Printed) (hr : r.Printed) :
    (Expr.binary pos op l r).Printed := by
  obtain ⟨ts, hts, hl⟩ := hl.grouped
  obtain ⟨us, hus, hr⟩ := hr.grouped
  have hop : isMark op.toChar = true := by cases op <;> rfl
  have hspell := hts.append (d := ' ' :: op.toChar :: ' ' :: _) rfl
    (.blank rfl (.mark hop (.blank (c := ' ') rfl hus)))
  exact ⟨_, by simpa [print] using hspell, isExpr_binary op hl hr⟩

theorem printed_call {args : List Expr} {callee : String} (pos : Nat) (hname : isName callee = true)
    (hargs : ∀ e ∈ args, e.Printed) : (Expr.call pos callee args).Printed := by
  obtain ⟨ts, hts, hargs⟩ := writes_listed fun e he => (hargs e he).isExpr
  have hspell := (Spells.name hname).append (d := '(' :: _) rfl
    (.mark rfl (hts.append rfl (.mark (c := ')') rfl .nil)))
  refine ⟨_, by simpa [print, printList_eq_map] using hspell, ?_⟩
  rw [erase, eraseList_eq_map]
  exact .call rfl rfl hargs rfl rfl

mutual

theorem printed (e : Expr) (h : e.printable = true) : e.Printed :=
  match e, h with
  | .int _ value, _ => ⟨_, Spells.int value, .int rfl rfl⟩
  | .double _ value, h => by
    simp only [printable, Double.printable, Bool.and_eq_true, Bool.not_eq_true'] at h
    exact ⟨_, Spells.numeral (Double.numeral_literal h.1 h.2), .double rfl rfl⟩
  | .var _ name, h => ⟨_, Spells.name h, .var rfl rfl⟩
  | .binary pos op l r, h => by
    rw [printable, Bool.and_eq_true] at h
    exact printed_binary pos op (printed l h.1) (printed r h.2)
  | .call pos callee args, h => by
    rw [printable, Bool.and_eq_true] at h
    exact printed_call pos h.1 (printedList args h.2)

theorem printedList (es : List Expr) (h : printableList es = true) : ∀ e ∈ es, e.Printed :=
  match es, h with
  | [], _ => by simp
  | e :: es, h => by
    rw [printableList, Bool.and_eq_true] at h
    simp only [List.mem_cons, forall_eq_or_imp]
    exact ⟨printed e h.1, printedList es h.2⟩

end

theorem writes {e : Expr} (h : e.printable = true) : Writes IsExpr e.print.toList e.erase :=
  (printed e h).isExpr

end Expr

theorem isBlank_of_mem_indent {depth : Nat} {c : Char} (h : c ∈ (indent depth).toList) :
    isBlank c = true := by
  rw [indent, String.toList_ofList] at h
  rw [List.eq_of_mem_replicate h]
  rfl

theorem breaks_indent (depth : Nat) : breaks (indent depth).toList = true := by
  rw [indent, String.toList_ofList]
  cases depth with
  | zero => rfl
  | succ n =>
    rw [Nat.mul_succ, List.replicate_succ]
    rfl

mutual

theorem Stmt.writes (depth : Nat) (s : Stmt) (h : s.printable = true) :
    Writes IsStmt (s.printAt depth).toList s.erase :=
  match s, h with
  | .declaration _ ty names, h => by
    simp only [Stmt.printable, Bool.and_eq_true, Bool.not_eq_true', List.isEmpty_eq_false_iff,
      List.all_eq_true] at h
    have hwrites : Writes (Lettering.bare.Separated IsName) (commas (names.map id)).toList
        (names.map id) :=
      writes_commas h.1 fun name hname => ⟨_, Spells.name (h.2 name hname), .mk rfl⟩
    obtain ⟨ts, hts, hnames⟩ := hwrites
    rw [List.map_id] at hts hnames
    have hspell := (Spells.type ty).append (d := ' ' :: _) rfl
      (.blank rfl (hts.append rfl (.mark (c := ';') rfl .nil)))
    exact ⟨_, by simpa [Stmt.printAt] using hspell, .declaration rfl hnames rfl rfl⟩
  | .assignment _ target value, h => by
    rw [Stmt.printable, Bool.and_eq_true] at h
    obtain ⟨ts, hts, hvalue⟩ := Expr.writes h.2
    have hspell := (Spells.name h.1).append (d := ' ' :: '=' :: ' ' :: _) rfl
      (.blank rfl (.mark rfl (.blank rfl (hts.append rfl (.mark (c := ';') rfl .nil)))))
    exact ⟨_, by simpa [Stmt.printAt] using hspell, .assignment rfl rfl hvalue rfl rfl⟩
  | .ret _ value, h => by
    obtain ⟨ts, hts, hvalue⟩ := Expr.writes h
    have hspell := (Spells.keyword .returnKw).append (d := ' ' :: _) rfl
      (.blank rfl (hts.append rfl (.mark (c := ';') rfl .nil)))
    exact ⟨_, by simpa [Stmt.printAt, Keyword.text] using hspell, .ret rfl hvalue rfl rfl⟩
  | .ifElse _ cond yes no, h => by
    simp only [Stmt.printable, Bool.and_eq_true] at h
    obtain ⟨ts, hts, hcond⟩ := Expr.writes h.1.1
    obtain ⟨us, hus, hyes⟩ := Block.writes depth yes h.1.2
    obtain ⟨vs, hvs, hno⟩ := Block.writes depth no h.2
    have helse := (Spells.keyword .elseKw).append (d := ' ' :: _) rfl (.blank rfl hvs)
    have hspell := (Spells.keyword .ifKw).append (d := ' ' :: '(' :: _) rfl (.blank rfl (.mark rfl
      (hts.append (d := ')' :: ' ' :: _) rfl (.mark rfl (.blank rfl
        (hus.append (d := ' ' :: _) rfl (.blank rfl helse)))))))
    refine ⟨_, ?_, .conditional (.mk rfl rfl hcond rfl hyes (.block rfl hno) rfl)⟩
    simpa [Stmt.printAt, Keyword.text] using hspell
  | .loop _ cond body, h => by
    rw [Stmt.printable, Bool.and_eq_true] at h
    obtain ⟨ts, hts, hcond⟩ := Expr.writes h.1
    obtain ⟨us, hus, hbody⟩ := Block.writes depth body h.2
    have hspell :=
      (Spells.keyword .whileKw).append (d := ' ' :: '(' :: _) rfl (.blank rfl (.mark rfl
      (hts.append (d := ')' :: ' ' :: _) rfl (.mark rfl (.blank rfl hus)))))
    exact ⟨_, by simpa [Stmt.printAt, Keyword.text] using hspell, .loop rfl rfl hcond rfl hbody rfl⟩
  | .block body, h => by
    obtain ⟨ts, hts, hbody⟩ := Block.writes depth body h
    exact ⟨ts, hts, .block hbody⟩

theorem Block.writes (depth : Nat) (b : Block) (h : b.printable = true) :
    Writes IsBlock (b.printAt depth).toList b.erase :=
  match b, h with
  | .mk _ ss, h => by
    obtain ⟨ts, hts, hss⟩ := Stmt.writesLines (depth + 1) ss h
    have hclose : Spells ((indent depth).toList ++ ['}']) [.char '}'] :=
      .blanks (fun c => isBlank_of_mem_indent) (.mark rfl .nil)
    have hspell := Spells.mark (c := '{') rfl (.blank (c := '\n') rfl
      (hts.append (breaks_append (breaks_indent depth) rfl) hclose))
    exact ⟨_, by simpa [Block.printAt] using hspell, .mk rfl hss rfl rfl⟩

theorem Stmt.writesLines (depth : Nat) (ss : List Stmt) (h : Stmt.printableList ss = true) :
    Writes IsStmts (Stmt.printLines depth ss).toList (Stmt.eraseList ss) :=
  match ss, h with
  | [], _ => ⟨[], .nil, .nil⟩
  | s :: ss, h => by
    rw [Stmt.printableList, Bool.and_eq_true] at h
    obtain ⟨ts, hts, hs⟩ := Stmt.writes depth s h.1
    obtain ⟨us, hus, hss⟩ := Stmt.writesLines depth ss h.2
    have hblank : ∀ c ∈ (indent depth).toList, isBlank c = true := fun c => isBlank_of_mem_indent
    have hspell := Spells.blanks hblank
      (hts.append (d := '\n' :: _) rfl (.blank rfl hus))
    exact ⟨_, by simpa [Stmt.printLines] using hspell, .cons hs hss⟩

end

theorem Param.writes {p : Param} (h : p.printable = true) :
    Writes IsParam p.print.toList p.erase := by
  have hspell := (Spells.type p.ty).append (d := ' ' :: _) rfl (.blank rfl (Spells.name h))
  exact ⟨_, by simpa [Param.print] using hspell, .mk rfl rfl rfl⟩

theorem Prototype.writes {p : Prototype} (h : p.printable = true) :
    Writes IsPrototype p.print.toList p.erase := by
  simp only [printable, Bool.and_eq_true, List.all_eq_true] at h
  obtain ⟨ts, hts, hparams⟩ := writes_listed fun param hparam => Param.writes (h.2 param hparam)
  have hspell := (Spells.type p.ret).append (d := ' ' :: _) rfl
    (.blank rfl ((Spells.name h.1).append (d := '(' :: _) rfl
    (.mark rfl (hts.append rfl (.mark (c := ')') rfl .nil)))))
  exact ⟨_, by simpa [Prototype.print] using hspell, .mk rfl rfl rfl hparams rfl rfl⟩

theorem Item.writes {item : Item} (h : item.printable = true) :
    Writes IsItem item.print.toList item.erase := by
  cases item with
  | external p =>
    obtain ⟨ts, hts, hp⟩ := Prototype.writes h
    have hspell := (Spells.keyword .externKw).append (d := ' ' :: _) rfl
      (.blank rfl (hts.append rfl (.mark (c := ';') rfl .nil)))
    exact ⟨_, by simpa [Item.print, Keyword.text] using hspell, .external rfl hp rfl⟩
  | definition d =>
    simp only [printable, Definition.printable, Bool.and_eq_true] at h
    obtain ⟨ts, hts, hp⟩ := Prototype.writes h.1
    obtain ⟨us, hus, hbody⟩ := Block.writes 0 d.body h.2
    have hspell := hts.append (d := ' ' :: _) rfl (.blank rfl hus)
    exact ⟨_, by simpa [Item.print, Definition.print, Block.print] using hspell,
      .definition hp hbody rfl⟩

end ImpFront
