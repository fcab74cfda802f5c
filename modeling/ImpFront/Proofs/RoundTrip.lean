import ImpFront.Proofs.Acceptance
import ImpFront.Proofs.Printing
import ImpFront.Tree.Same

/-! Printing and parsing. The text of a printable tree parses to the same tree, and what parses is
printable. -/

namespace ImpFront

theorem Double.same_self {x : Double} (h : x.printable = true) : x.same x = true := by
  simp only [Double.printable, Bool.and_eq_true, Bool.not_eq_true'] at h
  simp [Double.same, h.2]

mutual

theorem Expr.same_erase (a b : Expr) : a.same b.erase = a.same b :=
  match a with
  | .int _ _ | .double _ _ | .var _ _ => by cases b <;> rfl
  | .binary _ op l r =>
    by cases b <;> simp [Expr.same, Expr.erase, Expr.same_erase l, Expr.same_erase r]
  | .call _ _ args => by cases b <;> simp [Expr.same, Expr.erase, Expr.sameList_erase args]

theorem Expr.sameList_erase (as bs : List Expr) :
    Expr.sameList as (Expr.eraseList bs) = Expr.sameList as bs :=
  match as with
  | [] => by cases bs <;> rfl
  | a :: as =>
    by cases bs <;> simp [Expr.sameList, Expr.eraseList, Expr.same_erase a, Expr.sameList_erase as]

end

mutual

theorem Stmt.same_erase (a b : Stmt) : a.same b.erase = a.same b :=
  match a with
  | .declaration _ _ _ => by cases b <;> rfl
  | .assignment _ _ _ => by cases b <;> simp [Stmt.same, Stmt.erase, Expr.same_erase]
  | .ret _ _ => by cases b <;> simp [Stmt.same, Stmt.erase, Expr.same_erase]
  | .ifElse _ _ yes no => by
    cases b <;>
      simp [Stmt.same, Stmt.erase, Expr.same_erase, Block.same_erase yes, Block.same_erase no]
  | .loop _ _ body =>
    by cases b <;> simp [Stmt.same, Stmt.erase, Expr.same_erase, Block.same_erase body]
  | .block body => by cases b <;> simp [Stmt.same, Stmt.erase, Block.same_erase body]

theorem Block.same_erase (a b : Block) : a.same b.erase = a.same b :=
  match a, b with
  | .mk _ ss, .mk _ ss' => Stmt.sameList_erase ss ss'

theorem Stmt.sameList_erase (as bs : List Stmt) :
    Stmt.sameList as (Stmt.eraseList bs) = Stmt.sameList as bs :=
  match as with
  | [] => by cases bs <;> rfl
  | a :: as =>
    by cases bs <;> simp [Stmt.sameList, Stmt.eraseList, Stmt.same_erase a, Stmt.sameList_erase as]

end

mutual

theorem Expr.same_self (e : Expr) (h : e.printable = true) : e.same e = true :=
  match e, h with
  | .int _ _, _ | .var _ _, _ => by simp [Expr.same]
  | .double _ _, h => Double.same_self h
  | .binary _ _ l r, h => by
    rw [Expr.printable, Bool.and_eq_true] at h
    simp [Expr.same, Expr.same_self l h.1, Expr.same_self r h.2]
  | .call _ _ args, h => by
    rw [Expr.printable, Bool.and_eq_true] at h
    simp [Expr.same, Expr.sameList_self args h.2]

theorem Expr.sameList_self (es : List Expr) (h : Expr.printableList es = true) :
    Expr.sameList es es = true :=
  match es, h with
  | [], _ => rfl
  | e :: es, h => by
    rw [Expr.printableList, Bool.and_eq_true] at h
    simp [Expr.sameList, Expr.same_self e h.1, Expr.sameList_self es h.2]

end

mutual

theorem Stmt.same_self (s : Stmt) (h : s.printable = true) : s.same s = true :=
  match s, h with
  | .declaration _ _ _, _ => by simp [Stmt.same]
  | .assignment _ _ e, h => by
    rw [Stmt.printable, Bool.and_eq_true] at h
    simp [Stmt.same, Expr.same_self e h.2]
  | .ret _ e, h => Expr.same_self e h
  | .ifElse _ cond yes no, h => by
    simp only [Stmt.printable, Bool.and_eq_true] at h
    simp [Stmt.same, Expr.same_self cond h.1.1, Block.same_self yes h.1.2, Block.same_self no h.2]
  | .loop _ cond body, h => by
    rw [Stmt.printable, Bool.and_eq_true] at h
    simp [Stmt.same, Expr.same_self cond h.1, Block.same_self body h.2]
  | .block body, h => Block.same_self body h

theorem Block.same_self (b : Block) (h : b.printable = true) : b.same b = true :=
  match b, h with
  | .mk _ ss, h => Stmt.sameList_self ss h

theorem Stmt.sameList_self (ss : List Stmt) (h : Stmt.printableList ss = true) :
    Stmt.sameList ss ss = true :=
  match ss, h with
  | [], _ => rfl
  | s :: ss, h => by
    rw [Stmt.printableList, Bool.and_eq_true] at h
    simp [Stmt.sameList, Stmt.same_self s h.1, Stmt.sameList_self ss h.2]

end

theorem Expr.same_of_erase_eq {a b : Expr} (ha : a.printable = true) (h : b.erase = a.erase) :
    a.same b = true := by
  rw [← Expr.same_erase, h, Expr.same_erase, Expr.same_self a ha]

theorem Stmt.same_of_erase_eq {a b : Stmt} (ha : a.printable = true) (h : b.erase = a.erase) :
    a.same b = true := by
  rw [← Stmt.same_erase, h, Stmt.same_erase, Stmt.same_self a ha]

theorem Block.same_of_erase_eq {a b : Block} (ha : a.printable = true) (h : b.erase = a.erase) :
    a.same b = true := by
  rw [← Block.same_erase, h, Block.same_erase, Block.same_self a ha]

theorem all_zip_of_map_eq {α β : Type} {f : α → β} {r : α → α → Bool} {as bs : List α}
    (h : bs.map f = as.map f) (hr : ∀ a ∈ as, ∀ b, f b = f a → r a b = true) :
    as.length = bs.length ∧ ((as.zip bs).all fun (a, b) => r a b) = true := by
  induction as generalizing bs with
  | nil =>
    obtain rfl : bs = [] := by simpa using h
    exact ⟨rfl, rfl⟩
  | cons a as ih =>
    obtain ⟨b, bs, rfl, hb, hbs⟩ := List.map_eq_cons_iff.1 h
    obtain ⟨hlength, hall⟩ := ih hbs fun a' ha' => hr a' (List.mem_cons_of_mem _ ha')
    exact ⟨by simp [hlength], by simpa [hr a List.mem_cons_self b hb] using hall⟩

theorem Prototype.same_of_erase_eq {a b : Prototype} (h : b.erase = a.erase) : a.same b = true := by
  simp only [Prototype.erase, Prototype.mk.injEq, true_and] at h
  obtain ⟨hname, hparams, hret⟩ := h
  have hsame (p : Param) (_ : p ∈ a.params) (q : Param) (hq : q.erase = p.erase) :
      p.same q = true := by
    simp only [Param.erase, Param.mk.injEq, true_and] at hq
    simp [Param.same, hq.1, hq.2]
  obtain ⟨hlength, hall⟩ := all_zip_of_map_eq hparams hsame
  simp only [Prototype.same, hname, hret, hlength, hall, decide_true, Bool.and_self]

theorem Item.same_of_erase_eq {a b : Item} (ha : a.printable = true) (h : b.erase = a.erase) :
    a.same b = true := by
  cases a <;> cases b <;>
    simp only [Item.erase, Item.external.injEq, Item.definition.injEq, reduceCtorEq] at h
  · exact Prototype.same_of_erase_eq h
  · simp only [Item.printable, Definition.printable, Bool.and_eq_true] at ha
    simp only [Definition.erase, Definition.mk.injEq, true_and] at h
    simp [Item.same, Definition.same, Prototype.same_of_erase_eq h.1,
      Block.same_of_erase_eq ha.2 h.2]

/-- The reader succeeds on the text and leaves nothing of it. -/
def Reader.ReadsAll {α : Type} (p : Reader α) (text : String) (Q : α → Prop) : Prop :=
  ∃ a c, p (Cursor.ofSource text) = .ok a c ∧ Q a ∧ c.rest = []

theorem Writes.readsAll {α β : Type} {p : Reader α} {q : Nat → Attempt α} {f : α → β}
    {P : List Token → β → Prop} {F : List Token} {text : String} {b : β}
    (h : Writes P text.toList b) (hp : ∀ c, Attempt.Agrees p q c) (hq : ∀ n, (q n).Accepts f P F) :
    p.ReadsAll text fun a => f a = b := by
  obtain ⟨ts, hts, hb⟩ := h
  have htokens : (Cursor.ofSource text).tokens = ts ++ [] := by
    rw [Cursor.tokens_ofSource, hts.scan_eq, List.append_nil]
  obtain ⟨a, c, hread, ha, hrest⟩ :=
    (hp _).1.exists_ok fun n => hq n _ ts [] b htokens hb (by simp [Stops])
  exact ⟨a, c, hread, ha, List.map_eq_nil_iff.1 hrest⟩

theorem Reader.ReadsAll.mono {α : Type} {p : Reader α} {text : String} {Q R : α → Prop}
    (h : p.ReadsAll text Q) (hQR : ∀ a, Q a → R a) : p.ReadsAll text R := by
  obtain ⟨a, c, hread, ha, hrest⟩ := h
  exact ⟨a, c, hread, hQR a ha, hrest⟩

theorem Expr.parse_print {e : Expr} (h : e.printable = true) :
    Expr.parse.ReadsAll e.print fun e' => e.same e' = true :=
  ((Expr.writes h).readsAll Attempt.expression_agrees Attempt.expression_accepts).mono fun _ =>
    Expr.same_of_erase_eq h

theorem Stmt.parse_print {s : Stmt} (h : s.printable = true) :
    Stmt.parse.ReadsAll s.print fun s' => s.same s' = true := by
  obtain ⟨ts, hts, hs⟩ := Stmt.writes 0 s h
  have hspell := hts.append (d := ['\n']) rfl (.blank rfl .nil)
  have hwrites : Writes IsStmt s.print.toList s.erase :=
    ⟨ts, by simpa [Stmt.print, Stmt.printLines, indent] using hspell, hs⟩
  exact (hwrites.readsAll Attempt.stmt_parse_agrees fun n => (Attempt.statement_accepts n).1).mono
    fun _ => Stmt.same_of_erase_eq h

theorem Block.parse_print {b : Block} (h : b.printable = true) (e : Expected) :
    (Block.parse e).ReadsAll b.print fun b' => b.same b' = true :=
  ((Block.writes 0 b h).readsAll (Attempt.block_parse_agrees e) fun n =>
    (Attempt.statement_accepts n).2.2.1 e).mono fun _ => Block.same_of_erase_eq h

theorem Prototype.parse_print {p : Prototype} (h : p.printable = true) :
    Prototype.parse.ReadsAll p.print fun p' => p.same p' = true :=
  ((Prototype.writes h).readsAll Attempt.prototype_agrees Attempt.prototype_accepts).mono fun _ =>
    Prototype.same_of_erase_eq

theorem Item.parse_print {item : Item} (h : item.printable = true) :
    Item.parse.ReadsAll item.print fun item' => item.same item' = true :=
  ((Item.writes h).readsAll Attempt.item_agrees Attempt.item_accepts).mono fun _ =>
    Item.same_of_erase_eq h

theorem writes_lines {items : List Item} (h : ∀ item ∈ items, item.printable = true) :
    Writes IsProgram ("\n".intercalate (items.map Item.print)).toList (items.map Item.erase) := by
  induction items with
  | nil => exact ⟨[], .nil, .nil⟩
  | cons item items ih =>
    obtain ⟨ts, hts, hitem⟩ := Item.writes (h item List.mem_cons_self)
    obtain ⟨us, hus, hitems⟩ := ih fun i hi => h i (List.mem_cons_of_mem _ hi)
    refine ⟨ts ++ us, ?_, .cons hitem hitems⟩
    cases items with
    | nil =>
      cases hitems
      simpa [String.toList_intercalate] using hts
    | cons next items =>
      have hspell := hts.append (d := '\n' :: _) rfl (.blank rfl hus)
      simpa [String.toList_intercalate, List.intercalate_cons_cons] using hspell

/-- The lines of items read back as the same items at other places. -/
theorem parse_lines_erase {items : List Item} (h : ∀ item ∈ items, item.printable = true) :
    ∃ items', parse ("\n".intercalate (items.map Item.print)) = .ok items' ∧
    items'.map Item.erase = items.map Item.erase := by
  obtain ⟨ts, hts, hprogram⟩ := writes_lines h
  rw [← hts.scan_eq, ← Cursor.tokens_ofSource] at hprogram
  exact parse_of_isProgram hprogram

theorem parse_lines {items : List Item} (h : ∀ item ∈ items, item.printable = true) :
    ∃ items', parse ("\n".intercalate (items.map Item.print)) = .ok items' ∧
    Item.sameList items items' = true := by
  obtain ⟨items', hparse, herase⟩ := parse_lines_erase h
  obtain ⟨hlength, hall⟩ := all_zip_of_map_eq herase fun a ha _ => Item.same_of_erase_eq (h a ha)
  exact ⟨items', hparse, by simp only [Item.sameList, hlength, hall, decide_true, Bool.and_self]⟩

def Token.printable : Token → Bool
  | .ident name => isName name
  | .double value => value.printable
  | _ => true

theorem Token.printable_ofWord {word : String} (h : isWord word.toList = true) :
    (Token.ofWord word).printable = true := by
  unfold Token.ofWord
  split
  · rfl
  · next hty =>
    split
    · rfl
    · next hkw => simp [Token.printable, isName, h, notMem_reserved.2 ⟨hty, hkw⟩]

theorem Token.printable_ofNumber (cs : List Char) : (Token.ofNumber cs).printable = true := by
  unfold Token.ofNumber
  split
  · have hread := Double.ofRatio_nonnegative
    simp only [Token.printable, Double.printable, Double.ofNumeral, Decimal.toDouble, hread]
    rfl
  · rfl

theorem Token.printable_ofLexeme (cs : List Char) :
    (Token.ofLexeme (lexeme cs)).printable = true := by
  cases cs with
  | nil => rfl
  | cons c cs =>
    rw [lexeme]
    split
    · next hc =>
      have hletters : (cs.takeWhile Char.isAlphanum).all Char.isAlphanum = true :=
        List.all_eq_true.2 fun d hd => List.mem_takeWhile_imp hd
      rw [Token.ofLexeme, if_pos hc]
      exact Token.printable_ofWord (by simp [isWord, hc, hletters])
    · next halpha =>
      split
      · next hc =>
        rw [Token.ofLexeme, if_neg halpha, if_pos hc]
        exact Token.printable_ofNumber _
      · next hc =>
        rw [Token.ofLexeme, if_neg halpha, if_neg hc]
        rfl

theorem Scanner.printable_of_mem_tokens (n : Nat) (s : Scanner) :
    ∀ t ∈ (s.tokens n).map Placed.token, t.printable = true := by
  induction n generalizing s with
  | zero => simp [Scanner.tokens]
  | succ n ih =>
    simp only [Scanner.tokens]
    split
    · simp
    · rw [List.map_cons, List.forall_mem_cons]
      exact ⟨Token.printable_ofLexeme _, ih _⟩

/-- Printable tokens derive good trees only. -/
def Sound {α : Type} (good : α → Bool) (P : List Token → α → Prop) : Prop :=
  ∀ ts a, (∀ t ∈ ts, t.printable = true) → P ts a → good a = true

namespace Sound

variable {α : Type} {good : α → Bool} {P : List Token → α → Prop} {ts : List Token} {as : List α}

theorem separated (hP : Sound good P) (hts : ∀ t ∈ ts, t.printable = true)
    (h : Lettering.bare.Separated P ts as) : as.all good = true := by
  induction h with
  | one h => simp [hP _ _ hts h]
  | more h _ _ ih =>
    rw [List.forall_mem_append, List.forall_mem_cons] at hts
    rw [List.all_cons, hP _ _ hts.1 h, ih hts.2.2, Bool.and_self]

theorem listed (hP : Sound good P) (hts : ∀ t ∈ ts, t.printable = true)
    (h : Lettering.bare.Listed P ts as) : as.all good = true := by
  cases h with
  | none => rfl
  | some h => exact hP.separated hts h

theorem chain {P : List Token → Expr → Prop} (ops : List BinOp) (hP : Sound Expr.printable P) :
    Sound Expr.printable (Lettering.bare.Chain ops P) := by
  intro ts e hts h
  induction h with
  | operand h => exact hP _ _ hts h
  | binary h _ _ _ _ ih =>
    rw [List.forall_mem_append, List.forall_mem_cons] at hts
    rw [Expr.printable, hP _ _ hts.1 h, ih hts.2.2, Bool.and_self]

theorem exprOf {P : List Token → Expr → Prop} (hP : Sound Expr.printable P) :
    Sound Expr.printable (Lettering.bare.ExprOf P) :=
  .chain _ (.chain _ (.chain _ hP))

end Sound

theorem Expr.printableList_eq_all (es : List Expr) :
    Expr.printableList es = es.all Expr.printable := by
  induction es with
  | nil => rfl
  | cons e es ih => rw [Expr.printableList, ih, List.all_cons]

namespace Lettering

variable {ts : List Token}

theorem printable_of_token {t x : Token} (hx : x = t) (h : x.printable = true) :
    t.printable = true :=
  hx ▸ h

theorem IsFactor.printable {e : Expr} (h : bare.IsFactor ts e) :
    (∀ t ∈ ts, t.printable = true) → e.printable = true := by
  induction h using IsFactor.induction with
  | group _ _ _ ih =>
    intro hts
    simp only [List.cons_append, List.forall_mem_cons, List.forall_mem_append] at hts
    exact Sound.exprOf (fun _ _ hts h => h.2 hts) _ _ hts.2.1 ih
  | var hx _ => exact fun hts => printable_of_token hx (hts _ List.mem_cons_self)
  | call hx _ _ _ _ ih =>
    intro hts
    simp only [List.cons_append, List.forall_mem_cons, List.forall_mem_append] at hts
    rw [Expr.printable, Expr.printableList_eq_all,
      Sound.listed (.exprOf fun _ _ hts h => h.2 hts) hts.2.2.1 ih, Bool.and_true]
    exact printable_of_token hx hts.1
  | int _ _ => exact fun _ => rfl
  | double hx _ => exact fun hts => printable_of_token hx (hts _ List.mem_cons_self)

theorem IsExpr.printable {e : Expr} (h : bare.IsExpr ts e) (hts : ∀ t ∈ ts, t.printable = true) :
    e.printable = true :=
  Sound.exprOf (fun _ _ hts h => IsFactor.printable h hts) _ _ hts h

theorem sound_isName : Sound isName bare.IsName := by
  rintro _ _ hts ⟨hx⟩
  exact printable_of_token hx (hts _ List.mem_cons_self)

mutual

theorem IsStmt.printable {ts : List Token} {s : Stmt} (h : bare.IsStmt ts s)
    (hts : ∀ t ∈ ts, t.printable = true) : s.printable = true :=
  match h with
  | .declaration _ hnames _ _ => by
    simp only [List.cons_append, List.forall_mem_cons, List.forall_mem_append] at hts
    rw [Stmt.printable, sound_isName.separated hts.2.1 hnames]
    cases hnames <;> rfl
  | .assignment hx _ he _ _ => by
    simp only [List.cons_append, List.forall_mem_cons, List.forall_mem_append] at hts
    rw [Stmt.printable, IsExpr.printable he hts.2.2.1, Bool.and_true]
    exact printable_of_token hx hts.1
  | .ret _ he _ _ => by
    simp only [List.cons_append, List.forall_mem_cons, List.forall_mem_append] at hts
    exact IsExpr.printable he hts.2.1
  | .conditional h => IsIf.printable h hts
  | .loop _ _ hcond _ hbody _ => by
    simp only [List.cons_append, List.forall_mem_cons, List.forall_mem_append] at hts
    rw [Stmt.printable, IsExpr.printable hcond hts.2.2.1, IsBlock.printable hbody hts.2.2.2.2,
      Bool.and_self]
  | .block h => IsBlock.printable h hts

theorem IsIf.printable {ts : List Token} {s : Stmt} (h : bare.IsIf ts s)
    (hts : ∀ t ∈ ts, t.printable = true) : s.printable = true :=
  match h with
  | .mk _ _ hcond _ hyes hno _ => by
    simp only [List.cons_append, List.forall_mem_cons, List.forall_mem_append] at hts
    rw [Stmt.printable, IsExpr.printable hcond hts.2.2.1.1, IsBlock.printable hyes hts.2.2.1.2.2,
      IsElse.printable hno hts.2.2.2]
    rfl

theorem IsElse.printable {ts : List Token} {b : Block} (h : bare.IsElse ts b)
    (hts : ∀ t ∈ ts, t.printable = true) : b.printable = true :=
  match h with
  | .none _ => rfl
  | .block _ h => IsBlock.printable h (List.forall_mem_cons.1 hts).2
  | .conditional _ h _ => by
    rw [Block.printable, Stmt.printableList, IsIf.printable h (List.forall_mem_cons.1 hts).2]
    rfl

theorem IsBlock.printable {ts : List Token} {b : Block} (h : bare.IsBlock ts b)
    (hts : ∀ t ∈ ts, t.printable = true) : b.printable = true :=
  match h with
  | .mk _ h _ _ => by
    simp only [List.cons_append, List.forall_mem_cons, List.forall_mem_append] at hts
    exact IsStmts.printable h hts.2.1

theorem IsStmts.printable {ts : List Token} {ss : List Stmt} (h : bare.IsStmts ts ss)
    (hts : ∀ t ∈ ts, t.printable = true) : Stmt.printableList ss = true :=
  match h with
  | .nil => rfl
  | .cons hs hss => by
    rw [List.forall_mem_append] at hts
    rw [Stmt.printableList, IsStmt.printable hs hts.1, IsStmts.printable hss hts.2, Bool.and_self]

end

theorem sound_isParam : Sound Param.printable bare.IsParam := by
  rintro _ _ hts ⟨-, hy, -⟩
  exact printable_of_token hy (hts _ (by simp))

theorem IsPrototype.printable {q : Prototype} (h : bare.IsPrototype ts q)
    (hts : ∀ t ∈ ts, t.printable = true) : q.printable = true := by
  obtain ⟨-, hy, -, hparams, -, -⟩ := h
  simp only [List.cons_append, List.forall_mem_cons, List.forall_mem_append] at hts
  rw [Prototype.printable, sound_isParam.listed hts.2.2.2.1 hparams, Bool.and_true]
  exact printable_of_token hy hts.2.1

theorem IsItem.printable {item : Item} (h : bare.IsItem ts item)
    (hts : ∀ t ∈ ts, t.printable = true) : item.printable = true := by
  cases h with
  | external _ hq _ =>
    simp only [List.cons_append, List.forall_mem_cons, List.forall_mem_append] at hts
    exact hq.printable hts.2.1
  | definition hq hbody _ =>
    rw [List.forall_mem_append] at hts
    rw [Item.printable, Definition.printable, hq.printable hts.1, hbody.printable hts.2,
      Bool.and_self]

theorem IsProgram.printable {items : List Item} (h : bare.IsProgram ts items)
    (hts : ∀ t ∈ ts, t.printable = true) : ∀ item ∈ items, item.printable = true := by
  induction h with
  | nil => simp
  | cons hitem _ ih =>
    rw [List.forall_mem_append] at hts
    rw [List.forall_mem_cons]
    exact ⟨hitem.printable hts.1, ih hts.2⟩

end Lettering

mutual

theorem Expr.printable_erase (e : Expr) : e.erase.printable = e.printable :=
  match e with
  | .int _ _ | .double _ _ | .var _ _ => rfl
  | .binary _ _ l r =>
    by simp [Expr.erase, Expr.printable, Expr.printable_erase l, Expr.printable_erase r]
  | .call _ _ args => by simp [Expr.erase, Expr.printable, Expr.printableList_erase args]

theorem Expr.printableList_erase (es : List Expr) :
    Expr.printableList (Expr.eraseList es) = Expr.printableList es :=
  match es with
  | [] => rfl
  | e :: es => by
    simp [Expr.eraseList, Expr.printableList, Expr.printable_erase e, Expr.printableList_erase es]

end

mutual

theorem Stmt.printable_erase (s : Stmt) : s.erase.printable = s.printable :=
  match s with
  | .declaration _ _ _ => rfl
  | .assignment _ _ _ | .ret _ _ => by simp [Stmt.erase, Stmt.printable, Expr.printable_erase]
  | .ifElse _ _ yes no => by
    simp [Stmt.erase, Stmt.printable, Expr.printable_erase, Block.printable_erase yes,
      Block.printable_erase no]
  | .loop _ _ body =>
    by simp [Stmt.erase, Stmt.printable, Expr.printable_erase, Block.printable_erase body]
  | .block body => by simp [Stmt.erase, Stmt.printable, Block.printable_erase body]

theorem Block.printable_erase (b : Block) : b.erase.printable = b.printable :=
  match b with
  | .mk _ ss => by simp [Block.erase, Block.printable, Stmt.printableList_erase ss]

theorem Stmt.printableList_erase (ss : List Stmt) :
    Stmt.printableList (Stmt.eraseList ss) = Stmt.printableList ss :=
  match ss with
  | [] => rfl
  | s :: ss => by
    simp [Stmt.eraseList, Stmt.printableList, Stmt.printable_erase s, Stmt.printableList_erase ss]

end

theorem Item.printable_erase (item : Item) : item.erase.printable = item.printable := by
  have hproto (p : Prototype) : p.erase.printable = p.printable := by
    simp only [Prototype.erase, Prototype.printable, List.all_map]
    rfl
  cases item with
  | external p => exact hproto p
  | definition d =>
    simp [Item.erase, Definition.erase, Item.printable, Definition.printable, hproto,
      Block.printable_erase]

theorem printable_of_parse {source : String} {items : List Item} (h : parse source = .ok items) :
    ∀ item ∈ items, item.printable = true := by
  have hprogram := (isProgram_of_parse h).printable (Scanner.printable_of_mem_tokens _ _)
  intro item hitem
  rw [← Item.printable_erase]
  exact hprogram _ (List.mem_map_of_mem hitem)

/-- Every printable tree reads back from its text, to the end of it, as the same tree. Every program
that parses is printable, so the lines of its items parse as the same program. -/
theorem parse_print_roundTrip :
    (∀ e : Expr, e.printable = true → Expr.parse.ReadsAll e.print fun e' => e.same e' = true) ∧
    (∀ s : Stmt, s.printable = true → Stmt.parse.ReadsAll s.print fun s' => s.same s' = true) ∧
    (∀ b : Block, b.printable = true → ∀ e,
      (Block.parse e).ReadsAll b.print fun b' => b.same b' = true) ∧
    (∀ p : Prototype,
      p.printable = true → Prototype.parse.ReadsAll p.print fun p' => p.same p' = true) ∧
    (∀ item : Item,
      item.printable = true → Item.parse.ReadsAll item.print fun item' => item.same item' = true) ∧
    ∀ source items, parse source = .ok items → (∀ item ∈ items, item.printable = true) ∧
      ∃ items', parse ("\n".intercalate (items.map Item.print)) = .ok items' ∧
      Item.sameList items items' = true := by
  refine ⟨fun _ => Expr.parse_print, fun _ => Stmt.parse_print, fun _ => Block.parse_print,
    fun _ => Prototype.parse_print, fun _ => Item.parse_print, fun source items h => ?_⟩
  exact ⟨printable_of_parse h, parse_lines (printable_of_parse h)⟩

/-- A negative word, which prints without its sign, and an infinity. -/
def scaled : Expr :=
  .binary 0 .mul (.binary 0 .add (.var 0 "x") (.int 0 (-1)))
    (.double 0 (.ofMagnitude Double.infinityBits))

def elseless : String := "extern Int f(int a); int g() \x7b if (1 < 2) \x7b return 2.5; \x7d \x7d"

theorem parse_print_roundTrip_scaled :
    scaled.printable = true ∧ (Expr.parse.ReadsAll scaled.print fun e => scaled.same e = true) ∧
    ∃ items, parse elseless = .ok items ∧ ∃ items',
      parse ("\n".intercalate (items.map Item.print)) = .ok items' ∧
      Item.sameList items items' = true := by
  have hprintable : scaled.printable = true := by decide +kernel
  refine ⟨hprintable, parse_print_roundTrip.1 _ hprintable, ?_⟩
  have hok : (parse elseless).isOk = true := by decide +kernel
  cases h : parse elseless with
  | error e =>
    rw [h] at hok
    cases hok
  | ok items => exact ⟨items, rfl, (parse_print_roundTrip.2.2.2.2.2 _ _ h).2⟩

end ImpFront
