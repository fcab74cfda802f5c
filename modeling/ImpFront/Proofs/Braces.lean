import Mathlib
import ImpFront.Proofs.Acceptance

/-! Braces. Whatever is derivable has as many closing braces as opening ones, each behind the one it
closes, and a part of it has some that are still open. Prototypes and expressions have no braces and
no semicolons in them. So an item that is broken off outside of a block has none of these, and one
that is broken off inside has left a block open. -/

namespace ImpFront

/-- How many braces are open behind the tokens if `n` are open before; nothing if one is closed that
was not opened. -/
def openBraces : Nat → List Token → Option Nat
  | n, [] => some n
  | n, t :: ts =>
    if t = .char '{' then openBraces (n + 1) ts
    else if t = .char '}' then if n = 0 then none else openBraces (n - 1) ts
    else openBraces n ts

theorem openBraces_append (n : Nat) (us vs : List Token) :
    openBraces n (us ++ vs) = (openBraces n us).bind fun m => openBraces m vs := by
  induction us generalizing n with
  | nil => rfl
  | cons t us ih =>
    simp only [List.cons_append, openBraces]
    split
    · exact ih _
    · split
      · split
        · rfl
        · exact ih _
      · exact ih _

/-- Braces that are open before stay open. -/
theorem openBraces_add {n m : Nat} {us : List Token} (h : openBraces n us = some m) (k : Nat) :
    openBraces (n + k) us = some (m + k) := by
  induction us generalizing n with
  | nil =>
    cases h
    rfl
  | cons t us ih =>
    simp only [openBraces] at h ⊢
    split at h
    · rw [if_pos ‹_›, Nat.add_right_comm]
      exact ih h
    · rw [if_neg ‹_›]
      split at h
      · rw [if_pos ‹_›]
        split at h
        · cases h
        · rw [if_neg (by omega), show n + k - 1 = n - 1 + k by omega]
          exact ih h
      · rw [if_neg ‹_›]
        exact ih h

theorem foldl_depthAfter {n m : Nat} {us : List Token} (h : openBraces n us = some m) :
    us.foldl depthAfter n = m := by
  induction us generalizing n with
  | nil =>
    cases h
    rfl
  | cons t us ih =>
    simp only [openBraces] at h
    rw [List.foldl_cons, depthAfter]
    split at h
    · rw [if_pos ‹_›]
      exact ih h
    · rw [if_neg ‹_›]
      split at h
      · rw [if_pos ‹_›]
        split at h
        · cases h
        · exact ih h
      · rw [if_neg ‹_›]
        exact ih h

/-- `n` blocks are opened and not closed, and none is closed that was not opened. -/
def Opens (us : List Token) (n : Nat) : Prop := openBraces 0 us = some n

theorem Opens.append {us vs : List Token} {n m : Nat} (hus : Opens us n) (hvs : Opens vs m) :
    Opens (us ++ vs) (m + n) := by
  rw [Opens, openBraces_append, hus, Option.bind_some]
  simpa using openBraces_add hvs n

/-- What is broken off a balanced text closes nothing that it has not opened. -/
theorem Opens.exists_left {us vs : List Token} {n : Nat} (h : Opens (us ++ vs) n) :
    ∃ m, Opens us m := by
  rw [Opens, openBraces_append] at h
  obtain ⟨m, hm, -⟩ := Option.bind_eq_some_iff.1 h
  exact ⟨m, hm⟩

theorem Opens.foldl {us : List Token} {n : Nat} (h : Opens us n) (depth : Nat) :
    us.foldl depthAfter depth = n + depth :=
  foldl_depthAfter (by simpa using openBraces_add h depth)

/-- Neither a brace nor a semicolon. -/
def Token.isFlat (t : Token) : Bool := t ≠ .char '{' && t ≠ .char '}' && t ≠ .char ';'

def Flat (us : List Token) : Prop := ∀ t ∈ us, t.isFlat = true

theorem Flat.append {us vs : List Token} (hus : Flat us) (hvs : Flat vs) : Flat (us ++ vs) :=
  List.forall_mem_append.2 ⟨hus, hvs⟩

theorem Flat.opens {us : List Token} (h : Flat us) : Opens us 0 := by
  induction us with
  | nil => rfl
  | cons t us ih =>
    obtain ⟨ht, hus⟩ := List.forall_mem_cons.1 h
    simp only [Token.isFlat, Bool.and_eq_true, decide_eq_true_eq] at ht
    rw [Opens, openBraces, if_neg ht.1.1, if_neg ht.1.2]
    exact ih hus

theorem Flat.cons {t x : Token} {us : List Token} (hus : Flat us) (hx : x = t)
    (ht : t.isFlat = true) : Flat (x :: us) :=
  List.forall_mem_cons.2 ⟨hx ▸ ht, hus⟩

theorem flat_singleton {t x : Token} (hx : x = t) (ht : t.isFlat = true) : Flat [x] :=
  Flat.cons (List.forall_mem_nil _) hx ht

theorem Opens.block {us : List Token} {n : Nat} (h : Opens us n) :
    Opens (.char '{' :: us) (n + 1) :=
  (show Opens [.char '{'] 1 from rfl).append h

theorem Opens.closed {us : List Token} (h : Opens us 0) :
    Opens (.char '{' :: us ++ [.char '}']) 0 := by
  rw [Opens, openBraces_append, h.block]
  rfl

namespace Lettering

variable {ts : List Token}

section Lists

variable {α : Type} {P : List Token → α → Prop} {as : List α}

theorem Separated.flat (hP : ∀ ts a, P ts a → Flat ts) (h : bare.Separated P ts as) : Flat ts := by
  induction h with
  | one h => exact hP _ _ h
  | more h hx _ ih =>
    exact (hP _ _ h).append (ih.cons hx rfl)

theorem Listed.flat (hP : ∀ ts a, P ts a → Flat ts) (h : bare.Listed P ts as) : Flat ts := by
  cases h with
  | none => exact List.forall_mem_nil _
  | some h => exact h.flat hP

end Lists

theorem Chain.flat {ops : List BinOp} {P : List Token → Expr → Prop} {e : Expr}
    (hP : ∀ ts e, P ts e → Flat ts) (h : bare.Chain ops P ts e) : Flat ts := by
  induction h with
  | operand h => exact hP _ _ h
  | @binary x ts us op l r p hl _ hx _ _ ih =>
    exact (hP _ _ hl).append (ih.cons hx (by cases op <;> rfl))

theorem ExprOf.flat {P : List Token → Expr → Prop} {e : Expr} (hP : ∀ ts e, P ts e → Flat ts)
    (h : bare.ExprOf P ts e) : Flat ts :=
  Chain.flat (fun _ _ => Chain.flat fun _ _ => Chain.flat hP) h

theorem IsFactor.flat {e : Expr} (h : bare.IsFactor ts e) : Flat ts := by
  induction h using IsFactor.induction with
  | group hx _ hy ih =>
    exact ((ExprOf.flat (fun _ _ h => h.2) ih).append (flat_singleton hy rfl)).cons hx rfl
  | var hx _ => exact flat_singleton hx rfl
  | call hx hy _ hz _ ih =>
    have hargs := Listed.flat (fun _ _ => ExprOf.flat fun _ _ h => h.2) ih
    exact ((hargs.append (flat_singleton hz rfl)).cons hy rfl).cons hx rfl
  | int hx _ => exact flat_singleton hx rfl
  | double hx _ => exact flat_singleton hx rfl

theorem IsExpr.flat {e : Expr} (h : bare.IsExpr ts e) : Flat ts :=
  ExprOf.flat (fun _ _ => IsFactor.flat) h

theorem IsName.flat {name : String} (h : bare.IsName ts name) : Flat ts := by
  cases h with
  | mk hx => exact flat_singleton hx rfl

theorem IsParam.flat {p : Param} (h : bare.IsParam ts p) : Flat ts := by
  cases h with
  | mk hx hy _ => exact (flat_singleton hy rfl).cons hx rfl

theorem IsPrototype.flat {q : Prototype} (h : bare.IsPrototype ts q) : Flat ts := by
  cases h with
  | mk hx hy hz hparams hw _ =>
    have hparams := hparams.flat fun _ _ => IsParam.flat
    exact (((hparams.append (flat_singleton hw rfl)).cons hz rfl).cons hy rfl).cons hx rfl

/-- A flat text with a semicolon behind it. -/
theorem opens_ended {us : List Token} {x : Token} (h : Flat us) (hx : x = .char ';') :
    Opens (us ++ [x]) 0 := by
  subst hx
  exact h.opens.append (show Opens [.char ';'] 0 from rfl)

theorem opens_condition {us vs : List Token} {y z : Token} (hus : Flat us) (hy : y = .char '(')
    (hz : z = .char ')') (hvs : Opens vs 0) : Opens (y :: us ++ z :: vs) 0 := by
  have hflat : Flat (y :: us ++ [z]) := (hus.append (flat_singleton hz rfl)).cons hy rfl
  simpa using hflat.opens.append hvs

theorem opens_cons {us : List Token} {t x : Token} {n : Nat} (h : Opens us n) (hx : x = t)
    (ht : t.isFlat = true) : Opens (x :: us) n :=
  (flat_singleton hx ht).opens.append h

mutual

theorem IsStmt.opens {ts : List Token} {s : Stmt} : bare.IsStmt ts s → Opens ts 0
  | .declaration hx hnames hy _ =>
    opens_ended ((Separated.flat (fun _ _ => IsName.flat) hnames).cons hx rfl) hy
  | .assignment hx hy he hz _ => opens_ended (((IsExpr.flat he).cons hy rfl).cons hx rfl) hz
  | .ret hx he hy _ => opens_ended ((IsExpr.flat he).cons hx rfl) hy
  | .conditional h => IsIf.opens h
  | .loop hx hy he hz hbody _ =>
    opens_cons (opens_condition (IsExpr.flat he) hy hz (IsBlock.opens hbody)) hx rfl
  | .block h => IsBlock.opens h

theorem IsIf.opens {ts : List Token} {s : Stmt} : bare.IsIf ts s → Opens ts 0
  | .mk hx hy he hz hyes hno _ => by
    have hyes := opens_condition (IsExpr.flat he) hy hz (IsBlock.opens hyes)
    exact opens_cons (hyes.append (IsElse.opens hno)) hx rfl

theorem IsElse.opens {ts : List Token} {b : Block} : bare.IsElse ts b → Opens ts 0
  | .none _ => rfl
  | .block hx h => opens_cons (IsBlock.opens h) hx rfl
  | .conditional hx h _ => opens_cons (IsIf.opens h) hx rfl

theorem IsBlock.opens {ts : List Token} {b : Block} : bare.IsBlock ts b → Opens ts 0
  | .mk hx hss hy _ => by
    obtain rfl : _ = Token.char '{' := hx
    obtain rfl : _ = Token.char '}' := hy
    exact (IsStmts.opens hss).closed

theorem IsStmts.opens {ts : List Token} {ss : List Stmt} : bare.IsStmts ts ss → Opens ts 0
  | .nil => rfl
  | .cons hs hss => (IsStmt.opens hs).append (IsStmts.opens hss)

end

theorem IsItem.opens {i : Item} (h : bare.IsItem ts i) : Opens ts 0 := by
  cases h with
  | external hx hq hy => exact opens_ended (hq.flat.cons hx rfl) hy
  | definition hq hbody _ => exact hq.flat.opens.append hbody.opens

end Lettering

/-- What an item that fails has read: some part of a prototype, or a block that is still open. -/
def Cut (us : List Token) : Prop := us ≠ [] ∧ Flat us ∨ ∃ n, Opens us (n + 1)

theorem Cut.ne_nil {us : List Token} (h : Cut us) : us ≠ [] := by
  rcases h with ⟨hne, -⟩ | ⟨n, hopens⟩
  · exact hne
  · rintro rfl
    cases hopens

namespace Lettering

variable {ts us vs : List Token}

/-- A part of a block has its brace open. -/
theorem IsBlock.opens_part {b : Block} (h : bare.IsBlock (us ++ vs) b) (hus : us ≠ [])
    (hvs : vs ≠ []) : ∃ n, Opens us (n + 1) := by
  generalize hts : us ++ vs = ts at h
  cases h with
  | @mk x y ts ss p hx hss hy _ =>
    obtain rfl : x = .char '{' := hx
    obtain ⟨u, us, rfl⟩ := List.exists_cons_of_ne_nil hus
    obtain ⟨vs, v, rfl⟩ := List.eq_nil_or_concat vs |>.resolve_left hvs
    rw [List.concat_eq_append, List.cons_append, ← List.append_assoc, List.cons_append,
      List.cons.injEq] at hts
    obtain ⟨rfl, hts⟩ := hts
    obtain ⟨rfl, -⟩ := List.append_inj' hts rfl
    obtain ⟨n, hn⟩ := hss.opens.exists_left
    exact ⟨n, hn.block⟩

theorem IsItem.cut {i : Item} (h : bare.IsItem (us ++ vs) i) (hus : us ≠ []) (hvs : vs ≠ []) :
    Cut us := by
  generalize hts : us ++ vs = ts at h
  cases h with
  | @external x y ts q hx hq hy =>
    obtain ⟨vs, v, rfl⟩ := List.eq_nil_or_concat vs |>.resolve_left hvs
    rw [List.concat_eq_append, ← List.append_assoc] at hts
    obtain ⟨hts, -⟩ := List.append_inj' hts rfl
    have hflat : Flat (us ++ vs) := hts ▸ hq.flat.cons hx rfl
    exact .inl ⟨hus, fun t ht => hflat t (List.mem_append_left _ ht)⟩
  | @definition ts bs q body p hq hbody _ =>
    rcases List.append_eq_append_iff.1 hts with ⟨ws, rfl, rfl⟩ | ⟨ws, rfl, rfl⟩
    · exact .inl ⟨hus, fun t ht => hq.flat t (List.mem_append_left _ ht)⟩
    · by_cases hws : ws = []
      · subst hws
        rw [List.append_nil] at hus ⊢
        exact .inl ⟨hus, hq.flat⟩
      · obtain ⟨n, hn⟩ := hbody.opens_part hws hvs
        exact .inr ⟨n, hq.flat.opens.append hn⟩

end Lettering

theorem exists_isItem_cons {t : Token} (h : t.startsItem = true) : ∃ ts i, IsItem (t :: ts) i := by
  have hprototype : ∀ ty, IsPrototype [.type ty, .ident "x", .char '(', .char ')']
      ⟨0, "x", [], ty⟩ := fun ty =>
    @Lettering.IsPrototype.mk _ _ _ _ _ _ [] _ _ _ _ rfl rfl rfl .none rfl rfl
  have hblock : IsBlock [.char '{', .char '}'] (.mk 0 []) :=
    @Lettering.IsBlock.mk _ _ _ _ [] _ _ rfl .nil rfl rfl
  unfold Token.startsItem at h
  split at h
  · exact ⟨_, _, .definition (hprototype _) hblock rfl⟩
  · exact ⟨_, _, .external rfl (hprototype (.plain .int)) (y := .char ';') rfl⟩
  · cases h

/-- An item that is begun and fails is cut off. -/
theorem Item.cut_of_parse_error {c d : Cursor} {e : SyntaxError}
    (hc : c.current.startsItem = true) (h : Item.parse c = .error e d) :
    ∃ us, c.Reads us d ∧ Cut (us.map Placed.token) := by
  have hrun := Attempt.ofReader_eq_error.2 h
  obtain ⟨us, hus, more, hmore, -, item, hitem⟩ := Attempt.item_parse_parses c _ d hrun
  obtain ⟨vs, hvs, hrefused⟩ := (Attempt.item_parse_follows id).exists_error hrun
  obtain rfl : us = vs := List.append_cancel_right (hus.rest.symm.trans hvs.rest)
  have hitem := hitem.forget
  rw [List.map_append] at hitem
  refine ⟨us, hus, hitem.cut (fun hnil => ?_) (mt List.map_eq_nil_iff.1 hmore)⟩
  -- an item can go on from here, so the reader does not fail at its first token
  obtain rfl := List.map_eq_nil_iff.1 hnil
  obtain rfl := hus.unique (.refl c)
  obtain ⟨ts, i, hi⟩ := exists_isItem_cons hc
  have hne : d.current ≠ .eof := fun heof => by
    rw [heof] at hc
    cases hc
  obtain ⟨c', e', d', htokens, hfail⟩ :=
    hrefused (d.current :: ts) (by rw [Cursor.tokens_eq_cons hne]; rfl)
  obtain ⟨_, _, hread, -⟩ := (Attempt.item_agrees c').1.exists_ok fun n =>
    Attempt.item_accepts n c' _ [] i (by rw [htokens, List.append_nil]; rfl) hi (stops_nil [])
  rw [Attempt.ofReader_eq_error, hread] at hfail
  cases hfail

/-- A token that starts no item is found out at once. -/
theorem Item.parse_refuses {c : Cursor} (hc : c.current.startsItem = false) :
    Item.parse c = .error ⟨.item, c.pos, c.current⟩ c := by
  show Item.parse c = Reader.fail .item c
  rw [Item.parse, bind_of_ok (rfl : Reader.peek c = .ok c.current c)]
  cases hcur : c.current with
  | type ty =>
    rw [hcur] at hc
    cases hc
  | keyword k =>
    cases k with
    | externKw =>
      rw [hcur] at hc
      cases hc
    | _ => rfl
  | _ => rfl

end ImpFront
