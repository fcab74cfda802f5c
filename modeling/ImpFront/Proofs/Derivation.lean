import ImpFront.Proofs.Budget
import ImpFront.Proofs.Grammar

/-! What a reader has read. If it succeeds, this derives the tree that it returns, with the places
of its nodes; an operation is given the place of its left operand, and stands behind the parentheses
around that. If it fails, this is part of such a text, at every level that the reader is in: a few
plain tokens complete it. -/

namespace ImpFront

theorem startOf_append {ts : List Placed} {p : Nat} (h : startOf ts = some p) (us : List Placed) :
    startOf (ts ++ us) = some p := by
  cases ts with
  | nil => cases h
  | cons t ts => exact h

namespace BehindParens

theorem append {ts : List Placed} {p : Nat} (h : BehindParens ts p) (us : List Placed) :
    BehindParens (ts ++ us) p := by
  unfold BehindParens at *
  rw [List.dropWhile_append, if_neg]
  · exact startOf_append h us
  · intro hempty
    rw [List.isEmpty_iff.1 hempty] at h
    cases h

theorem group {x : Placed} {ts : List Placed} {p : Nat} (h : BehindParens ts p)
    (hx : x.token = .char '(') : BehindParens (x :: ts) p := by
  unfold BehindParens at *
  rwa [List.dropWhile_cons_of_pos (by simpa using hx)]

theorem of_atStart {x : Placed} {ts : List Placed} {p : Nat} (h : AtStart (x :: ts) p)
    (hx : x.token ≠ .char '(') : BehindParens (x :: ts) p := by
  unfold BehindParens
  rwa [List.dropWhile_cons_of_neg (by simpa using hx)]

end BehindParens

/-- The letters that readers read, with the law of the places that they give. -/
abbrev Lettering.read : Lettering Placed := .placed BehindParens

namespace Lettering

variable {ts : List Placed} {e : Expr}

theorem Chain.behindParens {ops : List BinOp} {P : List Placed → Expr → Prop}
    (hP : ∀ ts e, P ts e → BehindParens ts e.pos) (h : read.Chain ops P ts e) :
    BehindParens ts e.pos := by
  cases h with
  | operand h => exact hP _ _ h
  | binary _ _ _ _ hp => exact hp

theorem IsFactor.behindParens (h : read.IsFactor ts e) : BehindParens ts e.pos := by
  have hstart : ∀ {x : Placed} {us : List Placed} {p : Nat} {t : Token}, x.token = t →
      t ≠ .char '(' → read.node (x :: us) p → BehindParens (x :: us) p := fun hx ht hp =>
    .of_atStart (hp.resolve_left (List.cons_ne_nil _ _)) (hx.trans_ne ht)
  induction h using IsFactor.induction with
  | group hx _ _ ih =>
    have hexpr := Chain.behindParens (fun _ _ => Chain.behindParens fun _ _ =>
      Chain.behindParens fun _ _ h => h.2) ih
    exact (hexpr.append _).group hx
  | var hx hp => exact hstart hx (by simp) hp
  | call hx _ _ _ hp _ => exact hstart hx (by simp) hp
  | int hx hp => exact hstart hx (by simp) hp
  | double hx hp => exact hstart hx (by simp) hp

/-- The expressions of the given levels; those that bind loosest come first. -/
abbrev level (ls : List (List BinOp)) : List Placed → Expr → Prop :=
  ls.foldr read.Chain read.IsFactor

theorem behindParens_of_level {ls : List (List BinOp)} (h : level ls ts e) :
    BehindParens ts e.pos := by
  induction ls generalizing ts e with
  | nil => exact IsFactor.behindParens h
  | cons ops tighter ih => exact Chain.behindParens (fun _ _ => ih) h

theorem exists_node (ts : List Placed) : ∃ p, read.node ts p := by
  cases ts with
  | nil => exact ⟨0, .inl rfl⟩
  | cons t ts => exact ⟨t.pos, .inr rfl⟩

end Lettering

/-- A text that is read starts where the cursor is. -/
theorem Cursor.Reads.node {c d : Cursor} {us : List Placed} (h : c.Reads us d) :
    Lettering.read.node us c.pos := by
  cases us with
  | nil => exact .inl rfl
  | cons t ts =>
    refine .inr ?_
    unfold Cursor.pos
    rw [h.rest]
    rfl

/-- The tokens that broken off texts are completed with. -/
def fillers : List Token :=
  [.int 0, .ident "x", .type (.plain .int), .keyword .ifKw, .char '(', .char ')', .char '{',
    .char '}', .char '=', .char ';']

/-- With some fillers behind it, the text has property `P`. -/
def Completable (P : List Placed → Prop) (us : List Placed) : Prop :=
  ∃ more : List Placed, (∀ t ∈ more, t.token ∈ fillers) ∧ P (us ++ more)

/-- At least one filler is missing. -/
def Broken (P : List Placed → Prop) (us : List Placed) : Prop :=
  ∃ more : List Placed, more ≠ [] ∧ (∀ t ∈ more, t.token ∈ fillers) ∧ P (us ++ more)

section Fillers

variable {P Q : List Placed → Prop} {us vs : List Placed}

theorem Completable.of (h : P us) : Completable P us :=
  ⟨[], by simp, by rwa [List.append_nil]⟩

theorem Broken.fill (h : Broken Q us) (hfill : ∀ ts, Q ts → Completable P ts) : Broken P us := by
  obtain ⟨more, hne, hmore, hQ⟩ := h
  obtain ⟨more', hmore', hP⟩ := hfill _ hQ
  refine ⟨more ++ more', List.append_ne_nil_of_left_ne_nil hne _,
    List.forall_mem_append.2 ⟨hmore, hmore'⟩, ?_⟩
  rwa [← List.append_assoc]

theorem Broken.append (h : Broken (fun vs => P (us ++ vs)) vs) : Broken P (us ++ vs) := by
  obtain ⟨more, hne, hmore, hP⟩ := h
  exact ⟨more, hne, hmore, by rwa [List.append_assoc]⟩

end Fillers

/-- The texts from which something can be derived. -/
def Derived {α : Type} (P : List Placed → α → Prop) (ts : List Placed) : Prop := ∃ a, P ts a

theorem Reader.operator?_eq_some {ops : List BinOp} {t : Token} {op : BinOp} :
    operator? ops t = some op ↔ op ∈ ops ∧ t = .char op.toChar := by
  cases t with
  | char c =>
    simp only [operator?, Option.filter_eq_some_iff, decide_eq_true_eq, Token.char.injEq]
    constructor
    · rintro ⟨h, hop⟩
      have := List.find?_some h
      exact ⟨hop, (by simpa using this : op.toChar = c).symm⟩
    · rintro ⟨hop, rfl⟩
      exact ⟨BinOp.ofChar?_toChar op, hop⟩
  | _ => simp [operator?]

namespace Attempt

open Reader

variable {α β : Type} {p : Attempt α} {k : α → Attempt β} {c : Cursor}

/-- A success has read tokens `us` with result `a` such that `Q us a`. A failure has broken off a
text in `R`. -/
def Derives (p : Attempt α) (c : Cursor) (Q : List Placed → α → Prop) (R : List Placed → Prop) :
    Prop :=
  ∀ r d, p c = some (r, d) → ∃ us, c.Reads us d ∧
    match r with
    | .ok a => Q us a
    | .error _ => Broken R us

namespace Derives

variable {Q : List Placed → β → Prop} {R : List Placed → Prop}

theorem spent : (spent : Attempt β).Derives c Q R := fun _ _ h => by cases h

theorem pure {b : β} (h : Q [] b) : (Pure.pure b : Attempt β).Derives c Q R := by
  rintro _ _ ⟨⟩
  exact ⟨[], .refl c, h⟩

theorem fail (e : Expected) (h : Broken R []) :
    (ofReader (Reader.fail e) : Attempt β).Derives c Q R := by
  rintro _ _ ⟨⟩
  exact ⟨[], .refl c, h⟩

theorem mono {Q₀ : List Placed → α → Prop} {Q : List Placed → α → Prop} {R₀ : List Placed → Prop}
    (h : p.Derives c Q₀ R₀) (hQ : ∀ us a, Q₀ us a → Q us a)
    (hR : ∀ us, R₀ us → Completable R us) : p.Derives c Q R := by
  intro r d hrun
  obtain ⟨us, hus, hr⟩ := h r d hrun
  refine ⟨us, hus, ?_⟩
  cases r with
  | ok a => exact hQ us a hr
  | error e => exact hr.fill hR

theorem bind {Q₀ : List Placed → α → Prop} {R₀ : List Placed → Prop} (hp : p.Derives c Q₀ R₀)
    (hR : ∀ us, R₀ us → Completable R us)
    (hk : ∀ us a d, c.Reads us d → p c = some (.ok a, d) → Q₀ us a →
      (k a).Derives d (fun vs b => Q (us ++ vs) b) fun vs => R (us ++ vs)) :
    (p >>= k).Derives c Q R := by
  intro r d hrun
  rcases bind_eq_some hrun with ⟨e, he, rfl⟩ | ⟨a, m, ha, hb⟩
  · obtain ⟨us, hus, hbroken⟩ := hp _ d he
    exact ⟨us, hus, hbroken.fill hR⟩
  · obtain ⟨us, hus, hQ⟩ := hp _ m ha
    obtain ⟨vs, hvs, hr⟩ := hk us a m hus ha hQ r d hb
    refine ⟨us ++ vs, hus.trans hvs, ?_⟩
    cases r with
    | ok b => exact hr
    | error e => exact hr.append

/-- The result of a reader is only wrapped up. -/
theorem map {g : α → β} (h : p.Derives c (fun us a => Q us (g a)) R) :
    (p >>= fun a => Pure.pure (g a)).Derives c Q R :=
  h.bind (fun _ => .of) fun us a _ _ _ hQ => pure (by rwa [List.append_nil])

theorem peek {k : Token → Attempt β} (h : (k c.current).Derives c Q R) :
    (ofReader Reader.peek >>= k).Derives c Q R := h

theorem here {k : Nat → Attempt β} (h : (k c.pos).Derives c Q R) :
    (ofReader Reader.here >>= k).Derives c Q R := h

/-- A token that was looked at is read. -/
theorem skip {k : Unit → Attempt β} {t : Token} (hc : c.current = t) (ht : t ≠ .eof)
    (hk : ∀ d, (k ()).Derives d (fun vs b => Q (⟨t, c.pos⟩ :: vs) b)
      fun vs => R (⟨t, c.pos⟩ :: vs)) :
    (ofReader Reader.skip >>= k).Derives c Q R := by
  subst hc
  intro r d hrun
  obtain ⟨vs, hvs, hr⟩ := hk c.advance r d hrun
  refine ⟨⟨c.current, c.pos⟩ :: vs, (Cursor.Reads.advance ht).trans hvs, ?_⟩
  cases r with
  | ok b => exact hr
  | error e =>
    exact (show Broken (fun ws => R ([⟨c.current, c.pos⟩] ++ ws)) vs from hr).append

variable {e : Expected}

/-- The token that is expected, or none at all. -/
theorem char (ch : Char) (e : Expected) (h : Broken R []) :
    (ofReader (Reader.expect ch e)).Derives c (fun us _ => us = [⟨.char ch, c.pos⟩]) R := by
  unfold Reader.expect
  rw [ofReader_bind]
  refine peek ?_
  split
  · next hc => exact skip (k := fun _ => Pure.pure ()) hc (by simp) fun _ => pure rfl
  · exact fail e h

theorem expect {ch : Char} {k : Unit → Attempt β} (h : Broken R [])
    (hk : ∀ d, (k ()).Derives d (fun vs b => Q (⟨.char ch, c.pos⟩ :: vs) b)
      fun vs => R (⟨.char ch, c.pos⟩ :: vs)) :
    (ofReader (Reader.expect ch e) >>= k).Derives c Q R := by
  refine (char ch e h).bind (fun _ => .of) fun us _ d _ _ hus => ?_
  subst hus
  exact hk d

theorem type {k : Ty → Attempt β} (h : Broken R [])
    (hk : ∀ ty d, (k ty).Derives d (fun vs b => Q (⟨.type ty, c.pos⟩ :: vs) b)
      fun vs => R (⟨.type ty, c.pos⟩ :: vs)) :
    (ofReader (Reader.type e) >>= k).Derives c Q R := by
  have htype : (ofReader (Reader.type e)).Derives c (fun us ty => us = [⟨.type ty, c.pos⟩]) R := by
    unfold Reader.type
    rw [ofReader_bind]
    refine peek ?_
    split
    · next ty hc =>
      rw [ofReader_bind]
      exact skip hc (by simp) fun _ => pure rfl
    · exact fail e h
  refine htype.bind (fun _ => .of) fun us ty d _ _ hus => ?_
  subst hus
  exact hk ty d

theorem ident {k : String → Attempt β} (h : Broken R [])
    (hk : ∀ name d, (k name).Derives d (fun vs b => Q (⟨.ident name, c.pos⟩ :: vs) b)
      fun vs => R (⟨.ident name, c.pos⟩ :: vs)) :
    (ofReader (Reader.ident e) >>= k).Derives c Q R := by
  have hident : (ofReader (Reader.ident e)).Derives c (fun us name => us = [⟨.ident name, c.pos⟩])
      R := by
    unfold Reader.ident
    rw [ofReader_bind]
    refine peek ?_
    split
    · next name hc =>
      rw [ofReader_bind]
      exact skip hc (by simp) fun _ => pure rfl
    · exact fail e h
  refine hident.bind (fun _ => .of) fun us name d _ _ hus => ?_
  subst hus
  exact hk name d

end Derives

/-- What the reader has read derives its result, or is broken off. -/
def Parses (p : Attempt α) (P : List Placed → α → Prop) : Prop := ∀ c, p.Derives c P (Derived P)

theorem Parses.map_of {P : List Placed → α → Prop} {Q : List Placed → β → Prop}
    {R : List Placed → Prop} {g : α → β} (h : p.Parses P) (hQ : ∀ us a, P us a → Q us (g a))
    (hR : ∀ us a, P us a → R us) : (p >>= fun a => Pure.pure (g a)).Derives c Q R := by
  refine Derives.map ((h c).mono hQ fun us hus => ?_)
  obtain ⟨a, ha⟩ := hus
  exact .of (hR us a ha)

section Lists

variable {P : List Placed → α → Prop}

/-- One round of a loop over items with commas between them. -/
theorem commas_parses {rest : Attempt (List α)} (hitem : p.Parses P)
    (hrest : rest.Parses (Lettering.read.Separated P)) :
    (do
      let a ← p
      if (← peek) = .char ',' then
        skip
        return a :: (← rest)
      else return [a] : Attempt (List α)).Parses (Lettering.read.Separated P) := by
  intro c
  refine (hitem c).bind (fun us h => ?_) fun us a d _ _ ha => Derives.peek ?_
  · obtain ⟨a, ha⟩ := h
    exact .of ⟨_, .one ha⟩
  split
  · next h =>
    refine Derives.skip h (by simp) fun d' => hrest.map_of (fun vs as has => ?_) fun vs as has => ?_
    · exact .more ha rfl has
    · exact ⟨_, .more ha rfl has⟩
  · exact .pure (by rw [List.append_nil]; exact .one ha)

theorem commaList_parses {item : Reader α} (hitem : (ofReader item).Parses P) (n : Nat) :
    (commaList item n).Parses (Lettering.read.Separated P) := by
  induction n with
  | zero => exact fun c => .spent
  | succ n ih => exact commas_parses hitem ih

/-- A list with the parenthesis that closes it. -/
def ClosedList (P : List Placed → α → Prop) (us : List Placed) (as : List α) : Prop :=
  ∃ ts x, us = ts ++ [x] ∧ x.token = .char ')' ∧ Lettering.read.Listed P ts as

theorem closing_parses {list : Attempt (List α)} (hlist : list.Parses (Lettering.read.Separated P))
    (e : Expected) :
    (do
      let xs ← if (← peek) = .char ')' then pure [] else list
      expect ')' e
      return xs : Attempt (List α)).Parses (ClosedList P) := by
  have hfill : ∀ us as, Lettering.read.Listed P us as →
      Broken (fun vs => Derived (ClosedList P) (us ++ vs)) [] := fun us as h =>
    ⟨[⟨.char ')', 0⟩], by simp, by decide, as, us, _, rfl, rfl, h⟩
  intro c
  refine Derives.peek ?_
  dsimp only
  split
  · refine Derives.expect (hfill [] [] .none) fun d => .pure ?_
    exact ⟨[], _, rfl, rfl, .none⟩
  · refine (hlist c).bind (fun us h => ?_) fun us as d _ _ has => ?_
    · obtain ⟨as, has⟩ := h
      exact ⟨[⟨.char ')', 0⟩], by decide, as, us, _, rfl, rfl, .some has⟩
    · exact Derives.expect (hfill us as (.some has)) fun d => .pure ⟨us, _, rfl, rfl, .some has⟩

end Lists

/-- The simplest expression. -/
theorem exprAt_zero : ExprAt BehindParens [⟨.int 0, 0⟩] (.int 0 0) :=
  .operand (.operand (.operand (.int rfl (.inr rfl))))

theorem chain_succ_parses {n : Nat} {ops : List BinOp} {tighter : List (List BinOp)}
    (htighter : (chain n tighter).Parses (Lettering.level tighter))
    (hsame : (chain n (ops :: tighter)).Parses (Lettering.level (ops :: tighter))) :
    (chain (n + 1) (ops :: tighter)).Parses (Lettering.level (ops :: tighter)) := by
  intro c
  unfold chain
  refine (htighter c).bind (fun us h => ?_) fun us l d _ _ hl => Derives.peek ?_
  · obtain ⟨e, he⟩ := h
    exact .of ⟨_, .operand he⟩
  split
  · next op hop =>
    obtain ⟨hmem, hd⟩ := operator?_eq_some.1 hop
    -- the operation stands where its left operand does
    have hlaw : ∀ vs, BehindParens (us ++ ⟨.char op.toChar, d.pos⟩ :: vs) l.pos :=
      fun vs => (Lettering.behindParens_of_level hl).append _
    refine Derives.skip hd (by simp) fun d' => hsame.map_of ?_ ?_
    · exact fun vs r hr => .binary hl hmem rfl hr (hlaw vs)
    · exact fun vs r hr => ⟨_, .binary hl hmem rfl hr (hlaw vs)⟩
  · exact .pure (by rw [List.append_nil]; exact .operand hl)

theorem factor_succ_parses {n : Nat} (hexpr : (chain n levels).Parses (ExprAt BehindParens))
    (hparens : (argumentsInParens n).Parses (ClosedList (ExprAt BehindParens))) :
    (factor (n + 1)).Parses (FactorAt BehindParens) := by
  have hzero : Broken (Derived (FactorAt BehindParens)) [] :=
    ⟨[⟨.int 0, 0⟩], by simp, by decide, _, .int rfl (.inr rfl)⟩
  intro c
  unfold factor
  refine Derives.here (Derives.peek ?_)
  split
  · next h =>
    refine Derives.skip h (by simp) fun d => (hexpr d).bind (fun us hus => ?_)
      fun us e d' _ _ he => ?_
    · obtain ⟨e, he⟩ := hus
      exact ⟨[⟨.char ')', 0⟩], by decide, _, .group rfl he rfl⟩
    · refine Derives.expect ?_ fun d => .pure (.group rfl he rfl)
      exact ⟨[⟨.char ')', 0⟩], by simp, by decide, _, .group rfl he rfl⟩
  · next name h =>
    refine Derives.skip h (by simp) fun d => Derives.peek ?_
    split
    · next h' =>
      refine Derives.skip h' (by simp) fun d' => hparens.map_of ?_ ?_
      · rintro us args ⟨ts, x, rfl, hx, hargs⟩
        exact .call rfl rfl hargs hx (.inr rfl)
      · rintro us args ⟨ts, x, rfl, hx, hargs⟩
        exact ⟨_, .call rfl rfl hargs hx (.inr rfl)⟩
    · exact .pure (.var rfl (.inr rfl))
  · next value h => exact Derives.skip h (by simp) fun d => .pure (.int rfl (.inr rfl))
  · next value h => exact Derives.skip h (by simp) fun d => .pure (.double rfl (.inr rfl))
  · exact .fail _ hzero

theorem chain_parses (n : Nat) :
    (∀ ls, (chain n ls).Parses (Lettering.level ls)) ∧ (factor n).Parses (FactorAt BehindParens) ∧
      (argumentsInParens n).Parses (ClosedList (ExprAt BehindParens)) ∧
      (arguments n).Parses (Lettering.read.Separated (ExprAt BehindParens)) := by
  induction n with
  | zero =>
    refine ⟨fun ls c => ?_, fun c => .spent, fun c => .spent, fun c => .spent⟩
    unfold chain
    exact .spent
  | succ n ih =>
    obtain ⟨hchain, hfactor, hparens, harguments⟩ := ih
    have hexpr : (chain n levels).Parses (ExprAt BehindParens) := hchain levels
    refine ⟨fun ls => ?_, factor_succ_parses hexpr hparens, ?_, ?_⟩
    · cases ls with
      | nil =>
        unfold chain
        exact hfactor
      | cons ops tighter => exact chain_succ_parses (hchain tighter) (hchain _)
    · unfold argumentsInParens
      exact closing_parses harguments _
    · unfold arguments
      exact commas_parses hexpr harguments

theorem expression_parses (n : Nat) : (expression n).Parses (ExprAt BehindParens) :=
  (chain_parses n).1 levels

/-- A condition in parentheses. -/
def ConditionAt (us : List Placed) (e : Expr) : Prop :=
  ∃ x ts y, us = x :: ts ++ [y] ∧ x.token = .char '(' ∧ y.token = .char ')' ∧
    ExprAt BehindParens ts e

theorem condition_parses (after : Keyword) (n : Nat) :
    (condition after n).Parses ConditionAt := by
  intro c
  refine Derives.expect ?_ fun d => (expression_parses n d).bind (fun us hus => ?_)
    fun us e d' _ _ he => Derives.expect ?_ fun d => .pure ?_
  · exact ⟨[⟨.char '(', 0⟩, ⟨.int 0, 0⟩, ⟨.char ')', 0⟩], by simp, by decide, _,
      _, _, _, rfl, rfl, rfl, exprAt_zero⟩
  · obtain ⟨e, he⟩ := hus
    exact ⟨[⟨.char ')', 0⟩], by decide, e, _, us, _, rfl, rfl, rfl, he⟩
  · exact ⟨[⟨.char ')', 0⟩], by simp, by decide, e, _, us, _, rfl, rfl, rfl, he⟩
  · exact ⟨_, us, _, rfl, rfl, rfl, he⟩

theorem ConditionAt.ifElse {x : Placed} {ts us vs : List Placed} {cond : Expr} {yes no : Block}
    (hx : x.token = .keyword .ifKw) (hcond : ConditionAt ts cond)
    (hyes : BlockAt BehindParens us yes) (hno : ElseAt BehindParens vs no) :
    IfAt BehindParens (x :: (ts ++ (us ++ vs))) (.ifElse x.pos cond yes no) := by
  obtain ⟨y, ts, z, rfl, hy, hz, hcond⟩ := hcond
  simpa using Lettering.IsIf.mk hx hy hcond hz hyes hno (.inr rfl)

theorem ConditionAt.loop {x : Placed} {ts us : List Placed} {cond : Expr} {body : Block}
    (hx : x.token = .keyword .whileKw) (hcond : ConditionAt ts cond)
    (hbody : BlockAt BehindParens us body) :
    StmtAt BehindParens (x :: (ts ++ us)) (.loop x.pos cond body) := by
  obtain ⟨y, ts, z, rfl, hy, hz, hcond⟩ := hcond
  simpa using Lettering.IsStmt.loop hx hy hcond hz hbody (.inr rfl)

/-- A simple statement without its semicolon. -/
def SimpleAt (us : List Placed) (s : Stmt) : Prop :=
  ∀ x : Placed, x.token = .char ';' → StmtAt BehindParens (us ++ [x]) s

theorem ident_parses (e : Expected) : (ofReader (ident e)).Parses (NameAt BehindParens) := by
  intro c
  have hname := Derives.ident (c := c) (e := e) (k := Pure.pure) (Q := NameAt BehindParens)
    (R := Derived (NameAt BehindParens)) ⟨[⟨.ident "x", 0⟩], by simp, by decide, _, .mk rfl⟩
    fun name d => .pure (.mk rfl)
  rwa [bind_pure] at hname

theorem declaration_parses (n : Nat) : (declaration n).Parses SimpleAt := by
  intro c
  refine Derives.here (Derives.type ?_ fun ty d =>
    (commaList_parses (ident_parses _) n).map_of ?_ ?_)
  · exact ⟨[⟨.type (.plain .int), 0⟩, ⟨.ident "x", 0⟩], by simp, by decide, _,
      fun x hx => .declaration rfl (.one (.mk rfl)) hx (.inr rfl)⟩
  · exact fun us names hnames x hx => .declaration rfl hnames hx (.inr rfl)
  · exact fun us names hnames => ⟨_, fun x hx => .declaration rfl hnames hx (.inr rfl)⟩

theorem assignment_parses (n : Nat) : (assignment n).Parses SimpleAt := by
  intro c
  refine Derives.here (Derives.ident ?_ fun target d => Derives.expect ?_ fun d' =>
    (expression_parses n).map_of ?_ ?_)
  · exact ⟨[⟨.ident "x", 0⟩, ⟨.char '=', 0⟩, ⟨.int 0, 0⟩], by simp, by decide, _,
      fun x hx => .assignment rfl rfl exprAt_zero hx (.inr rfl)⟩
  · exact ⟨[⟨.char '=', 0⟩, ⟨.int 0, 0⟩], by simp, by decide, _,
      fun x hx => .assignment rfl rfl exprAt_zero hx (.inr rfl)⟩
  · exact fun us e he x hx => .assignment rfl rfl he hx (.inr rfl)
  · exact fun us e he => ⟨_, fun x hx => .assignment rfl rfl he hx (.inr rfl)⟩

theorem returning_derives (n : Nat) (hc : c.current = .keyword .returnKw) :
    (returning n).Derives c SimpleAt (Derived SimpleAt) := by
  refine Derives.here (Derives.skip hc (by simp) fun d => (expression_parses n).map_of ?_ ?_)
  · exact fun us e he x hx => .ret rfl he hx (.inr rfl)
  · exact fun us e he => ⟨_, fun x hx => .ret rfl he hx (.inr rfl)⟩

theorem ended_derives {simple : Attempt Stmt} (h : simple.Derives c SimpleAt (Derived SimpleAt)) :
    (ended simple).Derives c (StmtAt BehindParens) (Derived (StmtAt BehindParens)) := by
  refine h.bind (fun us hus => ?_) fun us s d _ _ hs => Derives.expect ?_ fun d' => .pure (hs _ rfl)
  · obtain ⟨s, hs⟩ := hus
    exact ⟨[⟨.char ';', 0⟩], by decide, s, hs _ rfl⟩
  · exact ⟨[⟨.char ';', 0⟩], by simp, by decide, s, hs _ rfl⟩

/-- A loop up to some token ends in front of it, if its other rounds do. -/
theorem current_of_round {t : Token} {rest : Attempt (List α)} {as : List α} {d : Cursor}
    (hrest : ∀ m as, rest m = some (.ok as, d) → d.current = t)
    (h : (do
      if (← peek) = t then return []
      else
        let a ← p
        return a :: (← rest) : Attempt (List α)) c = some (.ok as, d)) : d.current = t := by
  rcases bind_eq_some h with ⟨e, -, he⟩ | ⟨_, _, ht, h⟩
  · cases he
  cases ht
  split at h
  · next hc =>
    cases h
    exact hc
  · rcases bind_eq_some h with ⟨e, -, he⟩ | ⟨a, m, -, h⟩
    · cases he
    rcases bind_eq_some h with ⟨e, -, he⟩ | ⟨as', m', hm, h⟩
    · cases he
    cases h
    exact hrest m as' hm

theorem current_of_statements {n : Nat} {d : Cursor} {ss : List Stmt}
    (h : statements n c = some (.ok ss, d)) : d.current = .char '}' := by
  induction n generalizing c ss with
  | zero => cases h
  | succ n ih =>
    unfold statements at h
    exact current_of_round (fun _ _ => ih) h

theorem blockAt_nil : BlockAt BehindParens [⟨.char '{', 0⟩, ⟨.char '}', 0⟩] (.mk 0 []) :=
  @Lettering.IsBlock.mk _ _ _ _ [] _ _ rfl .nil rfl (.inr rfl)

section Succ

variable {n : Nat} (hblock : ∀ e, (block e n).Parses (BlockAt BehindParens)) {c : Cursor}

include hblock

theorem loop_succ_derives (hc : c.current = .keyword .whileKw) :
    (loop (n + 1)).Derives c (StmtAt BehindParens) (Derived (StmtAt BehindParens)) := by
  unfold loop
  refine Derives.here (Derives.skip hc (by simp) fun d => (condition_parses _ n d).bind
    (fun ts hts => ?_) fun ts cond d _ _ hcond => (hblock _).map_of ?_ ?_)
  · obtain ⟨cond, hcond⟩ := hts
    exact ⟨[⟨.char '{', 0⟩, ⟨.char '}', 0⟩], by decide, _, hcond.loop rfl blockAt_nil⟩
  · exact fun us body hbody => hcond.loop rfl hbody
  · exact fun us body hbody => ⟨_, hcond.loop rfl hbody⟩

theorem ifElse_succ_derives (hifElse : ∀ c : Cursor, c.current = .keyword .ifKw →
      (ifElse n).Derives c (IfAt BehindParens) (Derived (IfAt BehindParens)))
    (hc : c.current = .keyword .ifKw) :
    (ifElse (n + 1)).Derives c (IfAt BehindParens) (Derived (IfAt BehindParens)) := by
  unfold ifElse
  refine Derives.here (Derives.skip hc (by simp) fun d => (condition_parses _ n d).bind
    (fun ts hts => ?_) fun ts cond d _ _ hcond => (hblock _ d).bind (fun us hus => ?_)
    fun us yes d _ _ hyes => Derives.peek ?_)
  · obtain ⟨cond, hcond⟩ := hts
    exact ⟨[⟨.char '{', 0⟩, ⟨.char '}', 0⟩], by decide, _,
      hcond.ifElse rfl blockAt_nil (.none (p := 0) (.inl rfl))⟩
  · obtain ⟨yes, hyes⟩ := hus
    exact ⟨[], by simp, _, hcond.ifElse rfl hyes (.none (p := 0) (.inl rfl))⟩
  split
  · next helse =>
    refine Derives.skip helse (by simp) fun d' => Derives.peek ?_
    split
    · next hif =>
      refine Derives.here ((hifElse d' hif).bind (fun vs hvs => ?_) fun vs s _ hreads _ hs =>
        .pure ?_)
      · obtain ⟨s, hs⟩ := hvs
        obtain ⟨p, hp⟩ := Lettering.exists_node vs
        exact .of ⟨_, hcond.ifElse rfl hyes (.conditional rfl hs hp)⟩
      · rw [List.append_nil]
        exact hcond.ifElse rfl hyes (.conditional rfl hs hreads.node)
    · refine (hblock _).map_of (fun vs no hno => ?_) fun vs no hno => ?_
      · exact hcond.ifElse rfl hyes (.block rfl hno)
      · exact ⟨_, hcond.ifElse rfl hyes (.block rfl hno)⟩
  · refine Derives.here (.pure ?_)
    exact hcond.ifElse rfl hyes (.none (.inl rfl))

theorem statement_succ_parses (hifElse : ∀ c : Cursor, c.current = .keyword .ifKw →
      (ifElse n).Derives c (IfAt BehindParens) (Derived (IfAt BehindParens)))
    (hloop : ∀ c : Cursor, c.current = .keyword .whileKw →
      (loop n).Derives c (StmtAt BehindParens) (Derived (StmtAt BehindParens))) :
    (statement (n + 1)).Parses (StmtAt BehindParens) := by
  intro c
  unfold statement
  refine Derives.peek ?_
  split
  · exact ended_derives (assignment_parses n c)
  · exact ended_derives (declaration_parses n c)
  · next h => exact ended_derives (returning_derives n h)
  · next h =>
    refine (hifElse c h).mono (fun us s => .conditional) fun us hus => ?_
    obtain ⟨s, hs⟩ := hus
    exact .of ⟨s, .conditional hs⟩
  · next h => exact hloop c h
  · exact (hblock _).map_of (fun us b hb => .block hb) fun us b hb => ⟨_, .block hb⟩
  · exact .fail _ ⟨[⟨.char '{', 0⟩, ⟨.char '}', 0⟩], by simp, by decide, _, .block blockAt_nil⟩

end Succ

theorem statements_succ_parses {n : Nat} (hstatement : (statement n).Parses (StmtAt BehindParens))
    (hstatements : (statements n).Parses (StmtsAt BehindParens)) :
    (statements (n + 1)).Parses (StmtsAt BehindParens) := by
  intro c
  unfold statements
  refine Derives.peek ?_
  split
  · exact .pure .nil
  · refine (hstatement c).bind (fun us hus => ?_) fun us s d _ _ hs =>
      hstatements.map_of (fun vs ss hss => .cons hs hss) fun vs ss hss => ⟨_, .cons hs hss⟩
    obtain ⟨s, hs⟩ := hus
    exact ⟨[], by simp, _, .cons hs .nil⟩

theorem block_succ_parses {n : Nat} (hstatements : (statements n).Parses (StmtsAt BehindParens))
    (e : Expected) : (block e (n + 1)).Parses (BlockAt BehindParens) := by
  intro c
  unfold block
  refine Derives.here (Derives.expect ?_ fun d => (hstatements d).bind (fun us hus => ?_)
    fun us ss d' _ hrun hss => ?_)
  · exact ⟨[⟨.char '{', 0⟩, ⟨.char '}', 0⟩], by simp, by decide, _, blockAt_nil⟩
  · obtain ⟨ss, hss⟩ := hus
    exact ⟨[⟨.char '}', 0⟩], by decide, _, .mk rfl hss rfl (.inr rfl)⟩
  · exact Derives.skip (current_of_statements hrun) (by simp) fun _ =>
      .pure (.mk rfl hss rfl (.inr rfl))

theorem statement_parses (n : Nat) :
    (statement n).Parses (StmtAt BehindParens) ∧ (statements n).Parses (StmtsAt BehindParens) ∧
      (∀ e, (block e n).Parses (BlockAt BehindParens)) ∧
      (∀ c : Cursor, c.current = .keyword .ifKw →
        (ifElse n).Derives c (IfAt BehindParens) (Derived (IfAt BehindParens))) ∧
      ∀ c : Cursor, c.current = .keyword .whileKw →
        (loop n).Derives c (StmtAt BehindParens) (Derived (StmtAt BehindParens)) := by
  induction n with
  | zero =>
    exact ⟨fun c => .spent, fun c => .spent, fun e c => .spent, fun c _ => .spent,
      fun c _ => .spent⟩
  | succ n ih =>
    obtain ⟨hstatement, hstatements, hblock, hifElse, hloop⟩ := ih
    exact ⟨statement_succ_parses hblock hifElse hloop,
      statements_succ_parses hstatement hstatements, block_succ_parses hstatements,
      fun c => ifElse_succ_derives hblock hifElse, fun c => loop_succ_derives hblock⟩

theorem param_parses : (ofReader Param.parse).Parses (ParamAt BehindParens) := by
  intro c
  unfold Param.parse
  simp only [ofReader_bind]
  refine Derives.here (Derives.type ?_ fun ty d => Derives.ident ?_ fun name d' => .pure ?_)
  · exact ⟨[⟨.type (.plain .int), 0⟩, ⟨.ident "x", 0⟩], by simp, by decide, _,
      .mk rfl rfl (.inr rfl)⟩
  · exact ⟨[⟨.ident "x", 0⟩], by simp, by decide, _, .mk rfl rfl (.inr rfl)⟩
  · exact .mk rfl rfl (.inr rfl)

theorem prototypeAt_of_closedList {x y z : Placed} {us : List Placed} {ret : Ty} {name : String}
    {params : List Param} (hx : x.token = .type ret) (hy : y.token = .ident name)
    (hz : z.token = .char '(') (h : ClosedList (ParamAt BehindParens) us params) :
    PrototypeAt BehindParens (x :: y :: z :: us) ⟨x.pos, name, params, ret⟩ := by
  obtain ⟨ts, w, rfl, hw, hparams⟩ := h
  exact .mk hx hy hz hparams hw (.inr rfl)

theorem prototype_parses (n : Nat) : (prototype n).Parses (PrototypeAt BehindParens) := by
  have hnone : ClosedList (ParamAt BehindParens) [⟨.char ')', 0⟩] [] := ⟨[], _, rfl, rfl, .none⟩
  intro c
  refine Derives.here (Derives.type ?_ fun ret d => Derives.ident ?_ fun name d => Derives.expect ?_
    fun d => Parses.map_of (closing_parses (commaList_parses param_parses n) _) ?_ ?_)
  · exact ⟨[⟨.type (.plain .int), 0⟩, ⟨.ident "x", 0⟩, ⟨.char '(', 0⟩, ⟨.char ')', 0⟩], by simp,
      by decide, _, prototypeAt_of_closedList rfl rfl rfl hnone⟩
  · exact ⟨[⟨.ident "x", 0⟩, ⟨.char '(', 0⟩, ⟨.char ')', 0⟩], by simp, by decide, _,
      prototypeAt_of_closedList rfl rfl rfl hnone⟩
  · exact ⟨[⟨.char '(', 0⟩, ⟨.char ')', 0⟩], by simp, by decide, _,
      prototypeAt_of_closedList rfl rfl rfl hnone⟩
  · exact fun us params hparams => prototypeAt_of_closedList rfl rfl rfl hparams
  · exact fun us params hparams => ⟨_, prototypeAt_of_closedList rfl rfl rfl hparams⟩

/-- A declaration of an external function. -/
def ExternalAt (us : List Placed) (p : Prototype) : Prop :=
  ItemAt BehindParens us (.external p)

theorem external_derives (n : Nat) (hc : c.current = .keyword .externKw) :
    (external n).Derives c ExternalAt (Derived ExternalAt) := by
  refine Derives.skip hc (by simp) fun d => (prototype_parses n d).bind (fun us hus => ?_)
    fun us q d' _ _ hq => Derives.expect ?_ fun d => .pure (.external rfl hq rfl)
  · obtain ⟨q, hq⟩ := hus
    exact ⟨[⟨.char ';', 0⟩], by decide, q, .external rfl hq rfl⟩
  · exact ⟨[⟨.char ';', 0⟩], by simp, by decide, q, .external rfl hq rfl⟩

/-- A definition of a function. -/
def DefinitionAt (us : List Placed) (f : Definition) : Prop :=
  ItemAt BehindParens us (.definition f)

theorem definition_parses (n : Nat) : (definition n).Parses DefinitionAt := by
  intro c
  refine Derives.here ((prototype_parses n c).bind (fun us hus => ?_) fun us q d hreads _ hq =>
    ((statement_parses n).2.2.1 _ d).bind (fun vs hvs => ?_) fun vs body d' hreads' _ hbody =>
      .pure ?_)
  · obtain ⟨q, hq⟩ := hus
    obtain ⟨p, hp⟩ := Lettering.exists_node (us ++ [⟨.char '{', 0⟩, ⟨.char '}', 0⟩])
    exact ⟨[⟨.char '{', 0⟩, ⟨.char '}', 0⟩], by decide, _, .definition hq blockAt_nil hp⟩
  · obtain ⟨body, hbody⟩ := hvs
    obtain ⟨p, hp⟩ := Lettering.exists_node (us ++ vs)
    exact .of ⟨_, .definition hq hbody hp⟩
  · rw [List.append_nil]
    exact .definition hq hbody (hreads.trans hreads').node

theorem item_parses (n : Nat) : (item n).Parses (ItemAt BehindParens) := by
  intro c
  refine Derives.peek ?_
  split
  · exact (definition_parses n).map_of (fun us f hf => hf) fun us f hf => ⟨_, hf⟩
  · next h =>
    refine Derives.map ((external_derives n h).mono (fun us q hq => hq) fun us hus => ?_)
    obtain ⟨q, hq⟩ := hus
    exact .of ⟨_, hq⟩
  · have hshortest : ItemAt BehindParens [⟨.type (.plain .int), 0⟩, ⟨.ident "x", 0⟩, ⟨.char '(', 0⟩,
        ⟨.char ')', 0⟩, ⟨.char '{', 0⟩, ⟨.char '}', 0⟩]
        (.definition ⟨0, ⟨0, "x", [], .plain .int⟩, .mk 0 []⟩) :=
      .definition (prototypeAt_of_closedList rfl rfl rfl ⟨[], _, rfl, rfl, .none⟩) blockAt_nil
        (.inr rfl)
    exact .fail _ ⟨_, by simp, by decide, _, hshortest⟩

theorem items_parses (n : Nat) : (items n).Parses (ProgramAt BehindParens) := by
  induction n with
  | zero => exact fun c => .spent
  | succ n ih =>
    intro c
    unfold items
    refine Derives.peek ?_
    split
    · exact .pure .nil
    · refine (item_parses n c).bind (fun us hus => ?_) fun us i d _ _ hi =>
        ih.map_of (fun vs is his => .cons hi his) fun vs is his => ⟨_, .cons hi his⟩
      obtain ⟨i, hi⟩ := hus
      exact ⟨[], by simp, _, .cons hi .nil⟩

theorem current_of_items {n : Nat} {d : Cursor} {is : List Item}
    (h : items n c = some (.ok is, d)) : d.current = .eof := by
  induction n generalizing c is with
  | zero => cases h
  | succ n ih =>
    unfold items at h
    exact current_of_round (fun _ _ => ih) h

end Attempt

end ImpFront
