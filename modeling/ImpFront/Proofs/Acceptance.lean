import ImpFront.Proofs.Agreement

/-! A reader in front of a derivable sequence reads it to its end, whatever follows, provided that
the next token cannot continue the sequence. With the converse, a source parses exactly if its
tokens are a program, and a program has one tree. -/

namespace ImpFront

/-- The sequence does not start with any of the given tokens. -/
def Stops (F rest : List Token) : Prop := ∀ t ∈ F, rest.head? ≠ some t

theorem stops_cons {F rest : List Token} {t : Token} : Stops F (t :: rest) ↔ t ∉ F := by
  simp [Stops]
  grind

theorem stops_nil (rest : List Token) : Stops [] rest := by simp [Stops]

namespace Stops

theorem current_ne {F : List Token} {c : Cursor} {t : Token} (h : Stops F c.tokens) (ht : t ∈ F)
    (hne : t ≠ .eof) : c.current ≠ t := by
  intro hc
  subst hc
  apply h _ ht
  rw [Cursor.tokens_eq_cons hne, List.head?_cons]

theorem append {F ts us : List Token} {p : Token → Bool} (h : Lettering.bare.StartsWith p ts)
    (hF : ∀ t ∈ F, p t = false) : Stops F (ts ++ us) := by
  obtain ⟨t, ts, rfl, ht⟩ := h
  rw [List.cons_append, stops_cons]
  intro hmem
  rw [hF t hmem] at ht
  contradiction

end Stops

namespace Attempt

open Reader

variable {α β : Type} {p : Attempt α} {k : α → Attempt β} {c : Cursor} {rest : List Token}

/-- Where the run has a result, this has property `Q`, and `rest` is still ahead. -/
def Gives (p : Attempt α) (c : Cursor) (Q : α → Prop) (rest : List Token) : Prop :=
  ∀ r d, p c = some (r, d) → ∃ a, r = .ok a ∧ Q a ∧ d.tokens = rest

namespace Gives

variable {Q : β → Prop}

theorem spent : (spent : Attempt β).Gives c Q rest := fun _ _ h => by cases h

theorem pure {b : β} (h : Q b) (hc : c.tokens = rest) :
    (Pure.pure b : Attempt β).Gives c Q rest := by
  rintro _ _ ⟨⟩
  exact ⟨b, rfl, h, hc⟩

theorem bind {P : α → Prop} {mid : List Token} (hp : p.Gives c P mid)
    (hk : ∀ a d, P a → d.tokens = mid → (k a).Gives d Q rest) : (p >>= k).Gives c Q rest := by
  intro r d hrun
  rcases bind_eq_some hrun with ⟨e, he, rfl⟩ | ⟨a, m, ha, hb⟩
  · obtain ⟨a, ha, -⟩ := hp _ d he
    cases ha
  · obtain ⟨a', heq, hP, hmid⟩ := hp _ m ha
    cases heq
    exact hk a m hP hmid r d hb

/-- The result of a reader is only wrapped up. -/
theorem map {P : α → Prop} {g : α → β} (hp : p.Gives c P rest) (hg : ∀ a, P a → Q (g a)) :
    (p >>= fun a => Pure.pure (g a)).Gives c Q rest :=
  hp.bind fun a _ ha hd => pure (hg a ha) hd

theorem peek {k : Token → Attempt β} {t : Token} (hc : c.current = t) (h : (k t).Gives c Q rest) :
    (ofReader Reader.peek >>= k).Gives c Q rest := by
  subst hc
  exact h

theorem here {k : Nat → Attempt β} (h : ∀ pos, (k pos).Gives c Q rest) :
    (ofReader Reader.here >>= k).Gives c Q rest := h c.pos

theorem skip {k : Unit → Attempt β} {t : Token} {ts : List Token} (hc : c.tokens = t :: ts)
    (h : ∀ d, d.tokens = ts → (k ()).Gives d Q rest) :
    (ofReader Reader.skip >>= k).Gives c Q rest :=
  h c.advance (Cursor.tokens_advance hc)

variable {e : Expected}

theorem expect {ch : Char} {k : Unit → Attempt β} {ts : List Token} (hc : c.tokens = .char ch :: ts)
    (h : ∀ d, d.tokens = ts → (k ()).Gives d Q rest) :
    (ofReader (Reader.expect ch e) >>= k).Gives c Q rest := by
  have hexpect : (ofReader (Reader.expect ch e)).Gives c (fun _ => True) ts := by
    unfold Reader.expect
    rw [ofReader_bind]
    refine peek (Cursor.current_eq hc) ?_
    rw [if_pos rfl]
    exact skip (k := Pure.pure) hc fun d hd => pure trivial hd
  exact hexpect.bind fun _ d _ hd => h d hd

theorem type {k : Ty → Attempt β} {ty : Ty} {ts : List Token} (hc : c.tokens = .type ty :: ts)
    (h : ∀ d, d.tokens = ts → (k ty).Gives d Q rest) :
    (ofReader (Reader.type e) >>= k).Gives c Q rest := by
  have htype : (ofReader (Reader.type e)).Gives c (· = ty) ts := by
    unfold Reader.type
    rw [ofReader_bind]
    refine peek (Cursor.current_eq hc) ?_
    dsimp only
    rw [ofReader_bind]
    exact skip hc fun d hd => pure rfl hd
  refine htype.bind fun _ d heq hd => ?_
  subst heq
  exact h d hd

theorem ident {k : String → Attempt β} {name : String} {ts : List Token}
    (hc : c.tokens = .ident name :: ts) (h : ∀ d, d.tokens = ts → (k name).Gives d Q rest) :
    (ofReader (Reader.ident e) >>= k).Gives c Q rest := by
  have hident : (ofReader (Reader.ident e)).Gives c (· = name) ts := by
    unfold Reader.ident
    rw [ofReader_bind]
    refine peek (Cursor.current_eq hc) ?_
    dsimp only
    rw [ofReader_bind]
    exact skip hc fun d hd => pure rfl hd
  refine hident.bind fun _ d heq hd => ?_
  subst heq
  exact h d hd

end Gives

/-- Before tokens of which the first derive `b` from `P` and the next is not in `F`, the reader
reads what derives `b`, and its result is `b` under `f`. -/
def Accepts (p : Attempt α) (f : α → β) (P : List Token → β → Prop) (F : List Token) : Prop :=
  ∀ c ts rest b, c.tokens = ts ++ rest → P ts b → Stops F rest → p.Gives c (fun a => f a = b) rest

section Lists

variable {f : α → β} {P : List Token → β → Prop} {F : List Token}

/-- One round of a loop over items with commas between them. -/
theorem commas_accepts {loop : Attempt (List α)} (hitem : p.Accepts f P F)
    (hloop : loop.Accepts (List.map f) (Lettering.bare.Separated P) (.char ',' :: F))
    (hcomma : .char ',' ∉ F) :
    (do
      let a ← p
      if (← peek) = .char ',' then
        skip
        return a :: (← loop)
      else return [a] : Attempt (List α)).Accepts (List.map f) (Lettering.bare.Separated P)
        (.char ',' :: F) := by
  intro c ts rest bs hc hbs hrest
  cases hbs with
  | one h =>
    refine (hitem c ts rest _ hc h fun t ht => hrest t (.tail _ ht)).bind fun a d ha hd => ?_
    subst hd
    refine Gives.peek rfl ?_
    rw [if_neg (hrest.current_ne List.mem_cons_self (by simp))]
    exact .pure (by simp [ha]) rfl
  | @more x ts us b bs h hx hbs =>
    obtain rfl : x = .char ',' := hx
    rw [List.append_assoc, List.cons_append] at hc
    refine (hitem c _ _ _ hc h (stops_cons.2 hcomma)).bind fun a d ha hd => ?_
    refine Gives.peek (Cursor.current_eq hd) ?_
    rw [if_pos rfl]
    refine Gives.skip hd fun d' hd' => (hloop d' us rest bs hd' hbs hrest).map fun as has => ?_
    simp [ha, has]

theorem commaList_accepts {item : Reader α} (hitem : (ofReader item).Accepts f P F)
    (hcomma : .char ',' ∉ F) (n : Nat) :
    (commaList item n).Accepts (List.map f) (Lettering.bare.Separated P) (.char ',' :: F) := by
  induction n with
  | zero => exact fun c ts rest bs _ _ _ => .spent
  | succ n ih => exact commas_accepts hitem ih hcomma

theorem closing_gives {list : Attempt (List α)} {e : Expected} {ts : List Token} {bs : List β}
    (hlist : list.Accepts (List.map f) (Lettering.bare.Separated P) F) (hclose : .char ')' ∉ F)
    (hstart : ∀ ts b, P ts b → Lettering.bare.StartsWith (· ≠ .char ')') ts)
    (hc : c.tokens = ts ++ .char ')' :: rest) (hbs : Lettering.bare.Listed P ts bs) :
    (do
      let xs ← if (← peek) = .char ')' then pure [] else list
      expect ')' e
      return xs : Attempt (List α)).Gives c (fun as => as.map f = bs) rest := by
  cases hbs with
  | none =>
    refine Gives.peek (Cursor.current_eq hc) ?_
    dsimp only
    rw [if_pos rfl]
    exact Gives.expect hc fun d hd => .pure rfl hd
  | some hbs =>
    obtain ⟨t, us, hts, ht⟩ := Lettering.Separated.starts hstart hbs
    refine Gives.peek (t := t) (Cursor.current_eq (by rw [hc, hts]; rfl)) ?_
    dsimp only
    rw [if_neg (by simpa using ht)]
    refine (hlist c ts _ bs hc hbs (stops_cons.2 hclose)).bind fun as d has hd => ?_
    exact Gives.expect hd fun d' hd' => .pure has hd'

end Lists

/-- The tokens that the operators are spelled with. -/
def spellings (ops : List BinOp) : List Token := ops.map fun op => .char op.toChar

theorem mem_spellings {ops : List BinOp} {op : BinOp} :
    .char op.toChar ∈ spellings ops ↔ op ∈ ops := by
  have hinjective : Function.Injective fun op : BinOp => Token.char op.toChar := by
    intro op op' h
    have htoChar : op.toChar = op'.toChar := by simpa using h
    have hofChar := BinOp.ofChar?_toChar op'
    rw [← htoChar, BinOp.ofChar?_toChar] at hofChar
    exact Option.some.inj hofChar
  exact List.mem_map_of_injective hinjective

theorem operator?_eq_none {ops : List BinOp} (h : Stops (spellings ops) c.tokens) :
    operator? ops c.current = none := by
  rw [Option.eq_none_iff_forall_ne_some]
  intro op hop
  obtain ⟨hmem, hc⟩ := operator?_eq_some.1 hop
  exact h.current_ne (mem_spellings.2 hmem) (by simp) hc

/-- The tokens that can continue an expression of the given levels. -/
def levelTail (ls : List (List BinOp)) : List Token := spellings ls.flatten ++ [.char '(']

abbrev exprTail : List Token := levelTail levels

theorem isExpr_starts {ts : List Token} {e : Expr} (h : IsExpr ts e) :
    Lettering.bare.StartsWith (· ≠ .char ')') ts := by
  refine (Lettering.IsExpr.starts h).mono fun t ht => ?_
  rw [decide_eq_true_eq]
  rintro rfl
  exact absurd ht (by decide)

/-- A level accepts its chains, if the tighter levels do and, behind an operator, it does itself. -/
theorem chain_succ_accepts {n : Nat} {ops : List BinOp} {tighter : List (List BinOp)}
    (hls : (ops :: tighter).flatten.Nodup)
    (htighter : (chain n tighter).Accepts Expr.erase
      (tighter.foldr Lettering.bare.Chain Lettering.bare.IsFactor) (levelTail tighter))
    (hsame : (chain n (ops :: tighter)).Accepts Expr.erase
      ((ops :: tighter).foldr Lettering.bare.Chain Lettering.bare.IsFactor)
      (levelTail (ops :: tighter))) :
    (chain (n + 1) (ops :: tighter)).Accepts Expr.erase
      ((ops :: tighter).foldr Lettering.bare.Chain Lettering.bare.IsFactor)
      (levelTail (ops :: tighter)) := by
  intro c ts rest e hc he hrest
  have htail : levelTail (ops :: tighter) = spellings ops ++ levelTail tighter := by
    simp [levelTail, spellings]
  rw [htail] at hrest
  unfold chain
  cases he with
  | operand he =>
    refine (htighter c ts rest e hc he fun t ht =>
      hrest t (List.mem_append_right _ ht)).bind fun a d ha hd => ?_
    subst hd
    refine Gives.peek rfl ?_
    rw [operator?_eq_none fun t ht => hrest t (List.mem_append_left _ ht)]
    exact .pure ha rfl
  | @binary x ts us op l r p hl hmem hx hr hp =>
    obtain rfl : x = .char op.toChar := hx
    obtain rfl : p = 0 := hp
    -- no operator belongs to two levels
    rw [List.flatten_cons, List.nodup_append] at hls
    have hop : .char op.toChar ∉ levelTail tighter := by
      rw [levelTail, List.mem_append, mem_spellings, not_or]
      exact ⟨fun hmem' => hls.2.2 op hmem op hmem' rfl, by cases op <;> decide⟩
    rw [List.append_assoc, List.cons_append] at hc
    refine (htighter c _ _ _ hc hl (stops_cons.2 hop)).bind fun a d ha hd => ?_
    refine Gives.peek (Cursor.current_eq hd) ?_
    rw [operator?_eq_some.2 ⟨hmem, rfl⟩]
    refine Gives.skip hd fun d' hd' => (hsame d' us rest r hd' hr ?_).map fun b hb => ?_
    · rwa [htail]
    · simp [Expr.erase, ha, hb]

theorem factor_succ_accepts {n : Nat}
    (hexpr : (chain n levels).Accepts Expr.erase IsExpr exprTail)
    (hparens : ∀ c ts rest args, c.tokens = ts ++ .char ')' :: rest →
      Lettering.bare.Listed IsExpr ts args →
      (argumentsInParens n).Gives c (fun as => as.map Expr.erase = args) rest) :
    (factor (n + 1)).Accepts Expr.erase IsFactor [.char '('] := by
  intro c ts rest e hc he hrest
  unfold factor
  refine Gives.here fun pos => ?_
  cases he with
  | @group x y ts e hx he hy =>
    obtain rfl : x = .char '(' := hx
    obtain rfl : y = .char ')' := hy
    simp only [List.cons_append, List.append_assoc, List.nil_append] at hc
    refine Gives.peek (Cursor.current_eq hc) (Gives.skip hc fun d hd => ?_)
    refine (hexpr d ts _ e hd he (stops_cons.2 (by decide))).bind fun a d' ha hd' => ?_
    exact Gives.expect hd' fun _ hlast => .pure ha hlast
  | @var x name p hx hp =>
    obtain rfl : x = .ident name := hx
    obtain rfl : p = 0 := hp
    refine Gives.peek (Cursor.current_eq hc) (Gives.skip hc fun d hd => Gives.peek rfl ?_)
    subst hd
    rw [if_neg (hrest.current_ne List.mem_cons_self (by simp))]
    exact .pure rfl rfl
  | @call x y z ts callee args p hx hy hargs hz hp =>
    obtain rfl : x = .ident callee := hx
    obtain rfl : y = .char '(' := hy
    obtain rfl : z = .char ')' := hz
    obtain rfl : p = 0 := hp
    simp only [List.cons_append, List.append_assoc, List.nil_append] at hc
    refine Gives.peek (Cursor.current_eq hc)
      (Gives.skip hc fun d hd => Gives.peek (Cursor.current_eq hd) ?_)
    rw [if_pos rfl]
    refine Gives.skip hd fun d' hd' => (hparens d' ts rest args hd' hargs).map fun as has => ?_
    simp [Expr.erase, Expr.eraseList_eq_map, has]
  | @int x value p hx hp =>
    obtain rfl : x = .int value := hx
    obtain rfl : p = 0 := hp
    exact Gives.peek (Cursor.current_eq hc) (Gives.skip hc fun d hd => .pure rfl hd)
  | @double x value p hx hp =>
    obtain rfl : x = .double value := hx
    obtain rfl : p = 0 := hp
    exact Gives.peek (Cursor.current_eq hc) (Gives.skip hc fun d hd => .pure rfl hd)

theorem chain_accepts (n : Nat) :
    (∀ ls : List (List BinOp), ls.flatten.Nodup → (chain n ls).Accepts Expr.erase
      (ls.foldr Lettering.bare.Chain Lettering.bare.IsFactor) (levelTail ls)) ∧
    (factor n).Accepts Expr.erase IsFactor [.char '('] ∧
    (∀ c ts rest args, c.tokens = ts ++ .char ')' :: rest → Lettering.bare.Listed IsExpr ts args →
      (argumentsInParens n).Gives c (fun as => as.map Expr.erase = args) rest) ∧
    (arguments n).Accepts (List.map Expr.erase) (Lettering.bare.Separated IsExpr)
      (.char ',' :: exprTail) := by
  induction n with
  | zero =>
    refine ⟨fun ls _ c ts rest e _ _ _ => ?_, fun c ts rest e _ _ _ => .spent,
      fun c ts rest args _ _ => .spent, fun c ts rest args _ _ _ => .spent⟩
    unfold chain
    exact .spent
  | succ n ih =>
    obtain ⟨hchain, hfactor, hparens, harguments⟩ := ih
    have hexpr : (chain n levels).Accepts Expr.erase IsExpr exprTail := hchain levels (by decide)
    refine ⟨fun ls hls => ?_, factor_succ_accepts hexpr hparens,
      fun c ts rest args hc hargs => ?_, ?_⟩
    · cases ls with
      | nil =>
        unfold chain
        exact hfactor
      | cons ops tighter =>
        have htighter : tighter.flatten.Nodup := (List.nodup_append.1 hls).2.1
        exact chain_succ_accepts hls (hchain tighter htighter) (hchain _ hls)
    · unfold argumentsInParens
      exact closing_gives harguments (by decide) (fun _ _ => isExpr_starts) hc hargs
    · unfold arguments
      exact commas_accepts hexpr harguments (by decide)

theorem expression_accepts (n : Nat) : (expression n).Accepts Expr.erase IsExpr exprTail :=
  (chain_accepts n).1 levels (by decide)

theorem condition_gives (after : Keyword) (n : Nat) {ts : List Token} {e : Expr}
    (hc : c.tokens = .char '(' :: (ts ++ .char ')' :: rest)) (he : IsExpr ts e) :
    (condition after n).Gives c (fun a => a.erase = e) rest := by
  refine Gives.expect hc fun d hd => ?_
  refine (expression_accepts n d ts _ e hd he (stops_cons.2 (by decide))).bind fun a d' ha hd' => ?_
  exact Gives.expect hd' fun _ hlast => .pure ha hlast

theorem ident_accepts (e : Expected) : (ofReader (ident e)).Accepts id IsName [] := by
  intro c ts rest name hc h _
  cases h with
  | @mk x _ hx =>
    obtain rfl : x = .ident name := hx
    have hname := Gives.ident (e := e) (k := Pure.pure) (Q := fun a => id a = name) hc
      fun d hd => .pure rfl hd
    rwa [bind_pure] at hname

theorem declaration_gives (n : Nat) {ty : Ty} {ts : List Token} {names : List String}
    (hc : c.tokens = .type ty :: (ts ++ .char ';' :: rest))
    (hnames : Lettering.bare.Separated IsName ts names) :
    (declaration n).Gives c (fun s => s.erase = .declaration 0 ty names) (.char ';' :: rest) := by
  refine Gives.here fun pos => Gives.type hc fun d hd => ?_
  refine (commaList_accepts (ident_accepts _) (by simp) n d ts _ names hd hnames
    (stops_cons.2 (by simp))).map fun xs hxs => ?_
  simpa [Stmt.erase] using hxs

theorem assignment_gives (n : Nat) {target : String} {ts : List Token} {e : Expr}
    (hc : c.tokens = .ident target :: .char '=' :: (ts ++ .char ';' :: rest)) (he : IsExpr ts e) :
    (assignment n).Gives c (fun s => s.erase = .assignment 0 target e) (.char ';' :: rest) := by
  refine Gives.here fun pos => Gives.ident hc fun d hd => Gives.expect hd fun d' hd' => ?_
  refine (expression_accepts n d' ts _ e hd' he (stops_cons.2 (by decide))).map fun a ha => ?_
  simp [Stmt.erase, ha]

theorem returning_gives (n : Nat) {ts : List Token} {e : Expr}
    (hc : c.tokens = .keyword .returnKw :: (ts ++ .char ';' :: rest)) (he : IsExpr ts e) :
    (returning n).Gives c (fun s => s.erase = .ret 0 e) (.char ';' :: rest) := by
  refine Gives.here fun pos => Gives.skip hc fun d hd => ?_
  refine (expression_accepts n d ts _ e hd he (stops_cons.2 (by decide))).map fun a ha => ?_
  simp [Stmt.erase, ha]

theorem ended_gives {simple : Attempt Stmt} {s : Stmt}
    (h : simple.Gives c (fun a => a.erase = s) (.char ';' :: rest)) :
    (ended simple).Gives c (fun a => a.erase = s) rest :=
  h.bind fun _ _ ha hd => Gives.expect hd fun _ hlast => .pure ha hlast

/-- The tokens that can continue a statement. -/
def stmtTail : List Token := [.keyword .elseKw]

theorem stops_stmts {us : List Token} {ss : List Stmt} (h : IsStmts us ss) (rest : List Token) :
    Stops stmtTail (us ++ .char '}' :: rest) := by
  cases h with
  | nil => exact stops_cons.2 (by decide)
  | cons h _ =>
    rw [List.append_assoc]
    exact Stops.append h.starts (by decide)

section Succ

variable {n : Nat} (hblock : ∀ e, (block e n).Accepts Block.erase IsBlock [])

include hblock

theorem loop_succ_gives {c : Cursor} {ts us rest : List Token} {cond : Expr} {body : Block}
    (hc : c.tokens = .keyword .whileKw :: .char '(' :: (ts ++ .char ')' :: (us ++ rest)))
    (hcond : IsExpr ts cond) (hbody : IsBlock us body) :
    (loop (n + 1)).Gives c (fun a => a.erase = .loop 0 cond body) rest := by
  unfold loop
  refine Gives.here fun pos => Gives.skip hc fun d hd => ?_
  refine (condition_gives _ n hd hcond).bind fun a d ha hd => ?_
  refine (hblock _ d us rest body hd hbody (stops_nil _)).map fun b hb => ?_
  simp [Stmt.erase, ha, hb]

theorem ifElse_succ_accepts (hifElse : (ifElse n).Accepts Stmt.erase IsIf stmtTail) :
    (ifElse (n + 1)).Accepts Stmt.erase IsIf stmtTail := by
  intro c ts rest s hc hs hrest
  unfold ifElse
  obtain @⟨x, y, z, ts, us, vs, cond, yes, no, p, hx, hy, hcond, hz, hyes, hno, hp⟩ := hs
  obtain rfl : x = .keyword .ifKw := hx
  obtain rfl : y = .char '(' := hy
  obtain rfl : z = .char ')' := hz
  obtain rfl : p = 0 := hp
  simp only [List.cons_append, List.append_assoc] at hc
  refine Gives.here fun pos => Gives.skip hc fun d hd => ?_
  refine (condition_gives _ n hd hcond).bind fun a d ha hd => ?_
  refine (hblock _ d us _ yes hd hyes (stops_nil _)).bind fun b d hb hd => ?_
  cases hno with
  | @none p hp =>
    obtain rfl : p = 0 := hp
    subst hd
    refine Gives.peek rfl ?_
    rw [if_neg (hrest.current_ne List.mem_cons_self (by simp))]
    refine Gives.here fun nested => .pure ?_ rfl
    simp [Stmt.erase, Block.erase, Stmt.eraseList, ha, hb]
  | @block x vs no hx hno =>
    obtain rfl : x = .keyword .elseKw := hx
    refine Gives.peek (Cursor.current_eq hd) ?_
    rw [if_pos rfl]
    refine Gives.skip hd fun d hd => ?_
    have hgives := hblock .block d vs rest no hd hno (stops_nil rest)
    obtain ⟨t, us, rfl, ht⟩ := hno.starts
    refine Gives.peek (t := t) (Cursor.current_eq hd) ?_
    rw [if_neg (by rintro rfl; simp at ht)]
    refine hgives.map fun b' hb' => ?_
    simp [Stmt.erase, ha, hb, hb']
  | @conditional x vs s p hx hs hp =>
    obtain rfl : x = .keyword .elseKw := hx
    obtain rfl : p = 0 := hp
    refine Gives.peek (Cursor.current_eq hd) ?_
    rw [if_pos rfl]
    refine Gives.skip hd fun d hd => ?_
    have hgives := hifElse d vs rest s hd hs hrest
    obtain ⟨t, us, rfl, ht⟩ := hs.starts
    refine Gives.peek (t := t) (Cursor.current_eq hd) ?_
    rw [if_pos (of_decide_eq_true ht)]
    refine Gives.here fun nested => hgives.map fun s' hs' => ?_
    simp [Stmt.erase, Block.erase, Stmt.eraseList, ha, hb, hs']

theorem statement_succ_accepts (hifElse : (ifElse n).Accepts Stmt.erase IsIf stmtTail)
    (hloop : ∀ c ts us rest cond body,
      c.tokens = .keyword .whileKw :: .char '(' :: (ts ++ .char ')' :: (us ++ rest)) →
      IsExpr ts cond → IsBlock us body →
      (loop n).Gives c (fun a => a.erase = .loop 0 cond body) rest) :
    (statement (n + 1)).Accepts Stmt.erase IsStmt stmtTail := by
  intro c ts rest s hc hs hrest
  unfold statement
  cases hs with
  | @declaration x y ts ty names p hx hnames hy hp =>
    obtain rfl : x = .type ty := hx
    obtain rfl : y = .char ';' := hy
    obtain rfl : p = 0 := hp
    simp only [List.cons_append, List.append_assoc, List.nil_append] at hc
    exact Gives.peek (Cursor.current_eq hc) (ended_gives (declaration_gives n hc hnames))
  | @assignment x y z ts target e p hx hy he hz hp =>
    obtain rfl : x = .ident target := hx
    obtain rfl : y = .char '=' := hy
    obtain rfl : z = .char ';' := hz
    obtain rfl : p = 0 := hp
    simp only [List.cons_append, List.append_assoc, List.nil_append] at hc
    exact Gives.peek (Cursor.current_eq hc) (ended_gives (assignment_gives n hc he))
  | @ret x y ts e p hx he hy hp =>
    obtain rfl : x = .keyword .returnKw := hx
    obtain rfl : y = .char ';' := hy
    obtain rfl : p = 0 := hp
    simp only [List.cons_append, List.append_assoc, List.nil_append] at hc
    exact Gives.peek (Cursor.current_eq hc) (ended_gives (returning_gives n hc he))
  | conditional hs =>
    have hgives := hifElse c ts rest s hc hs hrest
    obtain ⟨t, us, rfl, ht⟩ := hs.starts
    obtain rfl : t = .keyword .ifKw := of_decide_eq_true ht
    exact Gives.peek (Cursor.current_eq hc) hgives
  | @loop x y z ts us cond body p hx hy hcond hz hbody hp =>
    obtain rfl : x = .keyword .whileKw := hx
    obtain rfl : y = .char '(' := hy
    obtain rfl : z = .char ')' := hz
    obtain rfl : p = 0 := hp
    simp only [List.cons_append, List.append_assoc] at hc
    exact Gives.peek (Cursor.current_eq hc) (hloop c ts us rest cond body hc hcond hbody)
  | block hb =>
    have hgives := hblock .block c ts rest _ hc hb (stops_nil rest)
    obtain ⟨t, us, rfl, ht⟩ := hb.starts
    obtain rfl : t = .char '{' := of_decide_eq_true ht
    refine Gives.peek (Cursor.current_eq hc) (hgives.map fun b hb' => ?_)
    simp [Stmt.erase, hb']

end Succ

theorem statements_succ_gives {n : Nat}
    (hstatement : (statement n).Accepts Stmt.erase IsStmt stmtTail)
    (hstatements : ∀ c ts rest ss, c.tokens = ts ++ .char '}' :: rest → IsStmts ts ss →
      (statements n).Gives c (fun as => Stmt.eraseList as = ss) (.char '}' :: rest))
    {c : Cursor} {ts rest : List Token} {ss : List Stmt}
    (hc : c.tokens = ts ++ .char '}' :: rest) (hss : IsStmts ts ss) :
    (statements (n + 1)).Gives c (fun as => Stmt.eraseList as = ss) (.char '}' :: rest) := by
  unfold statements
  cases hss with
  | nil =>
    refine Gives.peek (Cursor.current_eq hc) ?_
    rw [if_pos rfl]
    exact .pure rfl hc
  | @cons ts us s ss hs hss =>
    obtain ⟨t, ts', rfl, ht⟩ := hs.starts
    rw [List.append_assoc] at hc
    refine Gives.peek (t := t) (Cursor.current_eq hc) ?_
    rw [if_neg (by rintro rfl; exact absurd ht (by decide))]
    refine (hstatement c _ _ s hc hs (stops_stmts hss rest)).bind fun a d ha hd => ?_
    refine (hstatements d us rest ss hd hss).map fun as has => ?_
    simp [Stmt.eraseList, ha, has]

theorem block_succ_accepts {n : Nat}
    (hstatements : ∀ c ts rest ss, c.tokens = ts ++ .char '}' :: rest → IsStmts ts ss →
      (statements n).Gives c (fun as => Stmt.eraseList as = ss) (.char '}' :: rest))
    (e : Expected) : (block e (n + 1)).Accepts Block.erase IsBlock [] := by
  intro c ts rest b hc hb _
  unfold block
  obtain @⟨x, y, ts, ss, p, hx, hss, hy, hp⟩ := hb
  obtain rfl : x = .char '{' := hx
  obtain rfl : y = .char '}' := hy
  obtain rfl : p = 0 := hp
  simp only [List.cons_append, List.append_assoc, List.nil_append] at hc
  refine Gives.here fun pos => Gives.expect hc fun d hd => ?_
  refine (hstatements d ts rest ss hd hss).bind fun as d' has hd' => ?_
  refine Gives.skip hd' fun _ hlast => .pure ?_ hlast
  simp [Block.erase, has]

theorem statement_accepts (n : Nat) :
    (statement n).Accepts Stmt.erase IsStmt stmtTail ∧
    (∀ c ts rest ss, c.tokens = ts ++ .char '}' :: rest → IsStmts ts ss →
      (statements n).Gives c (fun as => Stmt.eraseList as = ss) (.char '}' :: rest)) ∧
    (∀ e, (block e n).Accepts Block.erase IsBlock []) ∧
    (ifElse n).Accepts Stmt.erase IsIf stmtTail ∧
    ∀ c ts us rest cond body,
      c.tokens = .keyword .whileKw :: .char '(' :: (ts ++ .char ')' :: (us ++ rest)) →
      IsExpr ts cond → IsBlock us body →
      (loop n).Gives c (fun a => a.erase = .loop 0 cond body) rest := by
  induction n with
  | zero =>
    exact ⟨fun _ _ _ _ _ _ _ => .spent, fun _ _ _ _ _ _ => .spent, fun _ _ _ _ _ _ _ _ => .spent,
      fun _ _ _ _ _ _ _ => .spent, fun _ _ _ _ _ _ _ _ _ => .spent⟩
  | succ n ih =>
    obtain ⟨hstatement, hstatements, hblock, hifElse, hloop⟩ := ih
    exact ⟨statement_succ_accepts hblock hifElse hloop,
      fun c ts rest ss => statements_succ_gives hstatement hstatements,
      block_succ_accepts hstatements, ifElse_succ_accepts hblock hifElse,
      fun c ts us rest cond body => loop_succ_gives hblock⟩

theorem param_accepts : (ofReader Param.parse).Accepts Param.erase IsParam [] := by
  rintro c _ rest _ hc @⟨x, y, ty, name, p, hx, hy, hp⟩ -
  obtain rfl : x = .type ty := hx
  obtain rfl : y = .ident name := hy
  obtain rfl : p = 0 := hp
  unfold Param.parse
  simp only [ofReader_bind]
  exact Gives.here fun pos => Gives.type hc fun d hd => Gives.ident hd fun d' hd' => .pure rfl hd'

theorem prototype_accepts (n : Nat) : (prototype n).Accepts Prototype.erase IsPrototype [] := by
  have hstart : ∀ ts p, IsParam ts p → Lettering.bare.StartsWith (· ≠ .char ')') ts := by
    rintro _ _ ⟨hx, -, -⟩
    exact Lettering.startsWith_cons hx rfl
  rintro c _ rest _ hc @⟨x, y, z, w, ts, ret, name, params, p, hx, hy, hz, hparams, hw, hp⟩ -
  obtain rfl : x = .type ret := hx
  obtain rfl : y = .ident name := hy
  obtain rfl : z = .char '(' := hz
  obtain rfl : w = .char ')' := hw
  obtain rfl : p = 0 := hp
  simp only [List.cons_append, List.append_assoc, List.nil_append] at hc
  refine Gives.here fun pos => Gives.type hc fun d hd => Gives.ident hd fun d hd =>
    Gives.expect hd fun d hd => ?_
  refine (closing_gives (commaList_accepts param_accepts (by simp) n) (by simp) hstart hd
    hparams).map fun ps hps => ?_
  simp [Prototype.erase, hps]

theorem external_gives (n : Nat) {ts : List Token} {q : Prototype}
    (hc : c.tokens = .keyword .externKw :: (ts ++ .char ';' :: rest)) (hq : IsPrototype ts q) :
    (external n).Gives c (fun a => a.erase = q) rest := by
  refine Gives.skip hc fun d hd => ?_
  refine (prototype_accepts n d ts _ q hd hq (stops_nil _)).bind fun a d' ha hd' => ?_
  exact Gives.expect hd' fun _ hlast => .pure ha hlast

theorem definition_gives (n : Nat) {ts us : List Token} {q : Prototype} {body : Block}
    (hc : c.tokens = ts ++ (us ++ rest)) (hq : IsPrototype ts q) (hbody : IsBlock us body) :
    (definition n).Gives c (fun a => a.erase = ⟨0, q, body⟩) rest := by
  refine Gives.here fun pos => ?_
  refine (prototype_accepts n c ts _ q hc hq (stops_nil _)).bind fun a d ha hd => ?_
  refine ((statement_accepts n).2.2.1 _ d us rest body hd hbody (stops_nil _)).map fun b hb => ?_
  simp [Definition.erase, ha, hb]

theorem item_accepts (n : Nat) : (item n).Accepts Item.erase IsItem [] := by
  rintro c ts rest i hc hi -
  cases hi with
  | @external x y ts q hx hq hy =>
    obtain rfl : x = .keyword .externKw := hx
    obtain rfl : y = .char ';' := hy
    simp only [List.cons_append, List.append_assoc, List.nil_append] at hc
    refine Gives.peek (Cursor.current_eq hc) ((external_gives n hc hq).map fun q' hq' => ?_)
    simp [Item.erase, hq']
  | @definition ts us q body p hq hbody hp =>
    obtain rfl : p = 0 := hp
    rw [List.append_assoc] at hc
    have hgives := definition_gives n hc hq hbody
    obtain @⟨x, y, z, w, ts, ret, name, params, p, hx, hy, hz, hparams, hw, hp⟩ := hq
    obtain rfl : x = .type ret := hx
    refine Gives.peek (Cursor.current_eq hc) (hgives.map fun f hf => ?_)
    simp [Item.erase, hf]

theorem items_gives (n : Nat) {is : List Item} (h : IsProgram c.tokens is) :
    (items n).Gives c (fun as => as.map Item.erase = is) [] := by
  induction n generalizing c is with
  | zero => exact .spent
  | succ n ih =>
    unfold items
    generalize hc : c.tokens = ts at h
    cases h with
    | nil =>
      refine Gives.peek (Cursor.current_eq_eof hc) ?_
      rw [if_pos rfl]
      exact .pure rfl hc
    | @cons ts us i is hi his =>
      obtain ⟨t, ts', rfl, ht⟩ := hi.starts
      refine Gives.peek (t := t) (Cursor.current_eq hc) ?_
      rw [if_neg (by rintro rfl; exact absurd ht (by decide))]
      refine (item_accepts n c _ us i hc hi (stops_nil us)).bind fun a d ha hd => ?_
      refine (ih (by rwa [hd])).map fun as has => ?_
      simp [ha, has]

/-- With some budget a run has a result, and so has the reader with bounds. -/
theorem EndsAt.exists_ok {p : Reader α} {q : Nat → Attempt α} {Q : α → Prop} (h : EndsAt q p c)
    (hq : ∀ n, (q n).Gives c Q rest) : ∃ a d, p c = .ok a d ∧ Q a ∧ d.tokens = rest := by
  obtain ⟨n, hn⟩ := h.exists_run
  cases hp : p c with
  | ok a d =>
    obtain ⟨a', heq, hQ, hd⟩ := hq n _ d (hn.trans (ofReader_eq_ok.2 hp))
    cases heq
    exact ⟨a, d, rfl, hQ, hd⟩
  | error e d =>
    obtain ⟨a', heq, -⟩ := hq n _ d (hn.trans (ofReader_eq_error.2 hp))
    cases heq

end Attempt

theorem Scanner.eof_notMem_tokens (n : Nat) (s : Scanner) :
    .eof ∉ (s.tokens n).map Placed.token := by
  induction n generalizing s with
  | zero => simp [Scanner.tokens]
  | succ n ih =>
    simp only [Scanner.tokens]
    split
    · simp
    · next h =>
      rw [List.map_cons, List.mem_cons, not_or]
      exact ⟨fun heq => h heq.symm, ih _⟩

/-- The items of a source that parses are derived from all of its tokens. -/
theorem programAt_of_parse {source : String} {items : List Item} (h : parse source = .ok items) :
    ProgramAt BehindParens (tokens source) items := by
  obtain ⟨d, hrun⟩ := parse_eq_ok.1 h
  obtain ⟨n, hn⟩ := (Attempt.bounded_itemsUpTo_agrees (Cursor.ofSource source)).1.exists_run
  have hitems := hn.trans (Attempt.ofReader_eq_ok.2 hrun)
  obtain ⟨us, hus, hprogram⟩ := Attempt.items_parses n _ _ d hitems
  have hend : d.rest = [] := by
    cases hd : d.rest with
    | nil => rfl
    | cons t ts =>
      have heof : t.token = .eof := by
        simpa [Cursor.current, hd] using Attempt.current_of_items hitems
      have hmem : t ∈ tokens source := by
        rw [show tokens source = us ++ d.rest from hus.rest, hd]
        simp
      exact absurd (List.mem_map.2 ⟨t, hmem, heof⟩) (Scanner.eof_notMem_tokens _ _)
  have htokens : tokens source = us := hus.rest.trans (by rw [hend, List.append_nil])
  rwa [htokens]

theorem isProgram_of_parse {source : String} {items : List Item} (h : parse source = .ok items) :
    IsProgram (Cursor.ofSource source).tokens (items.map Item.erase) :=
  (programAt_of_parse h).forget

theorem parse_of_isProgram {source : String} {tree : List Item}
    (h : IsProgram (Cursor.ofSource source).tokens tree) :
    ∃ items, parse source = .ok items ∧ items.map Item.erase = tree := by
  obtain ⟨items, d, hread, htree, -⟩ :=
    (Attempt.bounded_itemsUpTo_agrees _).1.exists_ok fun n => Attempt.items_gives n h
  exact ⟨items, parse_eq_ok.2 ⟨d, hread⟩, htree⟩

theorem isProgram_unique {ts : List Token} {tree tree' : List Item} (h : IsProgram ts tree)
    (h' : IsProgram ts tree') : tree = tree' := by
  let c : Cursor := ⟨ts.map (⟨·, 0⟩), 0, 0⟩
  have hc : c.tokens = ts := by simp [c, Cursor.tokens, Function.comp_def]
  rw [← hc] at h h'
  have hends := (Attempt.bounded_itemsUpTo_agrees c).1
  obtain ⟨items, d, hread, rfl, -⟩ := hends.exists_ok fun n => Attempt.items_gives n h
  obtain ⟨items', d', hread', rfl, -⟩ := hends.exists_ok fun n => Attempt.items_gives n h'
  rw [hread] at hread'
  cases hread'
  rfl

/-- A source parses exactly if its tokens are a program, and then to the program's tree; no token
sequence is a program in two ways. -/
theorem parse_eq_ok_iff_isProgram (source : String) :
    (∀ tree, (∃ items, parse source = .ok items ∧ items.map Item.erase = tree) ↔
      IsProgram ((tokenize source).dropLast.map Placed.token) tree) ∧
    ∀ ts, {tree | IsProgram ts tree}.Subsingleton := by
  have htokens : (tokenize source).dropLast.map Placed.token = (Cursor.ofSource source).tokens := by
    rw [tokenize, List.dropLast_concat]
    rfl
  refine ⟨fun tree => ?_, fun ts tree h tree' h' => isProgram_unique h h'⟩
  rw [htokens]
  constructor
  · rintro ⟨items, hparse, rfl⟩
    exact isProgram_of_parse hparse
  · exact parse_of_isProgram

end ImpFront
