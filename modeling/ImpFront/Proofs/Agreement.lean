import Mathlib
import ImpFront.Proofs.Derivation
import ImpFront.Proofs.Movement

/-! The readers with bounds do what those with a budget do: some budget is enough, and the bound of
a reader is never reached, since each round and each level reads at least one token. So whatever
holds of all runs with a budget holds of the readers. -/

namespace ImpFront

namespace Attempt

open Reader

variable {α β : Type}

variable {p : Reader α} {q : Nat → Attempt α} {c : Cursor}

/-- What is enough for the calls of a procedure is enough for the procedure with one more. -/
theorem exists_budget {P : Nat → Prop} (enough : Nat) (h : ∀ n, enough ≤ n → P (n + 1)) :
    ∃ enough, ∀ n, enough ≤ n → P n := by
  refine ⟨enough + 1, fun n hn => ?_⟩
  obtain ⟨n, rfl⟩ := Nat.exists_eq_succ_of_ne_zero (Nat.ne_zero_of_lt hn)
  exact h n (Nat.le_of_succ_le_succ hn)

/-- Some budget is enough at this cursor, and from there on the result is that of the reader. -/
def EndsAt (q : Nat → Attempt α) (p : Reader α) (c : Cursor) : Prop :=
  ∃ enough, ∀ n, enough ≤ n → q n c = ofReader p c

namespace EndsAt

/-- A run of the reader is a run with some budget. -/
theorem exists_run (h : EndsAt q p c) : ∃ n, q n c = ofReader p c := by
  obtain ⟨n, hn⟩ := h
  exact ⟨n, hn n le_rfl⟩

theorem derives {Q : List Placed → α → Prop} {R : List Placed → Prop} (h : EndsAt q p c)
    (hq : ∀ n, (q n).Derives c Q R) : (ofReader p).Derives c Q R := by
  obtain ⟨n, hn⟩ := h.exists_run
  unfold Derives
  rw [← hn]
  exact hq n

end EndsAt

/-- Readers that agree with readers that move do so themselves. -/
theorem follows_of_endsAt {f : Nat → Nat} {g : α → α} (h : ∀ c, EndsAt q p c)
    (hq : ∀ n, Moves f g (q n)) : Follows f g (ofReader p) (ofReader p) := by
  intro c r d hrun
  obtain ⟨enough, henough⟩ := h c
  obtain ⟨he, us, hus, -⟩ := (hq enough).follows c r d ((henough _ le_rfl).trans hrun)
  refine ⟨he, us, hus, fun c' d' hus' hbeside => ?_⟩
  -- one budget has to do for both cursors
  obtain ⟨enough', henough'⟩ := h c'
  have hmax : q (max enough enough') c = some (r, d) := (henough _ (le_max_left _ _)).trans hrun
  obtain ⟨-, vs, hvs, hsame⟩ := (hq _).follows c r d hmax
  obtain rfl : us = vs := List.append_cancel_right (hus.rest.symm.trans hvs.rest)
  rw [← henough' _ (le_max_right enough enough')]
  exact hsame c' d' hus' hbeside

/-- Moreover the reader goes back to no token. -/
def Agrees (p : Reader α) (q : Nat → Attempt α) (c : Cursor) : Prop :=
  EndsAt q p c ∧ ∀ a d, p c = .ok a d → d.rest.length ≤ c.rest.length

/-- The readers agree at all cursors with fewer than `n` tokens left. -/
def AgreesBelow (n : Nat) (p : Reader α) (q : Nat → Attempt α) : Prop :=
  ∀ c, c.rest.length < n → Agrees p q c

namespace Agrees

/-- A call takes one from the budget. -/
theorem call {q' : Nat → Attempt α} (h : Agrees p q c) (hq : ∀ n, q' (n + 1) = q n) :
    Agrees p q' c := by
  obtain ⟨⟨enough, henough⟩, hle⟩ := h
  refine ⟨exists_budget enough fun n hn => ?_, hle⟩
  rw [hq]
  exact henough n hn

theorem free (h : ∀ a d, p c = .ok a d → d.rest.length ≤ c.rest.length) :
    Agrees p (fun _ => ofReader p) c :=
  ⟨⟨0, fun _ _ => rfl⟩, h⟩

theorem pure (a : α) : Agrees (Pure.pure a) (fun _ => Pure.pure a) c := free fun _ _ h => by
  cases h; exact le_rfl

theorem fail {e : Expected} (h : ∀ n, q n = ofReader (Reader.fail e)) :
    Agrees (Reader.fail e) q c :=
  ⟨⟨0, fun n _ => by rw [h]⟩, fun _ _ h => by cases h⟩

theorem bind {f : α → Reader β} {f' : Nat → α → Attempt β} (hp : Agrees p q c)
    (hf : ∀ a d, p c = .ok a d → d.rest.length ≤ c.rest.length → Agrees (f a) (fun n => f' n a) d) :
    Agrees (p >>= f) (fun n => q n >>= f' n) c := by
  obtain ⟨⟨enough, henough⟩, hle⟩ := hp
  cases ha : p c with
  | error e d =>
    have hrun : ofReader p c = some (.error e, d) := ofReader_eq_error.2 ha
    refine ⟨⟨enough, fun n hn => ?_⟩, fun _ _ h => ?_⟩
    · rw [ofReader_bind, bind_of_error hrun]
      exact bind_of_error ((henough n hn).trans hrun)
    · rw [ImpFront.bind_of_error ha] at h
      cases h
  | ok a d =>
    have hrun : ofReader p c = some (.ok a, d) := ofReader_eq_ok.2 ha
    obtain ⟨⟨enough', henough'⟩, hlea⟩ := hf a d ha (hle a d ha)
    refine ⟨⟨max enough enough', fun n hn => ?_⟩, fun b e hb => ?_⟩
    · rw [ofReader_bind, bind_of_ok hrun]
      exact (bind_of_ok ((henough n (le_of_max_le_left hn)).trans hrun)).trans
        (henough' n (le_of_max_le_right hn))
    · rw [ImpFront.bind_of_ok ha] at hb
      exact (hlea b e hb).trans (hle a d ha)

theorem map {g : α → β} (hp : Agrees p q c) :
    Agrees (p >>= fun a => Pure.pure (g a)) (fun n => q n >>= fun a => Pure.pure (g a)) c :=
  hp.bind fun a _ _ _ => pure (g a)

theorem peek {f : Token → Reader α} {f' : Nat → Token → Attempt α}
    (h : ∀ t, c.current = t → Agrees (f t) (fun n => f' n t) c) :
    Agrees (Reader.peek >>= f) (fun n => Reader.peek >>= f' n) c := h c.current rfl

theorem here {f : Nat → Reader α} {f' : Nat → Nat → Attempt α}
    (h : ∀ pos, Agrees (f pos) (fun n => f' n pos) c) :
    Agrees (Reader.here >>= f) (fun n => Reader.here >>= f' n) c := h c.pos

theorem advance {f : Unit → Reader α} {f' : Nat → Unit → Attempt α}
    (h : Agrees (f ()) (fun n => f' n ()) c.advance) :
    Agrees (Reader.skip >>= f) (fun n => Reader.skip >>= f' n) c :=
  ⟨h.1, fun a d ha => (h.2 a d ha).trans c.length_advance_le⟩

/-- A token that was looked at is read. -/
theorem skip {f : Unit → Reader α} {f' : Nat → Unit → Attempt α} {t : Token} (hc : c.current = t)
    (ht : t ≠ .eof) (h : ∀ d, d.rest.length < c.rest.length → Agrees (f ()) (fun n => f' n ()) d) :
    Agrees (Reader.skip >>= f) (fun n => Reader.skip >>= f' n) c :=
  advance (h c.advance (Cursor.length_advance_lt (hc.trans_ne ht)))

theorem ofMoves {g : α → α} (h : Moves id g (ofReader p)) : Agrees p (fun _ => ofReader p) c := by
  refine free fun a d ha => ?_
  obtain ⟨us, hus, -⟩ := (h.follows c _ d (ofReader_eq_ok.2 ha)).2
  exact hus.length_le

theorem bounded {p : Nat → Reader α} (h : Agrees (p (c.rest.length + 1)) q c) :
    Agrees (Reader.bounded p) q c := h

end Agrees

theorem expect_agrees (ch : Char) (e : Expected) (c : Cursor) :
    Agrees (expect ch e) (fun _ => expect ch e) c :=
  .ofMoves (expect_moves ch e)

/-- A token that is expected is read. -/
theorem Agrees.expect {ch : Char} {e : Expected} {f : Unit → Reader α} {f' : Nat → Unit → Attempt α}
    (h : ∀ d, d.rest.length < c.rest.length → Agrees (f ()) (fun n => f' n ()) d) :
    Agrees (Reader.expect ch e >>= f) (fun n => Reader.expect ch e >>= f' n) c := by
  refine (expect_agrees ch e c).bind fun _ d hd _ => h d ?_
  have hbroken : Broken (fun us => us ≠ []) [] := ⟨[⟨.int 0, 0⟩], by simp, by decide, by simp⟩
  obtain ⟨us, hus, rfl⟩ := Derives.char ch e hbroken _ d (ofReader_eq_ok.2 hd)
  exact hus.length_lt (by simp)

theorem closing_agrees (ch : Char) (e : Expected) (a : α) :
    Agrees (expect ch e >>= fun _ => pure a) (fun _ => expect ch e >>= fun _ => pure a) c :=
  (expect_agrees ch e c).map

/-- A loop over items that are separated by commas. -/
theorem commaListUpTo_agrees {k : Nat} {loop : Nat → Attempt (List α)} (hitem : AgreesBelow k p q)
    (hloop : ∀ n, loop (n + 1) = do
      let a ← q n
      if (← peek) = .char ',' then
        skip
        return a :: (← loop n)
      else return [a]) (i : Nat) (hc : c.rest.length < k) (hi : c.rest.length < i) :
      Agrees (commaListUpTo p i) loop c := by
  induction i generalizing c with
  | zero => exact absurd hi (Nat.not_lt_zero _)
  | succ i ih =>
    refine .call ?_ hloop
    refine (hitem c hc).bind fun a d _ hle => Agrees.peek fun t ht => ?_
    split
    · next h =>
      refine Agrees.skip (ht.trans h) (by simp) fun e hlt => ?_
      exact (ih (by omega) (by omega)).map
    · exact .pure _

theorem commaList_agrees (hitem : ∀ c, Agrees p (fun _ => ofReader p) c) (c : Cursor) :
    Agrees (Reader.commaList p) (commaList p) c :=
  .bounded (commaListUpTo_agrees (fun c _ => hitem c) (fun _ => rfl) _ (Nat.lt_succ_self _)
    (Nat.lt_succ_self _))

theorem listInParens_agrees {loop : Nat → Attempt (List α)}
    (hloop : Agrees (Reader.commaList p) loop c) (e : Expected) :
    Agrees (Reader.listInParens p e) (fun n => do
      let xs ← if (← peek) = .char ')' then pure [] else loop n
      expect ')' e
      return xs) c := by
  refine Agrees.peek fun t _ => ?_
  dsimp only
  split
  · exact closing_agrees ')' e []
  · exact hloop.bind fun xs d _ _ => closing_agrees ')' e xs

theorem chain_agrees {k : Nat} {operand : Reader Expr} {tighter : List (List BinOp)}
    (hop : AgreesBelow k operand fun n => chain n tighter) (ops : List BinOp) :
    AgreesBelow k (Reader.chain ops operand) fun n => chain n (ops :: tighter) := by
  have hchain : ∀ i c, c.rest.length < k → c.rest.length < i →
      Agrees (chainUpTo ops operand i) (fun n => chain n (ops :: tighter)) c := by
    intro i
    induction i with
    | zero => exact fun c _ hi => absurd hi (Nat.not_lt_zero _)
    | succ i ih =>
      intro c hc hi
      refine .call ?_ fun n => by rw [chain]
      refine (hop c hc).bind fun l d _ hle => Agrees.peek fun t ht => ?_
      cases hop : operator? ops t with
      | none => exact .pure _
      | some op =>
        obtain ⟨-, hcur⟩ := operator?_eq_some.1 hop
        refine Agrees.skip (ht.trans hcur) (by simp) fun e hlt => ?_
        exact (ih e (by omega) (by omega)).map
  exact fun c hc => .bounded (hchain _ c hc (Nat.lt_succ_self _))

theorem foldr_chain_agrees {k : Nat} {operand : Reader Expr} (h : AgreesBelow k operand factor)
    (ls : List (List BinOp)) :
    AgreesBelow k (ls.foldr Reader.chain operand) fun n => chain n ls := by
  induction ls with
  | nil => exact fun c hc => (h c hc).call fun n => by rw [chain]
  | cons ops tighter ih => exact chain_agrees ih ops

theorem factor_agrees (k : Nat) : AgreesBelow k (Reader.factor k) factor := by
  induction k with
  | zero => exact fun c hc => absurd hc (Nat.not_lt_zero _)
  | succ k ih =>
    intro c hc
    have hexpr : AgreesBelow k (Reader.expression (Reader.factor k)) fun n => chain n levels :=
      foldr_chain_agrees ih levels
    refine .call ?_ fun n => by rw [factor]
    refine Agrees.here fun pos => Agrees.peek fun t ht => ?_
    split
    · refine Agrees.skip ht (by simp) fun d hlt => ?_
      exact (hexpr d (by omega)).bind fun e _ _ _ => closing_agrees ')' _ e
    · next name =>
      refine Agrees.skip ht (by simp) fun d hlt => Agrees.peek fun t' ht' => ?_
      split
      · next h' =>
        refine Agrees.skip (ht'.trans h') (by simp) fun e hlt' => Agrees.map ?_
        refine .call (listInParens_agrees (.bounded ?_) _) fun n => by rw [argumentsInParens]
        exact commaListUpTo_agrees hexpr (fun n => by rw [arguments]) _ (by omega)
          (Nat.lt_succ_self _)
      · exact .pure _
    · exact Agrees.skip ht (by simp) fun d _ => .pure _
    · exact Agrees.skip ht (by simp) fun d _ => .pure _
    · exact .fail fun n => by simp only

theorem bounded_chain_agrees (ls : List (List BinOp)) (c : Cursor) :
    Agrees (Reader.bounded fun k => ls.foldr Reader.chain (Reader.factor k)) (fun n => chain n ls)
      c :=
  .bounded (foldr_chain_agrees (factor_agrees _) ls c (Nat.lt_succ_self _))

theorem expression_agrees (c : Cursor) : Agrees Expr.parse expression c :=
  bounded_chain_agrees levels c

theorem condition_agrees (after : Keyword) (c : Cursor) :
    Agrees (Expr.parseCondition after) (condition after) c :=
  .expect fun d _ => (expression_agrees d).bind fun cond _ _ _ => closing_agrees ')' _ cond

theorem declaration_agrees (c : Cursor) : Agrees Stmt.parseDeclaration declaration c := by
  refine Agrees.here fun pos => (Agrees.ofMoves (type_moves _)).bind fun ty d _ _ => ?_
  exact (commaList_agrees (fun c => .ofMoves (ident_moves _)) d).map

theorem assignment_agrees (c : Cursor) : Agrees Stmt.parseAssignment assignment c := by
  refine Agrees.here fun pos => (Agrees.ofMoves (ident_moves _)).bind fun target d _ _ => ?_
  exact .expect fun e _ => (expression_agrees e).map

theorem returning_agrees (c : Cursor) : Agrees Stmt.parseReturn returning c :=
  .here fun _ => .advance (expression_agrees _).map

theorem ended_agrees {simple : Reader Stmt} {simple' : Nat → Attempt Stmt}
    (h : Agrees simple simple' c) :
    Agrees (Reader.ended simple) (fun n => ended (simple' n)) c :=
  h.bind fun s _ _ _ => closing_agrees ';' _ s

section Blocks

variable {k : Nat} {stmt : Reader Stmt} (hstmt : AgreesBelow k stmt statement)

include hstmt

theorem untilBrace_agrees (i : Nat) (hc : c.rest.length < k) (hi : c.rest.length < i) :
    Agrees (untilBrace stmt i) statements c := by
  induction i generalizing c with
  | zero => exact absurd hi (Nat.not_lt_zero _)
  | succ i ih =>
    refine .call ?_ fun n => by rw [statements]
    refine Agrees.peek fun t _ => ?_
    split
    · exact .pure _
    · refine (hstmt c hc).bind fun s d hs hle => ?_
      -- a statement is not empty, so the bound stays ahead
      have hlt : d.rest.length < c.rest.length := by
        obtain ⟨us, hus, hstmt⟩ :=
          (hstmt c hc).1.derives (fun n => (statement_parses n).1 c) _ d (ofReader_eq_ok.2 hs)
        exact hus.length_lt hstmt.starts.ne_nil
      exact (ih (by omega) (by omega)).map

theorem block_agrees (e : Expected) (hc : c.rest.length ≤ k) :
    Agrees (Reader.block stmt e) (block e) c := by
  refine .call ?_ fun n => by rw [block]
  refine Agrees.here fun pos => Agrees.expect fun d hlt => ?_
  refine (Agrees.bounded
    (untilBrace_agrees hstmt _ (by omega) (Nat.lt_succ_self _))).bind fun ss _ _ _ => ?_
  exact .advance (.pure _)

theorem ifElseUpTo_agrees (i : Nat) (hc : c.advance.rest.length < k) (hi : c.rest.length < i) :
    Agrees (ifElseUpTo stmt i) ifElse c := by
  induction i generalizing c with
  | zero => exact absurd hi (Nat.not_lt_zero _)
  | succ i ih =>
    have hle := c.length_advance_le
    refine .call ?_ fun n => by rw [ifElse]
    refine Agrees.here fun pos =>
      Agrees.advance ((condition_agrees _ _).bind fun cond d₁ _ hle₁ => ?_)
    refine (block_agrees hstmt _ (by omega)).bind fun yes d₂ _ hle₂ =>
      Agrees.peek fun t ht => ?_
    split
    · next helse =>
      refine Agrees.skip (ht.trans helse) (by simp) fun d₃ hlt₃ => Agrees.peek fun t' _ => ?_
      split
      · have := d₃.length_advance_le
        exact .here fun nested => (ih (by omega) (by omega)).map
      · exact (block_agrees hstmt _ (by omega)).map
    · exact .here fun nested => .pure _

theorem loop_agrees (hc : c.advance.rest.length < k) : Agrees (Reader.loop stmt) loop c := by
  refine .call ?_ fun n => by rw [loop]
  refine Agrees.here fun pos => Agrees.advance ((condition_agrees _ _).bind fun cond d _ hle => ?_)
  exact (block_agrees hstmt _ (by omega)).map

end Blocks

theorem statement_agrees (k : Nat) : AgreesBelow k (Reader.statement k) statement := by
  induction k with
  | zero => exact fun c hc => absurd hc (Nat.not_lt_zero _)
  | succ k ih =>
    intro c hc
    have hadvance : ∀ {t : Token}, c.current = t → t ≠ .eof → c.advance.rest.length < k :=
      fun ht hne => by
      have := Cursor.length_advance_lt (ht.trans_ne hne)
      omega
    refine .call ?_ fun n => by rw [statement]
    refine Agrees.peek fun t ht => ?_
    split
    · exact ended_agrees (assignment_agrees c)
    · exact ended_agrees (declaration_agrees c)
    · exact ended_agrees (returning_agrees c)
    · exact .bounded (ifElseUpTo_agrees ih _ (hadvance ht (by simp)) (Nat.lt_succ_self _))
    · exact loop_agrees ih (hadvance ht (by simp))
    · exact (block_agrees ih _ (by omega)).map
    · exact .fail fun n => by simp only

theorem stmt_parse_agrees (c : Cursor) : Agrees Stmt.parse statement c :=
  .bounded (statement_agrees _ c (Nat.lt_succ_self _))

theorem parseIf_agrees (c : Cursor) : Agrees Stmt.parseIf ifElse c :=
  .bounded (ifElseUpTo_agrees (fun d _ => stmt_parse_agrees d) _ (Nat.lt_succ_self _)
    (Nat.lt_succ_self _))

theorem parseWhile_agrees (c : Cursor) : Agrees Stmt.parseWhile loop c :=
  loop_agrees (fun d _ => stmt_parse_agrees d) (Nat.lt_succ_self _)

theorem block_parse_agrees (e : Expected) (c : Cursor) : Agrees (Block.parse e) (block e) c :=
  block_agrees (fun d _ => stmt_parse_agrees d) e le_rfl

theorem prototype_agrees (c : Cursor) : Agrees Prototype.parse prototype c := by
  refine Agrees.here fun pos => (Agrees.ofMoves (type_moves _)).bind fun ret d₁ _ _ => ?_
  refine (Agrees.ofMoves (ident_moves _)).bind fun name d₂ _ _ => Agrees.expect fun d₃ _ =>
    Agrees.map ?_
  exact listInParens_agrees (commaList_agrees (fun c => .ofMoves param_moves) d₃) _

theorem external_agrees (c : Cursor) : Agrees Prototype.parseExternal external c :=
  .advance ((prototype_agrees _).bind fun p _ _ _ => closing_agrees ';' _ p)

theorem definition_agrees (c : Cursor) : Agrees Definition.parse definition c :=
  .here fun _ => (prototype_agrees c).bind fun _ d _ _ => (block_parse_agrees _ d).map

theorem item_agrees (c : Cursor) : Agrees Item.parse item c := by
  refine Agrees.peek fun t _ => ?_
  split
  · exact (definition_agrees c).map
  · exact (external_agrees c).map
  · exact .fail fun n => by simp only

/-- An item has been read, or a text that begins one. -/
theorem item_parse_parses : (ofReader Item.parse).Parses (ItemAt BehindParens) :=
  fun c => (item_agrees c).1.derives fun n => item_parses n c

theorem item_parse_follows (f : Nat → Nat) :
    Follows f (Item.mapPos f) (ofReader Item.parse) (ofReader Item.parse) :=
  follows_of_endsAt (fun c => (item_agrees c).1) item_moves

theorem itemsUpTo_agrees (k : Nat) : AgreesBelow k (itemsUpTo k) items := by
  induction k with
  | zero => exact fun c hc => absurd hc (Nat.not_lt_zero _)
  | succ k ih =>
    intro c hc
    refine .call ?_ fun n => rfl
    refine Agrees.peek fun t _ => ?_
    split
    · exact .pure _
    · refine (item_agrees c).bind fun i d hi _ => Agrees.map (ih d ?_)
      obtain ⟨us, hus, hitem⟩ := item_parse_parses c _ d (ofReader_eq_ok.2 hi)
      exact (hus.length_lt hitem.starts.ne_nil).trans_le (Nat.le_of_lt_succ hc)

theorem bounded_itemsUpTo_agrees (c : Cursor) : Agrees (Reader.bounded itemsUpTo) items c :=
  .bounded (itemsUpTo_agrees _ c (Nat.lt_succ_self _))

end Attempt

theorem parse_eq_ok {source : String} {items : List Item} :
    parse source = .ok items ↔
      ∃ d, Reader.bounded Reader.itemsUpTo (Cursor.ofSource source) = .ok items d := by
  unfold parse
  cases Reader.bounded Reader.itemsUpTo (Cursor.ofSource source) <;> simp

theorem parse_eq_error {source : String} {e : SyntaxError} :
    parse source = .error e ↔
      ∃ d, Reader.bounded Reader.itemsUpTo (Cursor.ofSource source) = .error e d := by
  unfold parse
  cases Reader.bounded Reader.itemsUpTo (Cursor.ofSource source) <;> simp

end ImpFront
