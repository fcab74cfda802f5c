import Mathlib
import ImpFront.Proofs.Recovery
import ImpFront.Proofs.TwoPhase

/-! The front end always ends. Its loops are given a second time here, with a budget in place of
their bounds, as the readers are. A procedure ends just where some budget is enough. At every cursor
one is, and from there on the result is that of the procedure with bounds. What makes the loop over
items end is that each round goes on with fewer tokens. -/

namespace ImpFront

/-- A round of the loop that starts at `c` goes on at `d`. -/
structure Cursor.Round (c d : Cursor) : Prop where
  shorter : d.rest.length < c.rest.length
  eof : .eof ∉ c.tokens → .eof ∉ d.tokens

theorem Cursor.Reads.eof {c d : Cursor} {us : List Placed} (h : c.Reads us d)
    (heof : .eof ∉ c.tokens) : .eof ∉ d.tokens := by
  rw [h.tokens] at heof
  exact fun hmem => heof (List.mem_append_right _ hmem)

/-- A round that reads an item goes on behind it. -/
theorem Item.round_of_parse_ok {c d : Cursor} {item : Item} (h : Item.parse c = .ok item d) :
    c.Round d := by
  obtain ⟨us, hus, hitem⟩ := Attempt.item_parse_parses c _ d (Attempt.ofReader_eq_ok.2 h)
  exact ⟨hus.length_lt hitem.starts.ne_nil, hus.eof⟩

theorem Item.round_of_parse_error {c d : Cursor} {e : SyntaxError} (hc : c.current ≠ .eof)
    (h : Item.parse c = .error e d) :
    (.eof ∉ c.tokens → .eof ∉ d.tokens) ∧ c.Round (d.recover e) := by
  obtain ⟨⟨us, hus, -⟩, hlt⟩ := Cursor.recover_of_parse_error hc h
  obtain ⟨vs, hvs⟩ := d.exists_reads_recover e
  exact ⟨hus.eof, hlt, fun heof => hvs.eof (hus.eof heof)⟩

/-- All tokens up to the end. -/
def Scanner.scan : Nat → Scanner → Option (List Placed)
  | 0, _ => none
  | n + 1, s =>
    if s.next.1 = .eof then some []
    else do return ⟨s.next.1, s.next.2.pos⟩ :: (← scan n s.next.2)

/-- Reads on to a token outside of braces that can start an item. -/
def Cursor.sync : Nat → Cursor → Option Cursor
  | 0, _ => none
  | n + 1, c =>
    if c.current ≠ .eof ∧ (0 < c.depth ∨ c.current.startsItem = false) then sync n c.advance
      else some c

/-- Where reading goes on after a syntax error. -/
def Cursor.resume (n : Nat) (c : Cursor) (e : SyntaxError) : Option Cursor :=
  if e.expected = .item then some c.advance else c.sync n

/-- The loop that reads and lowers one item after another, with what its rounds read. -/
def Lowering.rounds {σ : Type} [Emitter σ] (report : Diagnostic → σ → σ) :
    Nat → Cursor → Lowering σ →
    Option (List Reading × List Diagnostic × Lowering σ)
  | 0, _, _ => none
  | n + 1, c, s =>
    if c.current = .eof then some ([], [], s)
    else do
      match ← Attempt.item n c with
      | (.ok item, d) =>
        match item.lower s with
        | .ok _ t =>
          let (rs, ds, last) ← rounds report n d t
          return (.ok item :: rs, ds, last)
        | .error e t =>
          let (rs, ds, last) ← rounds report n d (note report (.lowering e) t)
          return (.ok item :: rs, .lowering e :: ds, last)
      | (.error e, d) =>
        let d' ← d.resume n e
        let (rs, ds, last) ← rounds report n d' (note report (.reading e) s)
        return (.error e :: rs, .reading e :: ds, last)

theorem Scanner.scan_eq (k n : Nat) (s : Scanner) (hk : s.rest.length ≤ k)
    (hn : s.rest.length < n) :
    s.scan n = some (s.tokens k) := by
  induction n generalizing k s with
  | zero => exact absurd hn (Nat.not_lt_zero _)
  | succ n ih =>
    rw [scan]
    by_cases heof : s.next.1 = .eof
    · cases k <;> simp [tokens, heof]
    · have hlt := s.length_rest_next_lt heof
      obtain ⟨k, rfl⟩ : ∃ i, k = i + 1 := ⟨k - 1, by omega⟩
      simp [tokens, heof, ih k s.next.2 (by omega) (by omega)]

namespace Cursor

variable {d : Cursor}

theorem exists_sync (c : Cursor) :
    ∃ d, (∀ n, c.rest.length < n → c.sync n = some d) ∧ (.eof ∉ c.tokens → d = c.synchronize) := by
  obtain ⟨ts, stop, depth⟩ := c
  induction ts generalizing depth with
  | nil =>
    refine ⟨_, fun n hn => ?_, fun _ => rfl⟩
    obtain ⟨n, rfl⟩ := Nat.exists_eq_succ_of_ne_zero (Nat.ne_zero_of_lt hn)
    rfl
  | cons t ts ih =>
    have hsync : ∀ n, (⟨t :: ts, stop, depth⟩ : Cursor).sync (n + 1) =
        if t.token ≠ .eof ∧ (0 < depth ∨ t.token.startsItem = false) then
          (⟨ts, stop, depthAfter depth t.token⟩ : Cursor).sync n
        else some ⟨t :: ts, stop, depth⟩ := fun _ => rfl
    by_cases hgo : t.token ≠ .eof ∧ (0 < depth ∨ t.token.startsItem = false)
    · have hskip : ¬ (depth = 0 ∧ t.token.startsItem = true) := by
        rintro ⟨rfl, hstart⟩
        rcases hgo.2 with hlt | hstart'
        · exact absurd hlt (Nat.lt_irrefl 0)
        · rw [hstart] at hstart'
          cases hstart'
      obtain ⟨d, hd, hsame⟩ := ih (depthAfter depth t.token)
      refine ⟨d, fun n hn => ?_, fun hmem => ?_⟩
      · obtain ⟨n, rfl⟩ := Nat.exists_eq_succ_of_ne_zero (Nat.ne_zero_of_lt hn)
        rw [hsync, if_pos hgo]
        exact hd n (Nat.lt_of_succ_lt_succ hn)
      · rw [hsame fun h => hmem (List.mem_cons_of_mem _ h), synchronize, synchronize, skipToItem,
          if_neg hskip]
    · refine ⟨⟨t :: ts, stop, depth⟩, fun n hn => ?_, fun hmem => ?_⟩
      · obtain ⟨n, rfl⟩ := Nat.exists_eq_succ_of_ne_zero (Nat.ne_zero_of_lt hn)
        rw [hsync, if_neg hgo]
      · have hne : t.token ≠ .eof := fun he => hmem (he ▸ List.mem_cons_self)
        simp only [not_and_or, not_or, Bool.not_eq_false] at hgo
        obtain ⟨hdepth, hstart⟩ := hgo.resolve_left (not_not_intro hne)
        rw [synchronize, skipToItem, if_pos ⟨Nat.eq_zero_of_not_pos hdepth, hstart⟩]

theorem resume_eq {n : Nat} (h : .eof ∉ d.tokens) (hn : d.rest.length < n) (e : SyntaxError) :
    d.resume n e = some (d.recover e) := by
  obtain ⟨d', hd', hsame⟩ := d.exists_sync
  rw [resume, recover, hd' n hn, hsame h]
  split <;> rfl

end Cursor

namespace Lowering

variable {σ : Type} [Emitter σ]

theorem exists_rounds (report : Diagnostic → σ → σ) (k : Nat) (c : Cursor) (s : Lowering σ)
    (heof : .eof ∉ c.tokens) (hk : c.rest.length < k) :
    ∃ enough, ∀ n,
      enough ≤ n → rounds report n c s = some (Cursor.readings k c, itemsFrom report k c s) := by
  induction k generalizing c s with
  | zero => exact absurd hk (Nat.not_lt_zero _)
  | succ k ih =>
    rw [Cursor.readings, itemsFrom]
    by_cases hc : c.current = .eof
    · refine Attempt.exists_budget 0 fun n _ => ?_
      rw [rounds, if_pos hc, if_pos hc, if_pos hc]
    · rw [if_neg hc, if_neg hc]
      obtain ⟨enough, hitem⟩ := (Attempt.item_agrees c).1
      cases hp : Item.parse c with
      | ok item d =>
        obtain ⟨hlt, hd⟩ := Item.round_of_parse_ok hp
        cases hlower : item.lower s with
        | ok _ t =>
          obtain ⟨enough', hrest⟩ := ih d t (hd heof) (by omega)
          refine Attempt.exists_budget (enough + enough') fun n hn => ?_
          rw [rounds, if_neg hc, hitem n (by omega), Attempt.ofReader, hp]
          simp [hlower, hrest n (by omega)]
        | error e t =>
          obtain ⟨enough', hrest⟩ := ih d (note report (.lowering e) t) (hd heof) (by omega)
          refine Attempt.exists_budget (enough + enough') fun n hn => ?_
          rw [rounds, if_neg hc, hitem n (by omega), Attempt.ofReader, hp]
          simp [hlower, hrest n (by omega)]
      | error e d =>
        obtain ⟨hd, hlt, hd'⟩ := Item.round_of_parse_error hc hp
        obtain ⟨enough', hrest⟩ :=
          ih (d.recover e) (note report (.reading e) s) (hd' heof) (by omega)
        refine Attempt.exists_budget (enough + enough' + d.rest.length + 1) fun n hn => ?_
        rw [rounds, if_neg hc, hitem n (by omega), Attempt.ofReader, hp]
        simp [Cursor.resume_eq (hd heof) (show d.rest.length < n by omega) e, hrest n (by omega)]

/-- Each round reads an item or reports a syntax error. -/
theorem length_readings (report : Diagnostic → σ → σ) (n : Nat) (c : Cursor) (s : Lowering σ) :
    ((Cursor.readings n c).filterMap Except.toOption).length +
      ((itemsFrom report n c s).1.filterMap Diagnostic.syntaxError?).length =
        (Cursor.readings n c).length := by
  induction n generalizing c s with
  | zero => rfl
  | succ n ih =>
    rw [Cursor.readings, itemsFrom]
    by_cases hc : c.current = .eof
    · rw [if_pos hc, if_pos hc]
      rfl
    · rw [if_neg hc, if_neg hc]
      cases Item.parse c with
      | ok item d =>
        cases hlower : item.lower s with
        | ok _ t =>
          simp only [hlower, List.filterMap_cons, Except.toOption, List.length_cons, ← ih d t]
          omega
        | error e t =>
          simp only [hlower, List.filterMap_cons, Except.toOption, Diagnostic.syntaxError?,
            List.length_cons, ← ih d (note report (.lowering e) t)]
          omega
      | error e d =>
        simp only [List.filterMap_cons, Except.toOption, Diagnostic.syntaxError?, List.length_cons,
          ← ih (d.recover e) (note report (.reading e) s)]
        omega

end Lowering

theorem Cursor.length_readings_le (n : Nat) (c : Cursor) :
    (Cursor.readings n c).length ≤ c.rest.length := by
  induction n generalizing c with
  | zero => exact Nat.zero_le _
  | succ n ih =>
    rw [Cursor.readings]
    by_cases hc : c.current = .eof
    · rw [if_pos hc]
      exact Nat.zero_le _
    · rw [if_neg hc]
      cases hp : Item.parse c with
      | ok item d => exact (Nat.succ_le_succ (ih d)).trans (Item.round_of_parse_ok hp).shorter
      | error e d =>
        exact (Nat.succ_le_succ (ih _)).trans (Item.round_of_parse_error hc hp).2.shorter

theorem Attempt.exists_items (source : String) :
    ∃ enough, ∀ n, enough ≤ n →
    (Attempt.items n (Cursor.ofSource source)).map Prod.fst = some (parse source) := by
  obtain ⟨enough, henough⟩ := (bounded_itemsUpTo_agrees (Cursor.ofSource source)).1
  refine ⟨enough, fun n hn => ?_⟩
  rw [henough n hn, parse, ofReader]
  cases Reader.bounded Reader.itemsUpTo (Cursor.ofSource source) <;> rfl

open Attempt in
/-- The scanner, the readers and the loops end: some budget is enough for each, and the results are
those that they have with bounds. Each round of the loop that lowers goes on with fewer tokens. It
reads an item or reports a syntax error, so there are no more of both than tokens, and no more
tokens than characters. -/
theorem front_end_ends {σ : Type} [Emitter σ] (report : Diagnostic → σ → σ) (source : String)
    (s : Lowering σ) :
    ((∃ enough, ∀ n, enough ≤ n → (Scanner.ofSource source).scan n = some (tokens source)) ∧
      .eof ∉ (tokens source).map Placed.token ∧ (tokens source).length ≤ source.length) ∧
    (∀ c,
      (∀ ls, EndsAt (fun n => chain n ls)
        (Reader.bounded fun k => ls.foldr Reader.chain (Reader.factor k)) c) ∧
      EndsAt expression Expr.parse c ∧
      (∀ after, EndsAt (condition after) (Expr.parseCondition after) c) ∧
      EndsAt declaration Stmt.parseDeclaration c ∧ EndsAt assignment Stmt.parseAssignment c ∧
      EndsAt returning Stmt.parseReturn c ∧ EndsAt ifElse Stmt.parseIf c ∧
      EndsAt loop Stmt.parseWhile c ∧
      EndsAt statement Stmt.parse c ∧ (∀ e, EndsAt (block e) (Block.parse e) c) ∧
      EndsAt prototype Prototype.parse c ∧ EndsAt external Prototype.parseExternal c ∧
      EndsAt definition Definition.parse c ∧ EndsAt item Item.parse c) ∧
    (∃ enough, ∀ n,
      enough ≤ n → (items n (Cursor.ofSource source)).map Prod.fst = some (parse source)) ∧
    (∀ c : Cursor, ∃ d,
      (∀ n, c.rest.length < n → c.sync n = some d) ∧ (.eof ∉ c.tokens → d = c.synchronize)) ∧
    (∃ enough, ∀ n, enough ≤ n → Lowering.rounds report n (Cursor.ofSource source) s =
      some (readings source, Lowering.source report source s)) ∧
    (∀ c : Cursor, c.current ≠ .eof →
      (∀ item d, Item.parse c = .ok item d → d.rest.length < c.rest.length) ∧
      ∀ e d, Item.parse c = .error e d → (d.recover e).rest.length < c.rest.length) ∧
    (readItems source).length +
      ((Lowering.source report source s).1.filterMap Diagnostic.syntaxError?).length ≤
      (tokens source).length := by
  have heof : .eof ∉ (tokens source).map Placed.token := Scanner.eof_notMem_tokens _ _
  refine ⟨⟨⟨source.length + 1, fun n hn => ?_⟩, heof, length_tokens_le source⟩,
    fun c => ?_, exists_items source, Cursor.exists_sync, Lowering.exists_rounds report _ _ s heof
    (Nat.lt_succ_self _), fun c hc => ⟨fun item d h => ?_, fun e d h => ?_⟩, ?_⟩
  · have hlen : (Scanner.ofSource source).rest.length = source.length := String.length_toList
    exact Scanner.scan_eq _ _ _ hlen.le (by omega)
  · exact ⟨fun ls => (bounded_chain_agrees ls c).1, (expression_agrees c).1,
      fun after => (condition_agrees after c).1, (declaration_agrees c).1, (assignment_agrees c).1,
      (returning_agrees c).1, (parseIf_agrees c).1, (parseWhile_agrees c).1,
      (stmt_parse_agrees c).1, fun e => (block_parse_agrees e c).1, (prototype_agrees c).1,
      (external_agrees c).1, (definition_agrees c).1, (item_agrees c).1⟩
  · exact (Item.round_of_parse_ok h).shorter
  · exact (Item.round_of_parse_error hc h).2.shorter
  · exact (Lowering.length_readings report _ _ s).trans_le (Cursor.length_readings_le _ _)

end ImpFront
