import Mathlib
import ImpFront.Proofs.Budget
import ImpFront.Proofs.Places

/-! Readers are made of a few steps: they look at the next token and at its place, read it, or fail.
What follows from this alone is said here once for all of them. A reader only moves forward, and one
that fails does so where it stops. What it does is settled by the tokens that it reads and by the
one behind them: where the same tokens stand at other places, it does the same, and the places in
its result are moved along. -/

namespace ImpFront

/-- The token at the place that the map gives. -/
def Placed.mapPos (f : Nat → Nat) (t : Placed) : Placed := { t with pos := f t.pos }

theorem Placed.map_token_mapPos (f : Nat → Nat) (ts : List Placed) :
    (ts.map (Placed.mapPos f)).map Placed.token = ts.map Placed.token := by
  rw [List.map_map]
  rfl

def SyntaxError.mapPos (f : Nat → Nat) (e : SyntaxError) : SyntaxError := { e with pos := f e.pos }

/-- The second cursor looks at what the first looks at, at the place that the map gives. -/
structure Cursor.Beside (f : Nat → Nat) (c c' : Cursor) : Prop where
  next : c'.rest.head? = c.rest.head?.map (Placed.mapPos f)
  stop : c.rest = [] → c'.stop = f c.stop

namespace Cursor.Beside

variable {f : Nat → Nat} {c c' d d' : Cursor}

theorem rest_eq_nil (h : c.Beside f c') (hc : c.rest = []) : c'.rest = [] := by
  have hnext := h.next
  rw [hc] at hnext
  exact List.head?_eq_none_iff.1 hnext

theorem exists_rest_eq_cons {t : Placed} {ts : List Placed} (h : c.Beside f c')
    (hc : c.rest = t :: ts) : ∃ ts', c'.rest = t.mapPos f :: ts' := by
  have hnext := h.next
  rw [hc] at hnext
  exact List.head?_eq_some_iff.1 hnext

theorem current (h : c.Beside f c') : c'.current = c.current := by
  unfold Cursor.current
  cases hc : c.rest with
  | nil => rw [h.rest_eq_nil hc]
  | cons t ts =>
    obtain ⟨ts', hc'⟩ := h.exists_rest_eq_cons hc
    rw [hc']
    rfl

theorem pos (h : c.Beside f c') : c'.pos = f c.pos := by
  unfold Cursor.pos
  cases hc : c.rest with
  | nil =>
    rw [h.rest_eq_nil hc]
    exact h.stop hc
  | cons t ts =>
    obtain ⟨ts', hc'⟩ := h.exists_rest_eq_cons hc
    rw [hc']
    rfl

/-- Cursors that are beside each other were so before the same tokens. -/
theorem before {us : List Placed} (h : d.Beside f d') (hc : c.Reads us d)
    (hc' : c'.Reads (us.map (Placed.mapPos f)) d') : c.Beside f c' := by
  refine ⟨?_, fun hnil => ?_⟩
  · rw [hc.rest, hc'.rest, List.head?_append, List.head?_append, h.next, List.head?_map]
    cases us.head? <;> rfl
  · obtain ⟨-, hd⟩ := List.append_eq_nil_iff.1 (hc.rest.symm.trans hnil)
    rw [← hc'.stop, ← hc.stop]
    exact h.stop hd

end Cursor.Beside

namespace Attempt

open Reader

variable {α β : Type} {f : Nat → Nat} {g : α → α} {p q : Attempt α}

/-- The two readers are made of the same steps, but for the places that they are told: these the map
`f` has moved for the second reader, and so the map `g` its result. -/
inductive Moved (f : Nat → Nat) : {α : Type} → (α → α) → Attempt α → Attempt α → Prop
  | spent {α : Type} {g : α → α} : Moved f g spent spent
  | pure {α : Type} {g : α → α} {a b : α} : b = g a → Moved f g (Pure.pure a) (Pure.pure b)
  | fail {α : Type} {g : α → α} (e : Expected) : Moved f g (ofReader (fail e)) (ofReader (fail e))
  | peek : Moved f id (ofReader peek) (ofReader peek)
  | here : Moved f f (ofReader here) (ofReader here)
  | skip : Moved f id (ofReader skip) (ofReader skip)
  | bind {α β : Type} {g : α → α} {g' : β → β} {p q : Attempt α} {k k' : α → Attempt β} :
    Moved f g p q → (∀ a, Moved f g' (k a) (k' (g a))) → Moved f g' (p >>= k) (q >>= k')

/-- The result with its places moved. -/
def moved (f : Nat → Nat) (g : α → α) : Except SyntaxError α → Except SyntaxError α
  | .ok a => .ok (g a)
  | .error e => .error (e.mapPos f)

/-- The first reader reads some tokens, and fails where it stops. Before the same tokens at moved
places, and with the same one behind them, the second does the same. -/
def Follows (f : Nat → Nat) (g : α → α) (p q : Attempt α) : Prop :=
  ∀ c r d, p c = some (r, d) → (∀ e, r = .error e → e.pos = d.pos ∧ e.found = d.current) ∧
    ∃ us, c.Reads us d ∧ ∀ c' d', c'.Reads (us.map (Placed.mapPos f)) d' → d.Beside f d' →
      q c' = some (moved f g r, d')

/-- A reader that looks at most at the next token, and reads none. -/
theorem follows_look {x y : Cursor → Except SyntaxError α}
    (herror : ∀ c e, x c = .error e → e.pos = c.pos ∧ e.found = c.current)
    (hlook : ∀ c c', c.Beside f c' → y c' = moved f g (x c)) :
    Follows f g (fun c => some (x c, c)) fun c => some (y c, c) := by
  rintro c _ _ ⟨⟩
  refine ⟨herror c, [], .refl c, fun c' d' hreads hbeside => ?_⟩
  obtain rfl := (Cursor.Reads.refl c').unique hreads
  exact congrArg (fun x => some (x, c')) (hlook c c' hbeside)

theorem follows_skip : Follows f id (ofReader skip) (ofReader skip) := by
  rintro c _ _ ⟨⟩
  cases hc : c.rest with
  | nil =>
    -- at the end neither cursor moves
    have hstay : ∀ b : Cursor, b.rest = [] → b.advance = b := fun b hb => by
      unfold Cursor.advance
      rw [hb]
    rw [hstay c hc]
    refine ⟨fun e he => (by cases he), [], .refl c, fun c' d' hreads hbeside => ?_⟩
    obtain rfl := (Cursor.Reads.refl c').unique hreads
    exact congrArg (fun d => some (Except.ok (), d)) (hstay c' (hbeside.rest_eq_nil hc))
  | cons t ts =>
    refine ⟨fun e he => (by cases he), [t], .of_rest_cons hc, fun c' d' hreads hbeside => ?_⟩
    have hone : c'.Reads [t.mapPos f] c'.advance := .of_rest_cons hreads.rest
    exact congrArg (fun d => some (Except.ok (), d)) (hone.unique hreads)

theorem follows_bind {g' : β → β} {k k' : α → Attempt β} (hp : Follows f g p q)
    (hk : ∀ a, Follows f g' (k a) (k' (g a))) : Follows f g' (p >>= k) (q >>= k') := by
  intro c r d h
  rcases bind_eq_some h with ⟨e, he, rfl⟩ | ⟨a, m, ha, hb⟩
  · obtain ⟨herror, us, hus, hsame⟩ := hp c _ d he
    refine ⟨fun e' he' => herror e' (by cases he'; rfl), us, hus, fun c' d' hreads hbeside => ?_⟩
    exact bind_of_error (hsame c' d' hreads hbeside)
  · obtain ⟨-, us, hus, hsame⟩ := hp c _ m ha
    obtain ⟨herror, vs, hvs, hsame'⟩ := hk a m r d hb
    refine ⟨herror, us ++ vs, hus.trans hvs, fun c' d' hreads hbeside => ?_⟩
    rw [List.map_append] at hreads
    obtain ⟨m', hus', hvs'⟩ := hreads.split
    -- the first reader sees the second one's first token, or what is next if that reads nothing
    rw [bind_of_ok (hsame c' m' hus' (hbeside.before hvs hvs'))]
    exact hsame' m' d' hvs' hbeside

theorem Moved.follows (h : Moved f g p q) : Follows f g p q := by
  induction h with
  | spent => exact fun c r d h => by cases h
  | pure hb => exact follows_look (fun _ _ h => by cases h) fun _ _ _ => by rw [hb]; rfl
  | fail e =>
    refine follows_look (x := fun c => .error ⟨e, c.pos, c.current⟩)
      (y := fun c => .error ⟨e, c.pos, c.current⟩) (fun c _ h => ?_) fun c c' h => ?_
    · cases h
      exact ⟨rfl, rfl⟩
    · rw [h.pos, h.current]
      rfl
  | peek =>
    exact follows_look (x := fun c => .ok c.current) (y := fun c => .ok c.current)
      (fun _ _ h => by cases h) fun _ _ h => by rw [h.current]; rfl
  | here =>
    exact follows_look (x := fun c => .ok c.pos) (y := fun c => .ok c.pos)
      (fun _ _ h => by cases h) fun _ _ h => by rw [h.pos]; rfl
  | skip => exact follows_skip
  | bind _ _ ihp ihk => exact follows_bind ihp ihk

/-- An error is settled by the tokens that were read and the one behind them: whatever else follows,
there is one. -/
theorem Follows.exists_error (h : Follows id g p p) {c d : Cursor} {e : SyntaxError}
    (herror : p c = some (.error e, d)) :
    ∃ us, c.Reads us d ∧ ∀ rest : List Token, rest.head? = d.tokens.head? →
      ∃ c' e' d', c'.tokens = us.map Placed.token ++ rest ∧ p c' = some (.error e', d') := by
  obtain ⟨-, us, hus, hsame⟩ := h c _ d herror
  refine ⟨us, hus, fun rest hnext => ?_⟩
  obtain ⟨places, hplaces, hhead⟩ :
      ∃ places : List Placed, places.map Placed.token = rest ∧ places.head? = d.rest.head? := by
    rw [Cursor.tokens] at hnext
    cases hd : d.rest with
    | nil =>
      rw [hd, List.map_nil, List.head?_nil, List.head?_eq_none_iff] at hnext
      exact ⟨[], hnext.symm, rfl⟩
    | cons t after =>
      rw [hd, List.map_cons, List.head?_cons] at hnext
      obtain ⟨more, rfl⟩ := List.head?_eq_some_iff.1 hnext
      exact ⟨t :: more.map (⟨·, 0⟩), by simp [Function.comp_def], rfl⟩
  let c' : Cursor := ⟨us ++ places, c.stop, 0⟩
  obtain ⟨d', hus', hd'⟩ := Cursor.Reads.exists_of_rest (c := c') rfl
  have hbeside : d.Beside id d' := by
    refine ⟨?_, fun _ => hus'.stop.trans hus.stop.symm⟩
    rw [hd', hhead, show Placed.mapPos id = id from rfl, Option.map_id, id]
  have hid : us.map (Placed.mapPos id) = us := List.map_id us
  exact ⟨c', e.mapPos id, d', by rw [Cursor.tokens, List.map_append, hplaces],
    hsame c' d' (by rwa [hid]) hbeside⟩

/-- The reader is made of the steps above, and `g` moves the places in its result. -/
abbrev Moves (f : Nat → Nat) (g : α → α) (p : Attempt α) : Prop := Moved f g p p

theorem expect_moves (ch : Char) (e : Expected) : Moves f id (ofReader (expect ch e)) := by
  unfold expect
  rw [Moves, ofReader_bind]
  refine .bind .peek fun t => ?_
  dsimp only [id]
  split
  · exact .skip
  · exact .fail e

theorem type_moves (e : Expected) : Moves f id (ofReader (type e)) := by
  unfold type
  rw [Moves, ofReader_bind]
  refine .bind .peek fun t => ?_
  dsimp only [id]
  split
  · rw [ofReader_bind]
    exact .bind .skip fun _ => .pure rfl
  · exact .fail e

theorem ident_moves (e : Expected) : Moves f id (ofReader (ident e)) := by
  unfold ident
  rw [Moves, ofReader_bind]
  refine .bind .peek fun t => ?_
  dsimp only [id]
  split
  · rw [ofReader_bind]
    exact .bind .skip fun _ => .pure rfl
  · exact .fail e

theorem param_moves : Moves f (Param.mapPos f) (ofReader Param.parse) := by
  unfold Param.parse
  simp only [Moves, ofReader_bind]
  exact .bind .here fun _ => .bind (type_moves _) fun _ => .bind (ident_moves _) fun _ => .pure rfl

theorem commaList_moves {item : Reader α} (h : Moves f g (ofReader item)) (n : Nat) :
    Moves f (List.map g) (commaList item n) := by
  induction n with
  | zero => exact .spent
  | succ n ih =>
    unfold Moves commaList
    refine .bind h fun a => .bind .peek fun t => ?_
    dsimp only [id]
    split
    · exact .bind .skip fun _ => .bind ih fun _ => .pure rfl
    · exact .pure rfl

theorem listInParens_moves {item : Reader α} (h : Moves f g (ofReader item)) (e : Expected)
    (n : Nat) : Moves f (List.map g) (listInParens item e n) := by
  unfold Moves listInParens
  refine .bind .peek fun t => ?_
  dsimp only [id]
  split
  · exact .bind (g := List.map g) (.pure rfl) fun _ => .bind (expect_moves _ _) fun _ => .pure rfl
  · exact .bind (commaList_moves h n) fun _ => .bind (expect_moves _ _) fun _ => .pure rfl

theorem chain_moves (n : Nat) :
    (∀ ls, Moves f (Expr.mapPos f) (chain n ls)) ∧ Moves f (Expr.mapPos f) (factor n) ∧
      Moves f (Expr.mapPosList f) (argumentsInParens n) ∧
      Moves f (Expr.mapPosList f) (arguments n) := by
  induction n with
  | zero => exact ⟨fun ls => by unfold Moves chain; exact .spent, .spent, .spent, .spent⟩
  | succ n ih =>
    obtain ⟨hchain, hfactor, hparens, harguments⟩ := ih
    refine ⟨fun ls => ?_, ?_, ?_, ?_⟩
    · cases ls with
      | nil =>
        unfold Moves chain
        exact hfactor
      | cons ops tighter =>
        unfold Moves chain
        refine .bind (hchain tighter) fun l => .bind .peek fun t => ?_
        dsimp only [id]
        split
        · refine .bind .skip fun _ => .bind (hchain _) fun r => .pure ?_
          rw [Expr.mapPos, Expr.pos_mapPos]
        · exact .pure rfl
    · unfold Moves factor
      refine .bind .here fun pos => .bind .peek fun t => ?_
      dsimp only [id]
      split
      · exact .bind .skip fun _ => .bind (hchain _) fun _ => .bind (expect_moves _ _) fun _ =>
          .pure rfl
      · refine .bind .skip fun _ => .bind .peek fun t => ?_
        dsimp only [id]
        split
        · exact .bind .skip fun _ => .bind hparens fun _ => .pure rfl
        · exact .pure rfl
      · exact .bind .skip fun _ => .pure rfl
      · exact .bind .skip fun _ => .pure rfl
      · exact .fail _
    · unfold Moves argumentsInParens
      refine .bind .peek fun t => ?_
      dsimp only [id]
      split
      · exact .bind (g := Expr.mapPosList f) (.pure rfl) fun _ =>
          .bind (expect_moves _ _) fun _ => .pure rfl
      · exact .bind harguments fun _ => .bind (expect_moves _ _) fun _ => .pure rfl
    · unfold Moves arguments
      refine .bind (hchain _) fun a => .bind .peek fun t => ?_
      dsimp only [id]
      split
      · exact .bind .skip fun _ => .bind harguments fun _ => .pure rfl
      · exact .pure rfl

theorem expression_moves (n : Nat) : Moves f (Expr.mapPos f) (expression n) :=
  (chain_moves n).1 levels

theorem condition_moves (after : Keyword) (n : Nat) :
    Moves f (Expr.mapPos f) (condition after n) :=
  .bind (expect_moves _ _) fun _ => .bind (expression_moves n) fun _ =>
    .bind (expect_moves _ _) fun _ => .pure rfl

theorem ended_moves {simple : Attempt Stmt} (h : Moves f (Stmt.mapPos f) simple) :
    Moves f (Stmt.mapPos f) (ended simple) :=
  .bind h fun _ => .bind (expect_moves _ _) fun _ => .pure rfl

theorem declaration_moves (n : Nat) : Moves f (Stmt.mapPos f) (declaration n) := by
  refine .bind .here fun _ => .bind (type_moves _) fun _ =>
    .bind (commaList_moves (ident_moves _) n) fun names => .pure ?_
  rw [List.map_id]
  rfl

theorem assignment_moves (n : Nat) : Moves f (Stmt.mapPos f) (assignment n) :=
  .bind .here fun _ => .bind (ident_moves _) fun _ => .bind (expect_moves _ _) fun _ =>
    .bind (expression_moves n) fun _ => .pure rfl

theorem returning_moves (n : Nat) : Moves f (Stmt.mapPos f) (returning n) :=
  .bind .here fun _ => .bind .skip fun _ => .bind (expression_moves n) fun _ => .pure rfl

theorem statement_moves (n : Nat) :
    Moves f (Stmt.mapPos f) (statement n) ∧ Moves f (Stmt.mapPosList f) (statements n) ∧
      (∀ e, Moves f (Block.mapPos f) (block e n)) ∧ Moves f (Stmt.mapPos f) (ifElse n) ∧
      Moves f (Stmt.mapPos f) (loop n) := by
  induction n with
  | zero => exact ⟨.spent, .spent, fun _ => .spent, .spent, .spent⟩
  | succ n ih =>
    obtain ⟨hstatement, hstatements, hblock, hifElse, hloop⟩ := ih
    refine ⟨?_, ?_, fun e => ?_, ?_, ?_⟩
    · unfold Moves statement
      refine .bind .peek fun t => ?_
      dsimp only [id]
      split
      · exact ended_moves (assignment_moves n)
      · exact ended_moves (declaration_moves n)
      · exact ended_moves (returning_moves n)
      · exact hifElse
      · exact hloop
      · exact .bind (hblock _) fun _ => .pure rfl
      · exact .fail _
    · unfold Moves statements
      refine .bind .peek fun t => ?_
      dsimp only [id]
      split
      · exact .pure rfl
      · exact .bind hstatement fun _ => .bind hstatements fun _ => .pure rfl
    · unfold Moves block
      exact .bind .here fun _ => .bind (expect_moves _ _) fun _ => .bind hstatements fun _ =>
        .bind .skip fun _ => .pure rfl
    · unfold Moves ifElse
      refine .bind .here fun _ => .bind .skip fun _ => .bind (condition_moves _ n) fun _ =>
        .bind (hblock _) fun _ => .bind .peek fun t => ?_
      dsimp only [id]
      split
      · refine .bind .skip fun _ => .bind .peek fun t => ?_
        dsimp only [id]
        split
        · exact .bind .here fun _ => .bind hifElse fun _ => .pure rfl
        · exact .bind (hblock _) fun _ => .pure rfl
      · exact .bind .here fun _ => .pure rfl
    · unfold Moves loop
      exact .bind .here fun _ => .bind .skip fun _ => .bind (condition_moves _ n) fun _ =>
        .bind (hblock _) fun _ => .pure rfl

theorem prototype_moves (n : Nat) : Moves f (Prototype.mapPos f) (prototype n) :=
  .bind .here fun _ => .bind (type_moves _) fun _ => .bind (ident_moves _) fun _ =>
    .bind (expect_moves _ _) fun _ => .bind (listInParens_moves param_moves _ n) fun _ => .pure rfl

theorem external_moves (n : Nat) : Moves f (Prototype.mapPos f) (external n) :=
  .bind .skip fun _ => .bind (prototype_moves n) fun _ => .bind (expect_moves _ _) fun _ =>
    .pure rfl

theorem definition_moves (n : Nat) : Moves f (Definition.mapPos f) (definition n) :=
  .bind .here fun _ => .bind (prototype_moves n) fun _ =>
    .bind ((statement_moves n).2.2.1 _) fun _ => .pure rfl

theorem item_moves (n : Nat) : Moves f (Item.mapPos f) (item n) := by
  refine .bind .peek fun t => ?_
  dsimp only [id]
  split
  · exact .bind (definition_moves n) fun _ => .pure rfl
  · exact .bind (external_moves n) fun _ => .pure rfl
  · exact .fail _

theorem items_moves (n : Nat) : Moves f (List.map (Item.mapPos f)) (items n) := by
  induction n with
  | zero => exact .spent
  | succ n ih =>
    unfold Moves items
    refine .bind .peek fun t => ?_
    dsimp only [id]
    split
    · exact .pure rfl
    · exact .bind (item_moves n) fun _ => .bind ih fun _ => .pure rfl

end Attempt

end ImpFront
