import Mathlib
import ImpFront.Proofs.Agreement
import ImpFront.Proofs.Seam

/-! Reading a part of a source. The same tokens may stand further on in a longer source, with more
tokens behind them. A reader does the same there, at the moved places, as long as it does not look
past the part. The reader of items ends with a brace or a semicolon, and does not look at what is
behind this. -/

namespace ImpFront

/-- The error at a place that is `k` bytes further on. -/
def SyntaxError.shift (k : Nat) (e : SyntaxError) : SyntaxError := { e with pos := e.pos + k }

/-- The cursor `c'` reads the tokens of `c` with `k` more bytes before them and the tokens `more`
behind them. -/
structure Cursor.Within (k : Nat) (more : List Placed) (c c' : Cursor) : Prop where
  rest : c'.rest = c.rest.map (Placed.shift k) ++ more
  depth : c'.depth = c.depth
  stop : more = [] → c'.stop = c.stop + k

namespace Cursor

variable {k : Nat} {more : List Placed} {c c' : Cursor}

/-- The cursor looks at a token of its own part, or the part ends the source. -/
def Sees (more : List Placed) (c : Cursor) : Prop := more = [] ∨ c.rest ≠ []

namespace Within

theorem length_rest (h : c.Within k more c') : c'.rest.length = c.rest.length + more.length := by
  rw [h.rest, List.length_append, List.length_map]

theorem current (h : c.Within k more c') (hs : c.Sees more) : c'.current = c.current := by
  unfold Cursor.current
  rw [h.rest]
  cases hc : c.rest with
  | cons t ts => rfl
  | nil =>
    obtain rfl := hs.resolve_right (not_not_intro hc)
    rfl

theorem pos (h : c.Within k more c') (hs : c.Sees more) : c'.pos = c.pos + k := by
  unfold Cursor.pos
  rw [h.rest]
  cases hc : c.rest with
  | cons t ts => rfl
  | nil =>
    obtain rfl := hs.resolve_right (not_not_intro hc)
    exact h.stop rfl

theorem advance (h : c.Within k more c') (hs : c.Sees more) :
    c.advance.Within k more c'.advance := by
  unfold Cursor.advance
  cases hc : c.rest with
  | cons t ts =>
    have hc' : c'.rest = t.shift k :: (ts.map (Placed.shift k) ++ more) := by rw [h.rest, hc]; rfl
    rw [hc']
    exact ⟨rfl, by rw [h.depth]; rfl, h.stop⟩
  | nil =>
    obtain rfl := hs.resolve_right (not_not_intro hc)
    have hc' : c'.rest = [] := by rw [h.rest, hc]; rfl
    rw [hc']
    exact h

/-- What is read of the part can be read behind the other bytes too. -/
theorem reads {d : Cursor} {us : List Placed} (h : c.Within k more c') (hus : c.Reads us d) :
    ∃ d', c'.Reads (us.map (Placed.shift k)) d' ∧ d.Within k more d' := by
  have hrest : c'.rest = us.map (Placed.shift k) ++ (d.rest.map (Placed.shift k) ++ more) := by
    rw [h.rest, hus.rest, List.map_append, List.append_assoc]
  obtain ⟨d', hus', hd'⟩ := Reads.exists_of_rest hrest
  have htokens : (us.map (Placed.shift k)).map Placed.token = us.map Placed.token :=
    Placed.map_token_mapPos (· + k) us
  refine ⟨d', hus', hd', ?_, fun hmore => ?_⟩
  · rw [hus'.depth, htokens, h.depth, hus.depth]
  · rw [hus'.stop, h.stop hmore, hus.stop]

theorem beside (h : c.Within k more c') (hs : c.Sees more) : c.Beside (· + k) c' := by
  refine ⟨?_, fun hnil => h.stop (hs.resolve_right (not_not_intro hnil))⟩
  rw [h.rest]
  cases hc : c.rest with
  | cons t ts => rfl
  | nil =>
    obtain rfl := hs.resolve_right (not_not_intro hc)
    rfl

end Within

end Cursor

namespace Attempt

open Reader

variable {α β : Type} {f : Nat → Nat} {g : α → α} {p q : Attempt α} {c : Cursor}

/-- A success has ended with a token, and has not looked at what is behind it: the second reader
does the same before the same tokens at moved places, whatever follows. -/
def Closes (f : Nat → Nat) (g : α → α) (p q : Attempt α) (c : Cursor) : Prop :=
  ∀ a d, p c = some (.ok a, d) → ∃ us, us ≠ [] ∧ c.Reads us d ∧
    ∀ c' d', c'.Reads (us.map (Placed.mapPos f)) d' → q c' = some (.ok (g a), d')

namespace Closes

theorem bind {g' : β → β} {k k' : α → Attempt β} (hp : Moved f g p q)
    (hk : ∀ a m, p c = some (.ok a, m) → Closes f g' (k a) (k' (g a)) m) :
    Closes f g' (p >>= k) (q >>= k') c := by
  intro b d hrun
  rcases bind_eq_some hrun with ⟨e, -, he⟩ | ⟨a, m, ha, hb⟩
  · cases he
  obtain ⟨-, us, hus, hsame⟩ := hp.follows c _ m ha
  obtain ⟨vs, hne, hvs, hsame'⟩ := hk a m ha b d hb
  refine ⟨us ++ vs, List.append_ne_nil_of_right_ne_nil _ hne, hus.trans hvs, fun c' d' hreads => ?_⟩
  rw [List.map_append] at hreads
  obtain ⟨m', hus', hvs'⟩ := hreads.split
  -- the first reader looks at most at the first token of the second
  have hbeside : m.Beside f m' := by
    obtain ⟨t, ts, rfl⟩ := List.exists_cons_of_ne_nil hne
    exact ⟨by rw [hvs.rest, hvs'.rest]; rfl, fun hnil => by rw [hvs.rest] at hnil; cases hnil⟩
  exact (bind_of_ok (hsame c' m' hus' hbeside)).trans (hsame' m' d' hvs')

/-- The result of a reader is only wrapped up. -/
theorem map {g' : β → β} {h h' : α → β} (hp : Closes f g p q c) (hh : ∀ a, h' (g a) = g' (h a)) :
    Closes f g' (p >>= fun a => Pure.pure (h a)) (q >>= fun a => Pure.pure (h' a)) c := by
  intro b d hrun
  rcases bind_eq_some hrun with ⟨e, -, he⟩ | ⟨a, m, ha, hb⟩
  · cases he
  cases hb
  obtain ⟨us, hne, hus, hsame⟩ := hp a d ha
  refine ⟨us, hne, hus, fun c' d' hreads => ?_⟩
  rw [bind_of_ok (hsame c' d' hreads), hh]
  rfl

/-- A token that was looked at is read last. -/
theorem skip {t : Token} (hc : c.current = t) (ht : t ≠ .eof) :
    Closes f id (ofReader Reader.skip) (ofReader Reader.skip) c := by
  rintro _ _ ⟨⟩
  refine ⟨_, by simp, .advance (hc.trans_ne ht), fun c' d' hreads => ?_⟩
  have hone := (Cursor.Reads.of_rest_cons hreads.rest).unique hreads
  exact congrArg (fun d => some (Except.ok (), d)) hone

theorem expect (ch : Char) (e : Expected) :
    Closes f id (ofReader (Reader.expect ch e)) (ofReader (Reader.expect ch e)) c := by
  unfold Reader.expect
  rw [ofReader_bind]
  refine bind .peek fun t m ht => ?_
  cases ht
  dsimp only [id]
  split
  · next h => exact skip h (by simp)
  · exact fun a d h => by cases h

end Closes

theorem block_closes (e : Expected) (n : Nat) :
    Closes f (Block.mapPos f) (block e n) (block e n) c := by
  cases n with
  | zero => exact fun a d h => by cases h
  | succ n =>
    unfold block
    refine .bind .here fun pos _ _ => .bind (expect_moves _ _) fun _ _ _ =>
      .bind (statement_moves n).2.1 fun ss m hss => ?_
    exact .map (g := id) (.skip (current_of_statements hss) (by simp)) fun _ => rfl

theorem item_closes (n : Nat) : Closes f (Item.mapPos f) (item n) (item n) c := by
  refine .bind .peek fun t m ht => ?_
  cases ht
  dsimp only [id]
  split
  · refine .map (g := Definition.mapPos f) ?_ fun _ => rfl
    exact .bind .here fun pos _ _ => .bind (prototype_moves n) fun q _ _ =>
      .map (block_closes _ n) fun _ => rfl
  · refine .map (g := Prototype.mapPos f) ?_ fun _ => rfl
    exact .bind .skip fun _ _ _ => .bind (prototype_moves n) fun q _ _ =>
      .map (.expect _ _) fun _ => rfl
  · exact fun a d h => by cases h

end Attempt

namespace Item

variable {k : Nat} {more : List Placed} {c c' d : Cursor}

theorem parse_ok_within {item : Item} (hc : c.Within k more c') (h : Item.parse c = .ok item d) :
    d.rest.length < c.rest.length ∧
      ∃ d', d.Within k more d' ∧ Item.parse c' = .ok (item.mapPos (· + k)) d' := by
  obtain ⟨enough, henough⟩ := (Attempt.item_agrees c).1
  obtain ⟨enough', henough'⟩ := (Attempt.item_agrees c').1
  have hrun := (henough _ (le_max_left enough enough')).trans (Attempt.ofReader_eq_ok.2 h)
  obtain ⟨us, hne, hus, hsame⟩ := Attempt.item_closes (f := (· + k)) _ item d hrun
  obtain ⟨d', hus', hwithin⟩ := hc.reads hus
  have hrun' := hsame c' d' hus'
  rw [henough' _ (le_max_right enough enough'), Attempt.ofReader_eq_ok] at hrun'
  exact ⟨hus.length_lt hne, d', hwithin, hrun'⟩

theorem parse_error_within {e : SyntaxError} (hc : c.Within k more c')
    (h : Item.parse c = .error e d) (hs : d.Sees more) :
    ∃ d', d.Within k more d' ∧ Item.parse c' = .error (e.shift k) d' := by
  obtain ⟨-, us, hus, hsame⟩ :=
    Attempt.item_parse_follows (· + k) c _ d (Attempt.ofReader_eq_error.2 h)
  obtain ⟨d', hus', hwithin⟩ := hc.reads hus
  exact ⟨d', hwithin, Attempt.ofReader_eq_error.1 (hsame c' d' hus' (hwithin.beside hs))⟩

end Item

end ImpFront
