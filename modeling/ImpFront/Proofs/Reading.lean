import ImpFront.Proofs.Body

/-! What is ahead of a cursor, and how a cursor gets from one place to another: it reads some
tokens, its depth follows the braces among them, and the end of the source stays where it is. -/

namespace ImpFront

namespace Cursor

/-- The tokens ahead, without their places. -/
def tokens (c : Cursor) : List Token := c.rest.map Placed.token

theorem current_eq {c : Cursor} {t : Token} {ts : List Token} (h : c.tokens = t :: ts) :
    c.current = t := by
  obtain ⟨p, ps, hc, rfl, -⟩ := List.map_eq_cons_iff.1 h
  simp only [current, hc]

theorem tokens_advance {c : Cursor} {t : Token} {ts : List Token} (h : c.tokens = t :: ts) :
    c.advance.tokens = ts := by
  obtain ⟨p, ps, hc, -, rfl⟩ := List.map_eq_cons_iff.1 h
  simp only [advance, hc, tokens]

theorem rest_eq_cons {c : Cursor} (h : c.current ≠ .eof) :
    c.rest = ⟨c.current, c.pos⟩ :: c.advance.rest := by
  unfold current pos advance at *
  cases hc : c.rest with
  | nil => simp [hc] at h
  | cons t ts => rfl

theorem tokens_eq_cons {c : Cursor} (h : c.current ≠ .eof) :
    c.tokens = c.current :: c.advance.tokens := by
  rw [tokens, rest_eq_cons h]
  rfl

theorem current_eq_eof {c : Cursor} (h : c.tokens = []) : c.current = .eof := by
  simp only [current, List.map_eq_nil_iff.1 h]

theorem rest_ne_nil {c : Cursor} {t : Token} (hc : c.current = t) (ht : t ≠ .eof) :
    c.rest ≠ [] := by
  rw [rest_eq_cons (hc.trans_ne ht)]
  exact List.cons_ne_nil _ _

/-- From `c` one gets to `d` by reading the tokens `us`. -/
structure Reads (c : Cursor) (us : List Placed) (d : Cursor) : Prop where
  rest : c.rest = us ++ d.rest
  depth : d.depth = (us.map Placed.token).foldl depthAfter c.depth
  stop : d.stop = c.stop

namespace Reads

variable {c d e : Cursor} {us vs : List Placed}

theorem refl (c : Cursor) : c.Reads [] c := ⟨rfl, rfl, rfl⟩

theorem trans (h : c.Reads us d) (h' : d.Reads vs e) : c.Reads (us ++ vs) e :=
  ⟨by rw [h.rest, h'.rest, List.append_assoc],
    by rw [h'.depth, h.depth, List.map_append, List.foldl_append], h'.stop.trans h.stop⟩

theorem exists_of_rest {rest : List Placed} (h : c.rest = us ++ rest) :
    ∃ d, c.Reads us d ∧ d.rest = rest :=
  ⟨⟨rest, c.stop, (us.map Placed.token).foldl depthAfter c.depth⟩, ⟨h, rfl, rfl⟩, rfl⟩

theorem unique (h : c.Reads us d) (h' : c.Reads us e) : d = e := by
  have hrest : d.rest = e.rest := List.append_cancel_left (h.rest.symm.trans h'.rest)
  have hdepth : d.depth = e.depth := h.depth.trans h'.depth.symm
  have hstop : d.stop = e.stop := h.stop.trans h'.stop.symm
  obtain ⟨rest, stop, depth⟩ := d
  exact (by simp_all : (⟨rest, stop, depth⟩ : Cursor) = ⟨e.rest, e.stop, e.depth⟩)

/-- There is a place in between. -/
theorem split (h : c.Reads (us ++ vs) e) : ∃ d, c.Reads us d ∧ d.Reads vs e := by
  obtain ⟨d, hd, hrest⟩ := exists_of_rest (h.rest.trans (List.append_assoc ..))
  refine ⟨d, hd, hrest, ?_, h.stop.trans hd.stop.symm⟩
  rw [h.depth, hd.depth, List.map_append, List.foldl_append]

theorem of_rest_cons {t : Placed} {ts : List Placed} (h : c.rest = t :: ts) :
    c.Reads [t] c.advance := by
  unfold Cursor.advance
  rw [h]
  exact ⟨h, rfl, rfl⟩

theorem advance (h : c.current ≠ .eof) : c.Reads [⟨c.current, c.pos⟩] c.advance :=
  of_rest_cons (rest_eq_cons h)

/-- Nothing is read at the end. -/
theorem exists_advance (c : Cursor) : ∃ us, c.Reads us c.advance := by
  cases hc : c.rest with
  | nil =>
    refine ⟨[], ?_⟩
    unfold Cursor.advance
    rw [hc]
    exact refl c
  | cons t ts => exact ⟨[t], of_rest_cons hc⟩

theorem tokens (h : c.Reads us d) : c.tokens = us.map Placed.token ++ d.tokens := by
  rw [Cursor.tokens, h.rest, List.map_append]
  rfl

theorem length_rest (h : c.Reads us d) : c.rest.length = us.length + d.rest.length := by
  rw [h.rest, List.length_append]

theorem length_le (h : c.Reads us d) : d.rest.length ≤ c.rest.length := by
  rw [h.length_rest]
  exact Nat.le_add_left _ _

theorem length_lt (h : c.Reads us d) (hne : us ≠ []) : d.rest.length < c.rest.length := by
  rw [h.length_rest]
  exact Nat.lt_add_of_pos_left (List.length_pos_iff.2 hne)

end Reads

end Cursor

end ImpFront
