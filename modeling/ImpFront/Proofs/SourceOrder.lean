import Mathlib
import ImpFront.Proofs.Insertion
import ImpFront.Proofs.LineBreaks
import ImpFront.Proofs.Recovery

/-! Diagnostics come in the order of the source. A round of the loop over items reports at most
once, at a place between the token where it starts and the one where the next round does: a syntax
error stands where its reader stopped, and an error of lowering stands at a place of the item.
Tokens stand in the order of their places, so the places of all reports never decrease, and each is
a boundary between characters of the source. -/

namespace ImpFront

/-- Tokens stand in the order of their places, which are numbers of bytes before a character or
before the end. -/
theorem placed_places (cs : List Char) (n : Nat) :
    ((placed n cs).map Placed.pos ++ [n + byteSize cs]).Pairwise (· ≤ ·) ∧
      ∀ x ∈ (placed n cs).map Placed.pos ++ [n + byteSize cs], ∃ as bs,
        cs = as ++ bs ∧ x = n + byteSize as := by
  induction cs using text_induction generalizing n with
  | blank cs hall =>
    have hnil : placed n cs = [] := by rw [placed_eq, if_pos (List.dropWhile_eq_nil_iff.2 hall)]
    rw [hnil]
    refine ⟨List.pairwise_singleton _ _, fun x hx => ⟨cs, [], by simp, by simpa using hx⟩⟩
  | word bs c w rest hbs hc hlex ih =>
    obtain ⟨hsorted, hsplit⟩ := ih (n + byteSize bs + byteSize (c :: w))
    have hbytes : n + byteSize (bs ++ c :: (w ++ rest)) = n + byteSize bs + byteSize (c :: w) +
        byteSize rest := by
      rw [byteSize_append, ← List.cons_append, byteSize_append]
      omega
    rw [placed_blanks hbs, placed_lexeme hc hlex, List.map_cons, List.cons_append, hbytes]
    refine ⟨List.pairwise_cons.2 ⟨fun x hx => ?_, hsorted⟩,
      List.forall_mem_cons.2 ⟨⟨bs, _, rfl, rfl⟩, fun x hx => ?_⟩⟩
    · obtain ⟨as, -, -, rfl⟩ := hsplit x hx
      show n + byteSize bs ≤ _
      omega
    · obtain ⟨as, ds, rfl, rfl⟩ := hsplit x hx
      refine ⟨bs ++ c :: (w ++ as), ds, by simp, ?_⟩
      rw [byteSize_append, ← List.cons_append, byteSize_append]
      omega

namespace Cursor

/-- The places of the tokens that are left, and the end. -/
def places (c : Cursor) : List Nat := c.rest.map Placed.pos ++ [c.stop]

/-- Later tokens stand at later places. -/
def Ordered (c : Cursor) : Prop := c.places.Pairwise (· ≤ ·)

variable {c d : Cursor} {x : Nat}

theorem places_ofSource (source : String) :
    (ofSource source).places = (tokenize source).map Placed.pos := by
  rw [tokenize, List.map_append]
  rfl

theorem ordered_ofSource (source : String) : (ofSource source).Ordered := by
  have hplaces := (placed_places source.toList 0).1
  rw [Nat.zero_add, ← tokens_eq_placed] at hplaces
  exact hplaces

theorem split_of_mem_places {source : String} (h : x ∈ (ofSource source).places) :
    ∃ as bs, source.toList = as ++ bs ∧ x = byteSize as := by
  have hplaces := (placed_places source.toList 0).2
  rw [Nat.zero_add, ← tokens_eq_placed] at hplaces
  simpa using hplaces x h

theorem pos_mem_places (c : Cursor) : c.pos ∈ c.places := by
  unfold pos places
  cases c.rest with
  | nil => exact List.mem_singleton_self _
  | cons t ts => exact List.mem_cons_self

theorem Ordered.pos_le (h : c.Ordered) (hx : x ∈ c.places) : c.pos ≤ x := by
  unfold Ordered places at h
  unfold places at hx
  unfold pos
  cases hc : c.rest with
  | nil =>
    rw [hc] at hx
    exact (List.mem_singleton.1 hx).ge
  | cons t ts =>
    rw [hc] at h hx
    rcases List.mem_cons.1 hx with rfl | hx
    · exact le_rfl
    · exact (List.pairwise_cons.1 h).1 x hx

/-- The places on the way from one cursor to another, both included. -/
def way (us : List Placed) (d : Cursor) : List Nat := us.map Placed.pos ++ [d.pos]

namespace Reads

variable {us : List Placed}

theorem places (h : c.Reads us d) : c.places = us.map Placed.pos ++ d.places := by
  rw [Cursor.places, Cursor.places, h.rest, h.stop, List.map_append, List.append_assoc]

theorem ordered (h : c.Reads us d) (hc : c.Ordered) : d.Ordered := by
  unfold Ordered at *
  rw [h.places] at hc
  exact (List.pairwise_append.1 hc).2.1

theorem pos_mem_way (h : c.Reads us d) : c.pos ∈ way us d := by
  unfold Cursor.pos way
  rw [h.rest]
  cases us with
  | nil =>
    rw [List.nil_append, ← h.stop]
    exact List.mem_singleton_self _
  | cons t ts => exact List.mem_cons_self

theorem mem_places (h : c.Reads us d) (hx : x ∈ way us d) : x ∈ c.places := by
  rw [h.places]
  refine List.mem_append.2 ((List.mem_append.1 hx).imp_right fun hx => ?_)
  rw [List.mem_singleton.1 hx]
  exact d.pos_mem_places

theorem le_pos (h : c.Reads us d) (hc : c.Ordered) (hx : x ∈ way us d) : x ≤ d.pos := by
  unfold Ordered at hc
  rw [h.places] at hc
  rcases List.mem_append.1 hx with hx | hx
  · exact (List.pairwise_append.1 hc).2.2 x hx _ d.pos_mem_places
  · exact (List.mem_singleton.1 hx).le

/-- A map that leaves alone all places on the way changes nothing of what is read. -/
theorem beside_self {f : Nat → Nat} (h : c.Reads us d) (hf : ∀ x ∈ way us d, f x = x) :
    c.Reads (us.map (Placed.mapPos f)) d ∧ d.Beside f d := by
  have hmap : us.map (Placed.mapPos f) = us := by
    refine (List.map_congr_left fun t ht => ?_).trans (List.map_id us)
    have hpos := hf t.pos (List.mem_append_left _ (List.mem_map_of_mem ht))
    rw [Placed.mapPos, hpos]
    rfl
  have hpos : f d.pos = d.pos := hf _ (List.mem_append_right _ (List.mem_singleton_self _))
  unfold Cursor.pos at hpos
  refine ⟨by rwa [hmap], ?_, fun hd => ?_⟩
  · cases hd : d.rest with
    | nil => rfl
    | cons t ts =>
      rw [hd] at hpos
      exact congrArg (fun x => some (⟨t.token, x⟩ : Placed)) hpos.symm
  · rw [hd] at hpos
    exact hpos.symm

end Reads

end Cursor

/-- The places of an item are those of tokens on the way, or the one where its reader stops: a map
that leaves these alone leaves the item alone. -/
theorem Item.mapPos_of_parse {item : Item} {c d : Cursor} {f : Nat → Nat}
    (h : Item.parse c = .ok item d) :
    ∃ us, c.Reads us d ∧ ((∀ x ∈ Cursor.way us d, f x = x) → item.mapPos f = item) := by
  have hrun := Attempt.ofReader_eq_ok.2 h
  obtain ⟨-, us, hus, hsame⟩ := Attempt.item_parse_follows f c _ d hrun
  refine ⟨us, hus, fun hf => ?_⟩
  obtain ⟨hus', hbeside⟩ := hus.beside_self hf
  have hmoved := (hsame c d hus' hbeside).symm.trans hrun
  simpa [Attempt.moved] using hmoved

/-- An item that cannot be lowered is reported at a place of its own. -/
theorem Item.pos_of_lower_error {item : Item} {c d : Cursor} {s s' : Lowering Recorder}
    {e : LowerError} (h : Item.parse c = .ok item d) (he : item.lower s = .error e s') :
    ∃ us, c.Reads us d ∧ e.pos ∈ Cursor.way us d := by
  obtain ⟨us, hus, -⟩ := Item.mapPos_of_parse (f := id) h
  refine ⟨us, hus, ?_⟩
  by_contra hpos
  -- a map that moves all places but those of the item leaves the item alone, and so its error
  let f : Nat → Nat := fun x => if x ∈ Cursor.way us d then x else x + 1
  obtain ⟨vs, hvs, hfixed⟩ := Item.mapPos_of_parse (f := f) h
  obtain rfl : us = vs := List.append_cancel_right (hus.rest.symm.trans hvs.rest)
  obtain ⟨t, t', -, hend⟩ := item.lower_same (f := f) s s ⟨rfl, trivial⟩
  rw [hfixed fun x hx => if_pos hx] at hend
  rcases hend with ⟨_, _, hok, -, -⟩ | ⟨e₁, e₂, he₁, he₂, hmoved⟩
  · cases he.symm.trans hok
  · cases he.symm.trans he₁
    cases he.symm.trans he₂
    rcases hmoved with hmoved | ⟨-, cause, hinternal⟩
    · have hmove : e.pos = f e.pos := congrArg LowerError.pos hmoved
      simp only [f, if_neg hpos] at hmove
      omega
    · exact Item.fault_ne_internal he cause hinternal

namespace Lowering

/-- A round moves forward, and reports at a place on the way. -/
theorem round_reports (c : Cursor) (s : Lowering Recorder) :
    ((round c s).1.map Diagnostic.pos).Pairwise (· ≤ ·) ∧ ∃ us, c.Reads us (round c s).2.1 ∧
      ∀ r ∈ (round c s).1, r.pos ∈ Cursor.way us (round c s).2.1 := by
  unfold round
  cases hparse : Item.parse c with
  | ok item d =>
    dsimp only
    cases hfailure : Lowering.failure? item s with
    | none =>
      obtain ⟨us, hus, -⟩ := Item.mapPos_of_parse (f := id) hparse
      exact ⟨List.Pairwise.nil, us, hus, List.forall_mem_nil _⟩
    | some e =>
      obtain ⟨us, hus, hpos⟩ :=
        Item.pos_of_lower_error hparse (Lowering.lower_of_failure? hfailure)
      exact ⟨List.pairwise_singleton _ _, us, hus, List.forall_mem_singleton.2 hpos⟩
  | error e d =>
    obtain ⟨herror, us, hus, -⟩ :=
      Attempt.item_parse_follows id c _ d (Attempt.ofReader_eq_error.2 hparse)
    obtain ⟨vs, hvs⟩ := d.exists_reads_recover e
    refine ⟨List.pairwise_singleton _ _, us ++ vs, hus.trans hvs, List.forall_mem_singleton.2 ?_⟩
    have hpos : e.pos ∈ Cursor.way vs (d.recover e) := (herror e rfl).1 ▸ hvs.pos_mem_way
    unfold Cursor.way at hpos ⊢
    rw [List.map_append, List.append_assoc]
    exact List.mem_append_right _ hpos

theorem itemsFrom_ordered (n : Nat) {c : Cursor} (s : Lowering Recorder) (hc : c.Ordered) :
    ((itemsFrom (fun _ t => t) n c s).1.map Diagnostic.pos).Pairwise (· ≤ ·) ∧
      ∀ r ∈ (itemsFrom (fun _ t => t) n c s).1, r.pos ∈ c.places := by
  induction n generalizing c s with
  | zero => exact ⟨List.Pairwise.nil, by simp [itemsFrom]⟩
  | succ n ih =>
    by_cases heof : c.current = .eof
    · rw [itemsFrom, if_pos heof]
      exact ⟨List.Pairwise.nil, by simp⟩
    · rw [itemsFrom_succ n s heof]
      obtain ⟨hround, us, hus, hreports⟩ := round_reports c s
      obtain ⟨hsorted, hplaces⟩ := ih (round c s).2.2 (hus.ordered hc)
      constructor
      · rw [List.map_append]
        refine List.pairwise_append.2 ⟨hround, hsorted, ?_⟩
        intro x hx y hy
        obtain ⟨r, hr, rfl⟩ := List.mem_map.1 hx
        obtain ⟨q, hq, rfl⟩ := List.mem_map.1 hy
        calc r.pos ≤ (round c s).2.1.pos := hus.le_pos hc (hreports r hr)
          _ ≤ q.pos := (hus.ordered hc).pos_le (hplaces q hq)
      · intro r hr
        rcases List.mem_append.1 hr with hr | hr
        · exact hus.mem_places (hreports r hr)
        · rw [hus.places]
          exact List.mem_append_right _ (hplaces r hr)

end Lowering

/-- Nothing is read in a blank source, and nothing reported. -/
theorem compile_blank {source : String} (h : ∀ c ∈ source.toList, isBlank c = true)
    (r : Recorder) : (compile source r).1 = [] := by
  have hnil : (Cursor.ofSource source).rest = [] := by
    show tokens source = []
    rw [tokens_eq_placed, placed_eq, if_pos (List.dropWhile_eq_nil_iff.2 h)]
  have heof : (Cursor.ofSource source).current = .eof := by rw [Cursor.current, hnil]
  show (Lowering.itemsFrom (fun _ t => t) ((Cursor.ofSource source).rest.length + 1)
    (Cursor.ofSource source) (Lowering.ofTarget r)).1 = []
  rw [Lowering.itemsFrom, if_pos heof]

/-- In less than 2 ^ 31 bytes there are too many lines to be counted only if the text is made of
nothing else, and then all of it. -/
theorem isLineEnd_of_byteSize {before rest : List Char} (hsize : byteSize (before ++ rest) < 2 ^ 31)
    (hbreaks : 2 ^ 31 ≤ 1 + lineBreaks before) :
    rest = [] ∧ byteSize before = 2 ^ 31 - 1 ∧ ∀ c ∈ before, isLineEnd c = true := by
  rw [byteSize_append] at hsize
  have hlength := length_le_byteSize before
  have hrest := length_le_byteSize rest
  have hle := lineBreaks_le before
  exact ⟨List.length_eq_zero_iff.1 (by omega), by omega, isLineEnd_of_lineBreaks (by omega)⟩

theorem Spot.fits_start_advance {before rest : List Char}
    (hsize : byteSize (before ++ rest) < 2 ^ 31) :
    (start.advance before).Fits ↔ 1 + lineBreaks before < 2 ^ 31 := by
  rw [byteSize_append] at hsize
  have hlength := length_le_byteSize before
  have hline := length_lastLine_le before
  have hcolumn : (1 + (lastLine before).length) % 2 ^ 32 ≠ 0 := by omega
  rw [start_advance, Fits]
  exact and_iff_left hcolumn

theorem isBlank_of_isLineEnd {c : Char} (h : isLineEnd c = true) : isBlank c = true := by
  rcases (by simpa [isLineEnd] using h : c = '\r' ∨ c = '\n') with rfl | rfl
  · decide
  · decide

example : (compile "é int f() \x7b return x; \x7d int f( \x7b int g() \x7b \x7d"
    Recorder.empty).1.map Diagnostic.pos = [0, 20, 32] := by
  decide +kernel

end ImpFront
