import Mathlib
import ImpFront.Proofs.LongestMatch

/-! Blanks between texts. No lexeme reaches over a blank, so a source with a run of blanks in it has
the tokens of the text before the run, followed by those of the text behind it. Which blanks these
are matters for the places only. -/

namespace ImpFront

open Lexical

theorem takeWhile_append_of_stop {p : Char → Bool} {ds : List Char} (h : ds.takeWhile p = [])
    (cs : List Char) :
    (cs ++ ds).takeWhile p = cs.takeWhile p := by
  rw [List.takeWhile_append]
  split
  · next hall =>
    rw [h, List.append_nil]
    exact ((List.takeWhile_prefix p).eq_of_length hall).symm
  · rfl

/-- A lexeme does not go on where a text breaks off. -/
theorem lexeme_append_of_breaks {ds : List Char} (h : breaks ds = true) (c : Char)
    (cs : List Char) :
    lexeme (c :: (cs ++ ds)) = lexeme (c :: cs) := by
  have hstop : ds.takeWhile Char.isAlphanum = [] ∧ ds.takeWhile isNumberPart = [] := by
    cases ds with
    | nil => exact ⟨rfl, rfl⟩
    | cons d ds =>
      simp only [breaks, Bool.and_eq_true, Bool.not_eq_true'] at h
      exact ⟨List.takeWhile_cons_of_neg (by simp [h.1]), List.takeWhile_cons_of_neg (by simp [h.2])⟩
  simp only [lexeme, takeWhile_append_of_stop hstop.1, takeWhile_append_of_stop hstop.2]

theorem breaks_of_isBlank {ws : List Char} (h : ∀ c ∈ ws, isBlank c = true) : breaks ws = true := by
  have hreverse : ∀ c ∈ ws.reverse, isBlank c = true := fun c hc => h c (List.mem_reverse.1 hc)
  simpa using breaks_reverse_of_isBlank hreverse

/-- Blanks at the end of a text are no tokens, and they change none. -/
theorem placed_append_blanks {ws : List Char} (hws : ∀ c ∈ ws, isBlank c = true) (cs : List Char)
    (n : Nat) :
    placed n (cs ++ ws) = placed n cs := by
  induction cs using text_induction generalizing n with
  | blank cs hall =>
    have hnil : ∀ k, placed k ws = [] := by
      intro k
      rw [placed_eq, if_pos (List.dropWhile_eq_nil_iff.2 hws)]
    rw [placed_blanks hall, hnil, placed_eq, if_pos (List.dropWhile_eq_nil_iff.2 hall)]
  | word bs c w rest hbs hc hlex ih =>
    have hlex' : lexeme (c :: (w ++ (rest ++ ws))) = c :: w := by
      rw [← List.append_assoc, lexeme_append_of_breaks (breaks_of_isBlank hws), hlex]
    rw [List.append_assoc, List.cons_append, List.append_assoc, placed_blanks hbs,
      placed_blanks hbs, placed_lexeme hc hlex', placed_lexeme hc hlex, ih]

theorem placed_blanks_between {ws : List Char} (hne : ws ≠ []) (hws : ∀ c ∈ ws, isBlank c = true)
    (cs ds : List Char) (n : Nat) :
    placed n (cs ++ ws ++ ds) = placed n cs ++ placed (n + byteSize (cs ++ ws)) ds := by
  have hbreaks : breaks (cs ++ ws).reverse = true := by
    have hlast := breaks_reverse_of_isBlank hws
    obtain ⟨c, pre, hcons⟩ := List.exists_cons_of_ne_nil (List.reverse_ne_nil_iff.2 hne)
    rw [List.reverse_append, hcons, List.cons_append]
    rwa [hcons] at hlast
  rw [placed_append hbreaks, placed_append_blanks hws]

/-- A text can be cut before each of its tokens. -/
theorem exists_placed_eq {cs : List Char} {n : Nat} {before after : List Placed}
    (h : placed n cs = before ++ after) :
    ∃ as, as <+: cs ∧ placed n as = before := by
  induction cs using text_induction generalizing n before with
  | blank cs hall =>
    rw [placed_eq, if_pos (List.dropWhile_eq_nil_iff.2 hall)] at h
    exact ⟨[], List.nil_prefix, (List.append_eq_nil_iff.1 h.symm).1.symm⟩
  | word bs c w rest hbs hc hlex ih =>
    cases before with
    | nil => exact ⟨[], List.nil_prefix, rfl⟩
    | cons t before =>
      rw [placed_blanks hbs, placed_lexeme hc hlex, List.cons_append, List.cons.injEq] at h
      obtain ⟨rfl, h⟩ := h
      obtain ⟨as, has, hplaced⟩ := ih h
      -- what is cut off at the end does not change the first lexeme
      have hfirst := first_lexeme hc (w ++ rest)
      rw [hlex] at hfirst
      have hshort := hfirst.of_begins (List.prefix_append (c :: w) as)
        ((List.prefix_append_right_inj (c :: w)).2 has)
      have hlex' : lexeme (c :: (w ++ as)) = c :: w := (first_lexeme hc (w ++ as)).unique hshort
      refine ⟨bs ++ (c :: w ++ as), ?_, ?_⟩
      · exact (List.prefix_append_right_inj bs).2 ((List.prefix_append_right_inj (c :: w)).2 has)
      · rw [placed_blanks hbs, List.cons_append, placed_lexeme hc hlex', hplaced]

/-- Behind blanks the scanner starts afresh, so one run of blanks is as good as another. -/
theorem tokenize_blanks_between (a b : String) {w : String} (hne : w ≠ "")
    (hw : ∀ c ∈ w.toList, isBlank c = true) :
    tokenize (a ++ w ++ b) = (tokenize a).dropLast ++
      (tokenize b).map (Placed.shift (a ++ w).utf8ByteSize) ∧
      ∀ w' : String, w' ≠ "" → (∀ c ∈ w'.toList, isBlank c = true) →
        (tokenize (a ++ w' ++ b)).map Placed.token = (tokenize (a ++ w ++ b)).map Placed.token := by
  have hcompose : ∀ v : String, v ≠ "" → (∀ c ∈ v.toList, isBlank c = true) →
      tokenize (a ++ v ++ b) = (tokenize a).dropLast ++
        (tokenize b).map (Placed.shift (a ++ v).utf8ByteSize) := by
    intro v hne hv
    have hplaced := placed_blanks_between (mt String.toList_eq_nil_iff.1 hne) hv a.toList b.toList 0
    rw [← String.toList_append, ← String.toList_append, placed_shift, byteSize_toList] at hplaced
    have hend : byteSize (a ++ v ++ b).toList = byteSize b.toList + (a ++ v).utf8ByteSize := by
      rw [String.toList_append, byteSize_append, byteSize_toList, Nat.add_comm]
    rw [tokenize, tokenize, tokenize, List.dropLast_concat, tokens_eq_placed, tokens_eq_placed,
      tokens_eq_placed, hplaced, List.map_append, List.append_assoc, hend]
    rfl
  refine ⟨hcompose w hne hw, fun w' hne' hw' => ?_⟩
  simp only [hcompose w hne hw, hcompose w' hne' hw', List.map_append, List.map_map,
    Function.comp_def, Placed.token_shift]

/-- Without the blanks the two digits would be one number. -/
theorem tokenize_blanks_between_numbers :
    "\r\n" ≠ "" ∧ (∀ c ∈ "\r\n".toList, isBlank c = true) ∧
      tokenize ("é 1." ++ "\r\n" ++ "5x") = (tokenize "é 1.").dropLast ++
        (tokenize "5x").map (Placed.shift ("é 1." ++ "\r\n").utf8ByteSize) ∧
      (tokenize ("é 1." ++ " " ++ "5x")).map Placed.token =
        (tokenize ("é 1." ++ "\r\n" ++ "5x")).map Placed.token := by
  have hne : "\r\n" ≠ "" := by decide
  have hblank : ∀ c ∈ "\r\n".toList, isBlank c = true := by simp [isBlank]
  obtain ⟨hcompose, hreplace⟩ := tokenize_blanks_between "é 1." "5x" hne hblank
  exact ⟨hne, hblank, hcompose, hreplace " " (by decide) (by simp [isBlank])⟩

end ImpFront
