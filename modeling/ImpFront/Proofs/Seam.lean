import Mathlib
import ImpFront.Proofs.Spelling

/-! Where two texts meet. If the first ends in a character that belongs to no word and no number,
the tokens of the two together are those of the first followed by those of the second, moved behind
the first. -/

namespace ImpFront

/-- The token at a place that is `k` bytes further on. -/
def Placed.shift (k : Nat) (t : Placed) : Placed := { t with pos := t.pos + k }

@[simp] theorem Placed.token_shift (k : Nat) (t : Placed) : (t.shift k).token = t.token := rfl

/-- The tokens of a text that has `n` bytes before it. -/
def placed (n : Nat) (cs : List Char) : List Placed := (⟨cs, n, 0, none⟩ : Scanner).tokens cs.length

theorem tokens_eq_placed (source : String) : tokens source = placed 0 source.toList := by
  rw [tokens, placed, String.length_toList]
  rfl

/-- What was read before has no influence but for the number of its bytes. -/
theorem Scanner.tokens_shift (k n : Nat) {s s' : Scanner} (hrest : s'.rest = s.rest)
    (hoffset : s'.offset = s.offset + k) :
    s'.tokens n = (s.tokens n).map (Placed.shift k) := by
  induction n generalizing s s' with
  | zero => rfl
  | succ n ih =>
    have htoken : s'.next.1 = s.next.1 := by simp only [next, hrest]
    have hpos : s'.next.2.pos = s.next.2.pos + k := by
      simp only [next, hrest, hoffset]
      omega
    have hnext : s'.next.2.tokens n = (s.next.2.tokens n).map (Placed.shift k) := by
      refine ih (by simp only [next, hrest]) ?_
      simp only [next, hrest, hoffset]
      omega
    simp only [tokens, htoken]
    split
    · rfl
    · rw [List.map_cons, hnext, hpos]
      rfl

theorem placed_shift (n k : Nat) (cs : List Char) :
    placed (n + k) cs = (placed n cs).map (Placed.shift k) :=
  Scanner.tokens_shift k _ rfl rfl

theorem placed_eq (n : Nat) (cs : List Char) :
    placed n cs = if cs.dropWhile isBlank = [] then []
      else ⟨Token.ofLexeme (lexeme (cs.dropWhile isBlank)), n + byteSize (cs.takeWhile isBlank)⟩
        :: placed (n + byteSize (cs.takeWhile isBlank) + byteSize (lexeme (cs.dropWhile isBlank)))
          ((cs.dropWhile isBlank).drop (lexeme (cs.dropWhile isBlank)).length) := by
  let s : Scanner := ⟨cs, n, 0, none⟩
  rw [placed, s.tokens_length_rest]
  split
  · rfl
  · -- the scanner behind the lexeme also knows where that started, which does not matter
    have hrest : s.next.2.tokens s.next.2.rest.length =
        (placed s.next.2.offset s.next.2.rest).map (Placed.shift 0) :=
          Scanner.tokens_shift 0 _ rfl rfl
    have hid : Placed.shift 0 = id := rfl
    rw [hrest, hid, List.map_id]
    rfl

theorem placed_blanks {bs : List Char} (h : ∀ b ∈ bs, isBlank b = true) (cs : List Char) (n : Nat) :
    placed n (bs ++ cs) = placed (n + byteSize bs) cs := by
  rw [placed_eq, placed_eq _ cs, List.dropWhile_append_of_pos h, List.takeWhile_append_of_pos h,
    byteSize_append]
  simp only [Nat.add_assoc]

theorem placed_lexeme {c : Char} {w rest : List Char} (hc : isBlank c = false)
    (hlex : lexeme (c :: (w ++ rest)) = c :: w) (n : Nat) : placed n (c :: (w ++ rest)) =
      ⟨Token.ofLexeme (c :: w), n⟩ :: placed (n + byteSize (c :: w)) rest := by
  have hblank : ¬isBlank c = true := by simp [hc]
  rw [placed_eq, List.dropWhile_cons_of_neg hblank, List.takeWhile_cons_of_neg hblank,
    if_neg (List.cons_ne_nil _ _), hlex, ← List.cons_append, List.drop_left]
  rfl

theorem breaks_of_append {as bs : List Char} (h : breaks (as ++ bs) = true) : breaks as = true := by
  cases as with
  | nil => rfl
  | cons a as => exact h

theorem breaks_reverse_of_isBlank {cs : List Char} (h : ∀ c ∈ cs, isBlank c = true) :
    breaks cs.reverse = true := by
  cases hcons : cs.reverse with
  | nil => rfl
  | cons c pre =>
    have hc := h c (List.mem_reverse.1 (hcons ▸ List.mem_cons_self))
    simp only [isBlank, Bool.or_eq_true, decide_eq_true_eq] at hc
    rcases hc with ((((rfl | rfl) | rfl) | rfl) | rfl) | rfl <;> rfl

theorem takeWhile_append_of_mem {p : Char → Bool} {cs : List Char} {c : Char} (hc : c ∈ cs)
    (hp : p c = false) (ds : List Char) : (cs ++ ds).takeWhile p = cs.takeWhile p := by
  induction cs with
  | nil => cases hc
  | cons a cs ih =>
    by_cases ha : p a = true
    · have hne : c ≠ a := by
        rintro rfl
        rw [hp] at ha
        cases ha
      rw [List.cons_append, List.takeWhile_cons_of_pos ha, List.takeWhile_cons_of_pos ha,
        ih ((List.mem_cons.1 hc).resolve_left hne)]
    · rw [List.cons_append, List.takeWhile_cons_of_neg ha, List.takeWhile_cons_of_neg ha]

/-- A lexeme does not reach past a character that ends words and numbers. -/
theorem lexeme_append {cs : List Char} (hcs : cs ≠ []) (h : breaks cs.reverse = true)
    (ds : List Char) :
    lexeme (cs ++ ds) = lexeme cs := by
  obtain ⟨last, pre, hlast⟩ : ∃ last pre, cs.reverse = last :: pre :=
    List.exists_cons_of_ne_nil (by simpa using hcs)
  have hmem : last ∈ cs := List.mem_reverse.1 (hlast ▸ List.mem_cons_self)
  rw [hlast] at h
  simp only [breaks, Bool.and_eq_true, Bool.not_eq_true'] at h
  cases cs with
  | nil => contradiction
  | cons c cs =>
    have hrest : ∀ p : Char → Bool,
        p c = true → p last = false → (cs ++ ds).takeWhile p = cs.takeWhile p := by
      intro p hpc hpl
      refine takeWhile_append_of_mem ((List.mem_cons.1 hmem).resolve_left ?_) hpl ds
      rintro rfl
      rw [hpl] at hpc
      cases hpc
    rw [List.cons_append, lexeme, lexeme]
    split
    · next hc => rw [hrest _ (by simp [Char.isAlphanum, hc]) h.1]
    · split
      · next hc => rw [hrest _ (by simp [isNumberPart, hc]) h.2]
      · rfl

theorem lexeme_append_drop (cs : List Char) : lexeme cs ++ cs.drop (lexeme cs).length = cs := by
  refine List.prefix_iff_eq_append.1 ?_
  cases cs with
  | nil => exact List.prefix_rfl
  | cons c cs =>
    rw [lexeme]
    split
    · exact (List.prefix_cons_inj c).2 (List.takeWhile_prefix _)
    · split
      · exact (List.prefix_cons_inj c).2 (List.takeWhile_prefix _)
      · exact ⟨cs, rfl⟩

/-- A text is blank, or it has a first lexeme. -/
theorem text_cases (cs : List Char) : (∀ b ∈ cs, isBlank b = true) ∨
    ∃ bs c w rest, cs = bs ++ c :: (w ++ rest) ∧ (∀ b ∈ bs, isBlank b = true) ∧ isBlank c = false ∧
      lexeme (c :: (w ++ rest)) = c :: w := by
  cases htext : cs.dropWhile isBlank with
  | nil => exact .inl (List.dropWhile_eq_nil_iff.1 htext)
  | cons c text =>
    have hblank : isBlank c = false := by
      have := List.head_dropWhile_not isBlank (by rw [htext]; exact List.cons_ne_nil c text)
      simpa [htext] using this
    obtain ⟨w, hw⟩ : ∃ w, lexeme (c :: text) = c :: w := by
      rw [lexeme]
      split
      · exact ⟨_, rfl⟩
      · split <;> exact ⟨_, rfl⟩
    have hparts := lexeme_append_drop (c :: text)
    rw [hw, List.cons_append, List.cons.injEq] at hparts
    refine .inr ⟨cs.takeWhile isBlank, c, w, _, ?_, fun b hb => List.mem_takeWhile_imp hb, hblank,
      by rw [hparts.2, hw]⟩
    rw [hparts.2, ← htext, List.takeWhile_append_dropWhile]

/-- Induction over the lexemes of a text. -/
theorem text_induction {P : List Char → Prop} (blank : ∀ cs, (∀ b ∈ cs, isBlank b = true) → P cs)
    (word : ∀ bs c w rest, (∀ b ∈ bs, isBlank b = true) → isBlank c = false →
      lexeme (c :: (w ++ rest)) = c :: w → P rest →
      P (bs ++ c :: (w ++ rest))) (cs : List Char) : P cs := by
  rcases text_cases cs with hall | ⟨bs, c, w, rest, hcs, hbs, hc, hlex⟩
  · exact blank cs hall
  · have hlt : rest.length < cs.length := by
      rw [hcs, List.length_append, List.length_cons, List.length_append]
      omega
    rw [hcs]
    exact word bs c w rest hbs hc hlex (text_induction blank word rest)
termination_by cs.length

/-- The rest of a text ends as the text does. -/
theorem breaks_suffix (as : List Char) {bs : List Char} (h : breaks (as ++ bs).reverse = true) :
    breaks bs.reverse = true := by
  rw [List.reverse_append] at h
  exact breaks_of_append h

/-- The tokens of two texts that meet where no word and no number goes on. -/
theorem placed_append {cs : List Char} (h : breaks cs.reverse = true) (ds : List Char) (n : Nat) :
    placed n (cs ++ ds) = placed n cs ++ placed (n + byteSize cs) ds := by
  induction cs using text_induction generalizing n with
  | blank cs hall =>
    have hnil : placed n cs = [] := by rw [placed_eq, if_pos (List.dropWhile_eq_nil_iff.2 hall)]
    rw [placed_blanks hall, hnil, List.nil_append]
  | word bs c w rest hbs hc hlex ih =>
    have htext := breaks_suffix bs h
    have hrest : breaks rest.reverse = true := breaks_suffix (c :: w) htext
    have hlex' : lexeme (c :: (w ++ (rest ++ ds))) = c :: w := by
      rw [← hlex, ← lexeme_append (List.cons_ne_nil _ _) htext ds, List.cons_append,
        List.append_assoc]
    have hbytes :
        byteSize (bs ++ c :: (w ++ rest)) = byteSize bs + byteSize (c :: w) + byteSize rest := by
      rw [byteSize_append, ← List.cons_append, byteSize_append, Nat.add_assoc]
    rw [List.append_assoc, placed_blanks hbs, placed_blanks hbs, List.cons_append,
      List.append_assoc, placed_lexeme hc hlex', placed_lexeme hc hlex, List.cons_append, ih hrest,
      hbytes]
    simp only [Nat.add_assoc]

theorem eq_singleton_of_ofLexeme {cs : List Char} {c : Char}
    (h : Token.ofLexeme (lexeme cs) = .char c) : lexeme cs = [c] := by
  cases cs with
  | nil => cases h
  | cons a cs =>
    rw [lexeme] at h ⊢
    by_cases ha : a.isAlpha = true
    · simp only [if_pos ha, Token.ofLexeme, Token.ofWord] at h
      repeat' split at h
      all_goals cases h
    · by_cases hd : a.isDigit = true
      · simp only [if_neg ha, if_pos hd, Token.ofLexeme, Token.ofNumber] at h
        split at h <;> cases h
      · simp only [if_neg ha, if_neg hd, Token.ofLexeme, Token.char.injEq] at h
        rw [if_neg ha, if_neg hd, h]

/-- A text whose last token is such a character ends in it, but for blanks. -/
theorem breaks_of_getLast? {cs : List Char} {n : Nat} {t : Placed} {c : Char}
    (h : (placed n cs).getLast? = some t) (ht : t.token = .char c) (hc : breaks [c] = true) :
    breaks cs.reverse = true := by
  induction cs using text_induction generalizing n with
  | blank cs hall => exact breaks_reverse_of_isBlank hall
  | word bs b w rest hbs hb hlex ih =>
    rw [placed_blanks hbs, placed_lexeme hb hlex, List.getLast?_cons] at h
    rw [List.reverse_append, ← List.cons_append, List.reverse_append, List.append_assoc]
    cases hlast : (placed (n + byteSize bs + byteSize (b :: w)) rest).getLast? with
    | some u =>
      -- the last token is one of the rest, which is not empty then
      rw [hlast, Option.getD_some, Option.some.injEq] at h
      have hbreaks := ih (h ▸ hlast)
      obtain ⟨last, pre, hcons⟩ : ∃ last pre, rest.reverse = last :: pre := by
        apply List.exists_cons_of_ne_nil
        rw [Ne, List.reverse_eq_nil_iff]
        rintro rfl
        cases hlast
      rw [hcons] at hbreaks ⊢
      exact hbreaks
    | none =>
      -- only blanks follow the last token
      rw [hlast, Option.getD_none, Option.some.injEq] at h
      have hword : b :: w = [c] := by
        rw [← hlex]
        exact eq_singleton_of_ofLexeme (by rw [hlex]; exact (congrArg Placed.token h).trans ht)
      have hall : ∀ b ∈ rest, isBlank b = true := by
        rw [← List.dropWhile_eq_nil_iff]
        by_contra hne
        rw [placed_eq, if_neg hne, List.getLast?_cons] at hlast
        cases hlast
      rw [hword]
      exact breaks_append (breaks_reverse_of_isBlank hall) hc

/-- Behind a brace or a semicolon a source can be cut in two. -/
theorem tokens_append {s₁ s₂ : String} {t : Placed} {c : Char} (h : (tokens s₁).getLast? = some t)
    (ht : t.token = .char c) (hc : breaks [c] = true) :
    tokens (s₁ ++ s₂) = tokens s₁ ++ (tokens s₂).map (Placed.shift (byteSize s₁.toList)) := by
  rw [tokens_eq_placed] at h
  rw [tokens_eq_placed, tokens_eq_placed, tokens_eq_placed, String.toList_append,
    placed_append (breaks_of_getLast? h ht hc), placed_shift]

end ImpFront
