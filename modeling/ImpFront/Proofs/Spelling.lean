import ImpFront.Proofs.Numeral
import ImpFront.Proofs.Reading

/-! The tokens of a text, piece by piece. A piece spells its tokens if they come first wherever the
piece is followed by the end or by a character that cannot prolong a word or a number. -/

namespace ImpFront

/-- The tokens of a text without their places. -/
def scan (cs : List Char) : List Token :=
  ((⟨cs, 0, 0, none⟩ : Scanner).tokens cs.length).map Placed.token

theorem Scanner.map_token_tokens (n : Nat) {s s' : Scanner} (h : s.rest = s'.rest) :
    (s.tokens n).map Placed.token = (s'.tokens n).map Placed.token := by
  induction n generalizing s s' with
  | zero => rfl
  | succ n ih =>
    have htoken : s.next.1 = s'.next.1 := by simp only [next, h]
    have hrest : s.next.2.rest = s'.next.2.rest := by simp only [next, h]
    simp only [tokens, htoken]
    split
    · rfl
    · rw [List.map_cons, List.map_cons, ih hrest]

theorem Cursor.tokens_ofSource (source : String) :
    (Cursor.ofSource source).tokens = scan source.toList := by
  rw [Cursor.tokens, Cursor.ofSource, ImpFront.tokens, scan, String.length_toList]
  rfl

theorem scan_nil : scan [] = [] := rfl

/-- Blanks are skipped, one lexeme is read. -/
theorem Scanner.tokens_length_rest (s : Scanner) :
    s.tokens s.rest.length = if s.rest.dropWhile isBlank = [] then []
      else ⟨s.next.1, s.next.2.pos⟩ :: s.next.2.tokens s.next.2.rest.length := by
  have heof : s.next.1 = .eof ↔ s.rest.dropWhile isBlank = [] := by
    rw [← lexeme_eq_nil_iff, ← Token.ofLexeme_eq_eof_iff]
    rfl
  rw [tokens_eq_of_le s.rest.length (s.rest.length + 1) s (Nat.le_refl _) (Nat.le_succ _), tokens]
  simp only [heof]
  split
  · rfl
  · next hne =>
    have hlt := length_rest_next_lt s (mt heof.1 hne)
    rw [tokens_eq_of_le s.rest.length s.next.2.rest.length s.next.2 (Nat.le_of_lt hlt)
      (Nat.le_refl _)]

theorem scan_eq (cs : List Char) :
    scan cs = if cs.dropWhile isBlank = [] then []
      else Token.ofLexeme (lexeme (cs.dropWhile isBlank))
        :: scan ((cs.dropWhile isBlank).drop (lexeme (cs.dropWhile isBlank)).length) := by
  let s : Scanner := ⟨cs, 0, 0, none⟩
  have hrest : (s.next.2.tokens s.next.2.rest.length).map Placed.token = scan s.next.2.rest :=
    Scanner.map_token_tokens _ rfl
  rw [scan, s.tokens_length_rest]
  split
  · rfl
  · rw [List.map_cons, hrest]
    rfl

theorem scan_blank {c : Char} {cs : List Char} (hc : isBlank c = true) :
    scan (c :: cs) = scan cs := by
  rw [scan_eq, scan_eq cs, List.dropWhile_cons_of_pos hc]

theorem scan_lexeme {w rest : List Char} {c : Char} {cs : List Char} (hw : w = c :: cs)
    (hc : isBlank c = false) (hlex : lexeme (w ++ rest) = w) :
    scan (w ++ rest) = Token.ofLexeme w :: scan rest := by
  have hdrop : (w ++ rest).dropWhile isBlank = w ++ rest := by
    rw [hw, List.cons_append, List.dropWhile_cons_of_neg (by simp [hc])]
  rw [scan_eq, hdrop, if_neg (by simp [hw]), hlex, List.drop_left]

/-- No word and no number goes on into the text. -/
def breaks : List Char → Bool
  | [] => true
  | c :: _ => !c.isAlphanum && !isNumberPart c

theorem breaks_append {cs ds : List Char} (hcs : breaks cs = true) (hds : breaks ds = true) :
    breaks (cs ++ ds) = true := by
  cases cs with
  | nil => exact hds
  | cons c cs => exact hcs

theorem takeWhile_isAlphanum {cs rest : List Char} (hcs : cs.all Char.isAlphanum = true)
    (hrest : breaks rest = true) :
    (cs ++ rest).takeWhile Char.isAlphanum = cs := by
  have hstop : rest.takeWhile Char.isAlphanum = [] := by
    cases rest with
    | nil => rfl
    | cons c rest =>
      simp only [breaks, Bool.and_eq_true, Bool.not_eq_true'] at hrest
      exact List.takeWhile_cons_of_neg (by simp [hrest.1])
  rw [List.takeWhile_append_of_pos (List.all_eq_true.1 hcs), hstop, List.append_nil]

theorem takeWhile_isNumberPart {cs rest : List Char} (hcs : ∀ c ∈ cs, isNumberPart c = true)
    (hrest : breaks rest = true) : (cs ++ rest).takeWhile isNumberPart = cs := by
  have hstop : rest.takeWhile isNumberPart = [] := by
    cases rest with
    | nil => rfl
    | cons c rest =>
      simp only [breaks, Bool.and_eq_true, Bool.not_eq_true'] at hrest
      exact List.takeWhile_cons_of_neg (by simp [hrest.2])
  rw [List.takeWhile_append_of_pos hcs, hstop, List.append_nil]

theorem isAlpha_of_isDigit {c : Char} (h : c.isDigit = true) : c.isAlpha = false := by
  simp only [Char.isDigit, Char.isAlpha, Char.isUpper, Char.isLower,
    Bool.and_eq_true, decide_eq_true_eq, ge_iff_le, Bool.or_eq_false_iff, Bool.and_eq_false_iff,
    decide_eq_false_iff_not, UInt32.le_iff_toNat_le] at h ⊢
  change 48 ≤ c.val.toNat ∧ c.val.toNat ≤ 57 at h
  change ¬(65 ≤ c.val.toNat ∧ c.val.toNat ≤ 90) ∧ (¬97 ≤ c.val.toNat ∨ ¬c.val.toNat ≤ 122)
  omega

theorem isBlank_of_isAlphanum {c : Char} (h : c.isAlphanum = true) : isBlank c = false := by
  by_contra hblank
  simp only [isBlank, Bool.not_eq_false, Bool.or_eq_true, decide_eq_true_eq] at hblank
  rcases hblank with ((((rfl | rfl) | rfl) | rfl) | rfl) | rfl <;> exact absurd h (by decide)

theorem isBlank_of_isDigit {c : Char} (h : c.isDigit = true) : isBlank c = false :=
  isBlank_of_isAlphanum (by simp [Char.isAlphanum, h])

theorem isNumberPart_of_isDigit {c : Char} (h : c.isDigit = true) : isNumberPart c = true := by
  simp [isNumberPart, h]

theorem lexeme_number {c : Char} {w rest : List Char} (hc : c.isDigit = true)
    (hw : ∀ d ∈ w, isNumberPart d = true) (hrest : breaks rest = true) :
    lexeme (c :: w ++ rest) = c :: w := by
  rw [List.cons_append, lexeme, if_neg (by simp [isAlpha_of_isDigit hc]), if_pos hc,
    takeWhile_isNumberPart hw hrest]

theorem Token.ofLexeme_of_isDigit {c : Char} {w : List Char} (hc : c.isDigit = true) :
    Token.ofLexeme (c :: w) = Token.ofNumber (c :: w) := by
  rw [Token.ofLexeme, if_neg (by simp [isAlpha_of_isDigit hc]), if_pos hc]

theorem Token.ofNumber_digits {cs : List Char} (h : ∀ c ∈ cs, c.isDigit = true) :
    Token.ofNumber cs = .int (Digits.word cs) := by
  rw [Token.ofNumber, if_neg (DigitText.point_notMem h)]

def Spells (cs : List Char) (ts : List Token) : Prop :=
  ∀ rest, breaks rest = true → scan (cs ++ rest) = ts ++ scan rest

/-- A character that is a token by itself. -/
def isMark (c : Char) : Bool := !isBlank c && !c.isAlphanum

def isWord : List Char → Bool
  | [] => false
  | c :: cs => c.isAlpha && cs.all Char.isAlphanum

def reserved : List String :=
  ["int", "double", "Int", "Double", "extern", "return", "if", "else", "while"]

def isName (name : String) : Bool := isWord name.toList && name ∉ reserved

/-- The reserved words are the type keywords and the other keywords. -/
theorem notMem_reserved {name : String} :
    name ∉ reserved ↔ Ty.ofKeyword? name = none ∧ Keyword.ofText? name = none := by
  simp only [reserved, Ty.ofKeyword?, Keyword.ofText?, Keyword.text, List.mem_cons,
    List.not_mem_nil, or_false, not_or, List.find?_eq_none, forall_eq_or_imp]
  grind

namespace Spells

variable {cs d : List Char} {ts us : List Token}

theorem nil : Spells [] [] := fun _ _ => rfl

theorem scan_eq (h : Spells cs ts) : scan cs = ts := by
  have := h [] rfl
  rwa [List.append_nil, scan_nil, List.append_nil] at this

theorem append (hcs : Spells cs ts) (hbreak : breaks d = true) (hd : Spells d us) :
    Spells (cs ++ d) (ts ++ us) := by
  intro rest hrest
  rw [List.append_assoc, hcs _ (breaks_append hbreak hrest), hd rest hrest, List.append_assoc]

theorem blank {c : Char} (hc : isBlank c = true) (h : Spells cs ts) : Spells (c :: cs) ts := by
  intro rest hrest
  rw [List.cons_append, scan_blank hc, h rest hrest]

theorem blanks {bs : List Char} (hbs : ∀ c ∈ bs, isBlank c = true) (h : Spells cs ts) :
    Spells (bs ++ cs) ts := by
  induction bs with
  | nil => exact h
  | cons b bs ih =>
    exact blank (hbs b List.mem_cons_self) (ih fun c hc => hbs c (List.mem_cons_of_mem _ hc))

theorem mark {c : Char} (hc : isMark c = true) (h : Spells cs ts) :
    Spells (c :: cs) (.char c :: ts) := by
  intro rest hrest
  simp only [isMark, Char.isAlphanum, Bool.and_eq_true, Bool.not_eq_true', Bool.or_eq_false_iff]
    at hc
  have hlex : lexeme ([c] ++ (cs ++ rest)) = [c] := by simp [lexeme, hc.2]
  have htoken : Token.ofLexeme [c] = .char c := by simp [Token.ofLexeme, hc.2]
  have hscan := scan_lexeme rfl hc.1 hlex
  rw [htoken, h rest hrest] at hscan
  exact hscan

theorem word {c : Char} {w : List Char} (hc : c.isAlpha = true)
    (hw : w.all Char.isAlphanum = true) :
    Spells (c :: w) [Token.ofWord (String.ofList (c :: w))] := by
  intro rest hrest
  have hlex : lexeme (c :: w ++ rest) = c :: w := by
    rw [List.cons_append, lexeme, if_pos hc, takeWhile_isAlphanum hw hrest]
  have hblank : isBlank c = false := isBlank_of_isAlphanum (by simp [Char.isAlphanum, hc])
  rw [scan_lexeme rfl hblank hlex, Token.ofLexeme, if_pos hc]
  rfl

theorem number {c : Char} {w : List Char} (hc : c.isDigit = true)
    (hw : ∀ d ∈ w, isNumberPart d = true) :
    Spells (c :: w) [Token.ofNumber (c :: w)] := by
  intro rest hrest
  rw [scan_lexeme rfl (isBlank_of_isDigit hc) (lexeme_number hc hw hrest),
    Token.ofLexeme_of_isDigit hc]
  rfl

theorem name {name : String} (h : isName name = true) : Spells name.toList [.ident name] := by
  simp only [isName, Bool.and_eq_true, decide_eq_true_eq, notMem_reserved] at h
  obtain ⟨hletters, hty, hkw⟩ := h
  have hword : Token.ofWord name = .ident name := by rw [Token.ofWord, hty, hkw]
  cases hname : name.toList with
  | nil =>
    rw [hname] at hletters
    cases hletters
  | cons c cs =>
    rw [hname, isWord, Bool.and_eq_true] at hletters
    have hspell := word hletters.1 hletters.2
    rwa [← hname, String.ofList_toList, hword, hname] at hspell

theorem type (ty : Ty) : Spells ty.keyword.toList [.type ty] := by
  have hword : Token.ofWord ty.keyword = .type ty := by rw [Token.ofWord, Ty.ofKeyword?_keyword]
  have hletters :
      ∃ c cs, ty.keyword.toList = c :: cs ∧ c.isAlpha = true ∧ cs.all Char.isAlphanum = true := by
    obtain ⟨p⟩ | ⟨p⟩ := ty <;> cases p <;> exact ⟨_, _, rfl, rfl, rfl⟩
  obtain ⟨c, cs, hkeyword, hc, hcs⟩ := hletters
  have hspell := word hc hcs
  rwa [← hkeyword, String.ofList_toList, hword] at hspell

theorem keyword (k : Keyword) : Spells k.text.toList [.keyword k] := by
  have hword : Token.ofWord k.text = .keyword k := by cases k <;> decide
  have hletters :
      ∃ c cs, k.text.toList = c :: cs ∧ c.isAlpha = true ∧ cs.all Char.isAlphanum = true := by
    cases k <;> exact ⟨_, _, rfl, rfl, rfl⟩
  obtain ⟨c, cs, hkeyword, hc, hcs⟩ := hletters
  have hspell := word hc hcs
  rwa [← hkeyword, String.ofList_toList, hword] at hspell

theorem int (value : Word) : Spells (toString value.toNat).toList [.int value] := by
  have htext : (toString value.toNat).toList = Nat.toDigits 10 value.toNat := Nat.toList_repr
  have hdigits : ∀ c ∈ Nat.toDigits 10 value.toNat, c.isDigit = true :=
    fun c hc => Nat.isDigit_of_mem_toDigits (by decide) (by decide) hc
  have hnumber : Token.ofNumber (Nat.toDigits 10 value.toNat) = .int value := by
    rw [Token.ofNumber_digits hdigits, Digits.word_toDigits]
  rw [htext, ← hnumber]
  cases hcs : Nat.toDigits 10 value.toNat with
  | nil => exact absurd hcs Nat.toDigits_ne_nil
  | cons c cs =>
    rw [hcs] at hdigits
    exact number (hdigits c List.mem_cons_self) fun d hd =>
      isNumberPart_of_isDigit (hdigits d (List.mem_cons_of_mem _ hd))

theorem numeral {x : Double} (h : x.Numeral cs) : Spells cs [.double x] := by
  have hread := h.ofNumeral_eq
  obtain ⟨whole, fraction, hne, hdigits, -⟩ := h
  have hnumber : Token.ofNumber (whole ++ '.' :: fraction) = .double x := by
    rw [Token.ofNumber, if_pos (by simp), hread]
  rw [← hnumber]
  cases whole with
  | nil => exact absurd rfl hne
  | cons c whole =>
    refine number (hdigits c List.mem_cons_self) fun d hd => ?_
    rcases List.mem_append.1 hd with hd | hd
    · exact isNumberPart_of_isDigit (hdigits d (List.mem_append_left _ (List.mem_cons_of_mem _ hd)))
    · rcases List.mem_cons.1 hd with rfl | hd
      · rfl
      · exact isNumberPart_of_isDigit (hdigits d (List.mem_append_right _ hd))

end Spells

end ImpFront
