import Mathlib
import ImpFront.Proofs.LineBreaks
import ImpFront.Proofs.Seam

/-! The lexical rule of the language, apart from the scanner, and that the scanner follows it. A
source falls into lexemes with blanks around them. A lexeme is the longest word that the text begins
with, else the longest number, else one character. There is one way to cut a source like this, and
its tokens are what the lexemes spell, each at the number of bytes before its lexeme. -/

namespace ImpFront

namespace Lexical

def blanks : List Char := [' ', '\t', '\n', '\x0b', '\x0c', '\r']

def Letter (c : Char) : Prop := 'A' ≤ c ∧ c ≤ 'Z' ∨ 'a' ≤ c ∧ c ≤ 'z'

def Figure (c : Char) : Prop := '0' ≤ c ∧ c ≤ '9'

/-- A letter, then letters and figures. -/
inductive Word : List Char → Prop
  | mk {c : Char} {cs : List Char} : Letter c → (∀ d ∈ cs, Letter d ∨ Figure d) → Word (c :: cs)

/-- A figure, then figures and points. -/
inductive Number : List Char → Prop
  | mk {c : Char} {cs : List Char} : Figure c → (∀ d ∈ cs, Figure d ∨ d = '.') → Number (c :: cs)

/-- Of the texts with property `P` that `text` begins with, `l` is the longest. -/
structure Longest (P : List Char → Prop) (text l : List Char) : Prop where
  holds : P l
  begins : l <+: text
  longest : ∀ l', P l' → l' <+: text → l'.length ≤ l.length

/-- Nothing with property `P` stands at the head of the text. -/
def Absent (P : List Char → Prop) (text : List Char) : Prop := ∀ l, P l → ¬l <+: text

/-- The lexeme at the head of a text. -/
inductive First (text : List Char) : List Char → Prop
  | word {l : List Char} : Longest Word text l → First text l
  | number {l : List Char} : Absent Word text → Longest Number text l → First text l
  | char {c : Char} :
      Absent Word text → Absent Number text → c ∉ blanks → [c] <+: text → First text [c]

/-- A lexeme and the blanks before it. -/
structure Piece where
  gap : List Char
  lexeme : List Char

def Piece.text (p : Piece) : List Char := p.gap ++ p.lexeme

/-- A text cut into lexemes, and the blanks behind the last. -/
inductive Cut : List Char → List Piece → List Char → Prop
  | last {w : List Char} : (∀ c ∈ w, c ∈ blanks) → Cut w [] w
  | piece {w l rest last : List Char} {ps : List Piece} :
      (∀ c ∈ w, c ∈ blanks) → First (l ++ rest) l → Cut rest ps last →
    Cut (w ++ (l ++ rest)) (⟨w, l⟩ :: ps) last

/-- What a lexeme spells. A number with points counts up to its second point. -/
inductive Spelled : List Char → Token → Prop
  | type (ty : Ty) : Spelled ty.keyword.toList (.type ty)
  | keyword (k : Keyword) : Spelled k.text.toList (.keyword k)
  | ident {name : String} :
      Word name.toList → (∀ ty : Ty, name ≠ ty.keyword) → (∀ k : Keyword, name ≠ k.text) →
    Spelled name.toList (.ident name)
  | int {l : List Char} : Number l → '.' ∉ l → Spelled l (.int (BitVec.ofNat 32 (Digits.value l)))
  | double {l p : List Char} {x : Double} :
      Number l → '.' ∈ l → Longest (fun p => p.count '.' ≤ 1) l p → x.Numeral p →
    Spelled l (.double x)
  | char {c : Char} : ¬Letter c → ¬Figure c → Spelled [c] (.char c)

theorem isBlank_iff {c : Char} : isBlank c = true ↔ c ∈ blanks := by
  simp [isBlank, blanks, or_assoc]

theorem isAlpha_iff {c : Char} : c.isAlpha = true ↔ Letter c := by
  simp [Char.isAlpha, Char.isUpper, Char.isLower, Letter, Char.le_def]

theorem isDigit_iff {c : Char} : c.isDigit = true ↔ Figure c := by
  simp [Char.isDigit, Figure, Char.le_def]

theorem isAlphanum_iff {c : Char} : c.isAlphanum = true ↔ Letter c ∨ Figure c := by
  rw [Char.isAlphanum, Bool.or_eq_true, isAlpha_iff, isDigit_iff]

theorem isNumberPart_iff {c : Char} : isNumberPart c = true ↔ Figure c ∨ c = '.' := by
  rw [isNumberPart, Bool.or_eq_true, decide_eq_true_eq, isDigit_iff]

theorem notMem_blanks_of_isAlphanum {c : Char} (h : Letter c ∨ Figure c) : c ∉ blanks := by
  rw [← isBlank_iff, isBlank_of_isAlphanum (isAlphanum_iff.2 h)]
  exact Bool.false_ne_true

theorem Longest.unique {P : List Char → Prop} {text l l' : List Char} (h : Longest P text l)
    (h' : Longest P text l') :
    l = l' := by
  have hle := h'.longest l h.holds h.begins
  have hge := h.longest l' h'.holds h'.begins
  exact (List.prefix_of_prefix_length_le h.begins h'.begins hle).eq_of_length (Nat.le_antisymm hle
    hge)

theorem Longest.not_absent {P : List Char → Prop} {text l : List Char} (h : Longest P text l) :
    ¬Absent P text :=
  fun hno => hno l h.holds h.begins

theorem First.unique {text l l' : List Char} (h : First text l) (h' : First text l') : l = l' := by
  cases h with
  | word h =>
    cases h' with
    | word h' => exact h.unique h'
    | number hno _ => exact absurd hno h.not_absent
    | char hno _ _ _ => exact absurd hno h.not_absent
  | number hno h =>
    cases h' with
    | word h' => exact absurd hno h'.not_absent
    | number _ h' => exact h.unique h'
    | char _ hno' _ _ => exact absurd hno' h.not_absent
  | char hno hno' _ hc =>
    cases h' with
    | word h' => exact absurd hno h'.not_absent
    | number _ h' => exact absurd hno' h'.not_absent
    | char _ _ _ hc' => exact (List.prefix_of_prefix_length_le hc hc' le_rfl).eq_of_length rfl

theorem Longest.of_begins {P : List Char → Prop} {text text' l : List Char} (h : Longest P text l)
    (hl : l <+: text') (htext : text' <+: text) : Longest P text' l :=
  ⟨h.holds, hl, fun l' hP hl' => h.longest l' hP (hl'.trans htext)⟩

theorem Absent.of_begins {P : List Char → Prop} {text text' : List Char} (h : Absent P text)
    (htext : text' <+: text) :
    Absent P text' :=
  fun l hP hl => h l hP (hl.trans htext)

/-- A shorter text that still has the lexeme at its head begins with the same one. -/
theorem First.of_begins {text text' l : List Char} (h : First text l) (hl : l <+: text')
    (htext : text' <+: text) :
    First text' l := by
  cases h with
  | word h => exact .word (h.of_begins hl htext)
  | number hno h => exact .number (hno.of_begins htext) (h.of_begins hl htext)
  | char hno hno' hc _ => exact .char (hno.of_begins htext) (hno'.of_begins htext) hc hl

/-- A lexeme starts with a character that is not blank. -/
theorem First.head {text l : List Char} (h : First text l) : ∃ c cs, l = c :: cs ∧ c ∉ blanks := by
  cases h with
  | word h =>
    obtain ⟨hc, -⟩ := h.holds
    exact ⟨_, _, rfl, notMem_blanks_of_isAlphanum (.inl hc)⟩
  | number _ h =>
    obtain ⟨hc, -⟩ := h.holds
    exact ⟨_, _, rfl, notMem_blanks_of_isAlphanum (.inr hc)⟩
  | char _ _ hc _ => exact ⟨_, [], rfl, hc⟩

/-- A character and those behind it of one kind, as far as they go. -/
theorem longest_takeWhile {P : List Char → Prop} {c : Char} {p : Char → Bool} (cs : List Char)
    (hP : ∀ ds, P (c :: ds) ↔ ∀ d ∈ ds, p d = true) (hnil : ¬P []) :
    Longest P (c :: cs) (c :: cs.takeWhile p) := by
  refine ⟨(hP _).2 fun d hd => List.mem_takeWhile_imp hd,
    (List.prefix_cons_inj c).2 (List.takeWhile_prefix p), ?_⟩
  intro l hl hbegins
  cases l with
  | nil => exact absurd hl hnil
  | cons d ds =>
    obtain ⟨rfl, hds⟩ := List.cons_prefix_cons.1 hbegins
    obtain ⟨rest, rfl⟩ := hds
    rw [List.takeWhile_append_of_pos ((hP ds).1 hl)]
    simp

theorem word_cons_iff {c : Char} (hc : Letter c) (ds : List Char) :
    Word (c :: ds) ↔ ∀ d ∈ ds, d.isAlphanum = true := by
  simp only [isAlphanum_iff]
  refine ⟨?_, .mk hc⟩
  rintro ⟨-, h⟩
  exact h

theorem number_cons_iff {c : Char} (hc : Figure c) (ds : List Char) :
    Number (c :: ds) ↔ ∀ d ∈ ds, isNumberPart d = true := by
  simp only [isNumberPart_iff]
  refine ⟨?_, .mk hc⟩
  rintro ⟨-, h⟩
  exact h

theorem not_word_nil : ¬Word [] := by rintro ⟨⟩

theorem not_number_nil : ¬Number [] := by rintro ⟨⟩

theorem absent_word {c : Char} (hc : ¬Letter c) (cs : List Char) : Absent Word (c :: cs) := by
  rintro l ⟨hl, -⟩ hbegins
  exact hc ((List.cons_prefix_cons.1 hbegins).1 ▸ hl)

theorem absent_number {c : Char} (hc : ¬Figure c) (cs : List Char) : Absent Number (c :: cs) := by
  rintro l ⟨hl, -⟩ hbegins
  exact hc ((List.cons_prefix_cons.1 hbegins).1 ▸ hl)

/-- The scanner takes the longest word, else the longest number, else one character. -/
theorem first_lexeme {c : Char} (hblank : isBlank c = false) (cs : List Char) :
    First (c :: cs) (lexeme (c :: cs)) := by
  rw [lexeme]
  split
  · next hc => exact .word (longest_takeWhile cs (word_cons_iff (isAlpha_iff.1 hc)) not_word_nil)
  · next hc =>
    rw [isAlpha_iff] at hc
    split
    · next hd =>
      exact .number (absent_word hc cs)
        (longest_takeWhile cs (number_cons_iff (isDigit_iff.1 hd)) not_number_nil)
    · next hd =>
      rw [isDigit_iff] at hd
      refine .char (absent_word hc cs) (absent_number hd cs) ?_ ⟨cs, rfl⟩
      rw [← isBlank_iff, hblank]
      exact Bool.false_ne_true

theorem exists_cut (cs : List Char) : ∃ ps last, Cut cs ps last := by
  induction cs using text_induction with
  | blank cs hall => exact ⟨[], cs, .last fun c hc => isBlank_iff.1 (hall c hc)⟩
  | word bs c w rest hbs hc hlex ih =>
    obtain ⟨ps, last, hcut⟩ := ih
    have hfirst := first_lexeme hc (w ++ rest)
    rw [hlex] at hfirst
    rw [← List.cons_append]
    exact ⟨⟨bs, c :: w⟩ :: ps, last, .piece (fun b hb => isBlank_iff.1 (hbs b hb)) hfirst hcut⟩

/-- Where blanks end and a lexeme begins is determined. -/
theorem blanks_append_cancel {w w' : List Char} {c c' : Char} {cs cs' : List Char}
    (hw : ∀ d ∈ w, d ∈ blanks) (hw' : ∀ d ∈ w', d ∈ blanks) (hc : c ∉ blanks) (hc' : c' ∉ blanks)
    (h : w ++ c :: cs = w' ++ c' :: cs') :
    w = w' ∧ c :: cs = c' :: cs' := by
  have htake : ∀ {v : List Char} {d : Char} {ds : List Char}, (∀ b ∈ v, b ∈ blanks) → d ∉ blanks →
      (v ++ d :: ds).takeWhile (· ∈ blanks) = v := by
    intro v d ds hv hd
    rw [List.takeWhile_append_of_pos (by simpa using hv),
      List.takeWhile_cons_of_neg (by simpa using hd), List.append_nil]
  have hgap : w = w' := by rw [← htake hw hc, h, htake hw' hc']
  exact ⟨hgap, List.append_cancel_left (hgap ▸ h)⟩

theorem Cut.unique {cs last last' : List Char} {ps ps' : List Piece} (h : Cut cs ps last)
    (h' : Cut cs ps' last') :
    ps' = ps ∧ last' = last := by
  induction h generalizing ps' last' with
  | last hw =>
    cases h' with
    | last _ => exact ⟨rfl, rfl⟩
    | piece _ hl _ =>
      obtain ⟨c, cs, rfl, hc⟩ := hl.head
      exact absurd (hw c (by simp)) hc
  | @piece w l rest last ps hw hl hrest ih =>
    generalize htext : w ++ (l ++ rest) = text at h'
    obtain ⟨c, cs, rfl, hc⟩ := hl.head
    cases h' with
    | last hw' => exact absurd (hw' c (by simp [← htext])) hc
    | @piece w' l' rest' last' ps' hw' hl' hrest' =>
      obtain ⟨c', cs', rfl, hc'⟩ := hl'.head
      obtain ⟨rfl, htail⟩ := blanks_append_cancel hw hw' hc hc' htext
      have hsame : c :: cs ++ rest = c' :: cs' ++ rest' := htail
      have hlex : c :: cs = c' :: cs' := hl.unique (hsame ▸ hl')
      rw [hlex] at hsame
      obtain rfl := List.append_cancel_left hsame
      obtain ⟨rfl, rfl⟩ := ih hrest'
      exact ⟨by rw [hlex], rfl⟩

/-- Up to the second point, or to the end if there is none. -/
theorem longest_point {whole tail : List Char} (hwhole : '.' ∉ whole) :
    Longest (fun p => p.count '.' ≤ 1) (whole ++ '.' :: tail)
      (whole ++ '.' :: tail.takeWhile (· ≠ '.')) := by
  have hfraction : '.' ∉ tail.takeWhile (· ≠ '.') := fun hmem => by
    simpa using List.mem_takeWhile_imp hmem
  have hcount : (whole ++ '.' :: tail.takeWhile (· ≠ '.')).count '.' = 1 := by
    rw [List.count_append, List.count_cons_self, List.count_eq_zero.2 hwhole,
      List.count_eq_zero.2 hfraction]
  refine ⟨hcount.le, ?_, fun l hl hbegins => ?_⟩
  · exact (List.prefix_append_right_inj
      whole).2 ((List.prefix_cons_inj '.').2 (List.takeWhile_prefix _))
  cases hrest : tail.dropWhile (· ≠ '.') with
  | nil =>
    have hall : tail.takeWhile (· ≠ '.') = tail :=
      List.takeWhile_eq_self_iff.2 (List.dropWhile_eq_nil_iff.1 hrest)
    rw [hall]
    exact hbegins.length_le
  | cons c rest =>
    -- what goes on has a second point
    have hc : c = '.' := by
      have hstop := List.head?_dropWhile_not (fun c => decide (c ≠ '.')) tail
      rw [hrest] at hstop
      simpa using hstop
    subst hc
    by_contra hlong
    have hmore : whole ++ '.' :: tail.takeWhile (· ≠ '.') ++ ['.'] <+: whole ++ '.' :: tail := by
      refine ⟨rest, ?_⟩
      conv_rhs => rw [← List.takeWhile_append_dropWhile (p := (· ≠ '.')) (l := tail), hrest]
      simp
    have hle := List.prefix_of_prefix_length_le hmore hbegins (by simp at hlong ⊢; omega)
    have htwo := hle.sublist.count_le '.'
    rw [List.count_append, hcount, List.count_singleton_self] at htwo
    omega

theorem Number.figure_of_mem {l : List Char} (h : Number l) {c : Char} (hc : c ∈ l)
    (hne : c ≠ '.') : Figure c := by
  obtain ⟨hhead, htail⟩ := h
  rcases List.mem_cons.1 hc with rfl | hc
  · exact hhead
  · exact (htail c hc).resolve_right hne

/-- Up to its second point a number can be converted, and this is its value. -/
theorem Number.numeral {l : List Char} (h : Number l) (hpoint : '.' ∈ l) :
    ∃ p, Longest (fun p => p.count '.' ≤ 1) l p ∧ (Double.ofNumeral l).Numeral p := by
  obtain ⟨whole, tail, rfl, hwhole⟩ := List.eq_append_cons_of_mem hpoint
  have hbefore : ∀ c ∈ whole, decide (c ≠ '.') = true :=
    fun c hc => decide_eq_true (ne_of_mem_of_not_mem hc hwhole)
  refine ⟨_, longest_point hwhole, .mk whole (tail.takeWhile (· ≠ '.')) ?_ ?_ ?_⟩
  · rintro rfl
    obtain ⟨hc, -⟩ := h
    exact absurd (isDigit_iff.2 hc) (by decide)
  · intro c hc
    rw [isDigit_iff]
    rcases List.mem_append.1 hc with hc | hc
    · exact h.figure_of_mem (List.mem_append_left _ hc) (by simpa using hbefore c hc)
    · have hmem := (List.takeWhile_prefix _).subset hc
      exact h.figure_of_mem (by simp [hmem]) (by simpa using List.mem_takeWhile_imp hc)
  · rw [Double.ofNumeral, List.takeWhile_append_of_pos hbefore,
      List.dropWhile_append_of_pos hbefore]
    simp

theorem ofLexeme_word {name : String} (h : Word name.toList) :
    Token.ofLexeme name.toList = Token.ofWord name := by
  generalize hl : name.toList = l at h
  obtain ⟨hc, -⟩ := h
  rw [Token.ofLexeme, if_pos (isAlpha_iff.2 hc), ← hl, String.ofList_toList]

theorem ofLexeme_number {l : List Char} (h : Number l) : Token.ofLexeme l = Token.ofNumber l := by
  obtain ⟨hc, -⟩ := h
  exact Token.ofLexeme_of_isDigit (isDigit_iff.2 hc)

theorem Spelled.eq_ofLexeme {l : List Char} {t : Token} (h : Spelled l t) :
    t = Token.ofLexeme l := by
  cases h with
  | type ty => obtain ⟨p⟩ | ⟨p⟩ := ty <;> cases p <;> decide +kernel
  | keyword k => cases k <;> decide +kernel
  | @ident name hword hty hkw =>
    have hty' : Ty.ofKeyword? name = none :=
      Option.eq_none_iff_forall_ne_some.2 fun ty h => hty ty (Ty.ofKeyword?_eq_some_iff.1 h)
    have hkw' : Keyword.ofText? name = none := by
      refine Option.eq_none_iff_forall_ne_some.2 fun k h => hkw k ?_
      have htext : k.text = name := by simpa using List.find?_some h
      exact htext.symm
    rw [ofLexeme_word hword, Token.ofWord, hty', hkw']
  | int hnumber hpoint =>
    rw [ofLexeme_number hnumber, Token.ofNumber, if_neg hpoint, Digits.word_eq_ofNat_value]
  | double hnumber hpoint hp hx =>
    obtain ⟨q, hq, hvalue⟩ := hnumber.numeral hpoint
    obtain rfl := hp.unique hq
    rw [ofLexeme_number hnumber, Token.ofNumber, if_pos hpoint, ← hx.ofNumeral_eq,
      hvalue.ofNumeral_eq]
  | char hletter hfigure =>
    rw [Token.ofLexeme, if_neg (mt isAlpha_iff.1 hletter), if_neg (mt isDigit_iff.1 hfigure)]

theorem Word.spelled {name : String} (h : Word name.toList) :
    Spelled name.toList (Token.ofLexeme name.toList) := by
  rw [ofLexeme_word h, Token.ofWord]
  cases hty : Ty.ofKeyword? name with
  | some ty =>
    rw [Ty.ofKeyword?_eq_some_iff.1 hty]
    exact .type ty
  | none =>
    cases hkw : Keyword.ofText? name with
    | some k =>
      have htext : k.text = name := by simpa using List.find?_some hkw
      rw [← htext]
      exact .keyword k
    | none =>
      refine .ident h ?_ ?_
      · rintro ty rfl
        rw [Ty.ofKeyword?_keyword] at hty
        cases hty
      · rintro k rfl
        rw [Keyword.ofText?_text] at hkw
        cases hkw

theorem Number.spelled {l : List Char} (h : Number l) : Spelled l (Token.ofLexeme l) := by
  rw [ofLexeme_number h, Token.ofNumber]
  split
  · next hpoint =>
    obtain ⟨p, hp, hvalue⟩ := h.numeral hpoint
    exact .double h hpoint hp hvalue
  · next hpoint =>
    rw [Digits.word_eq_ofNat_value]
    exact .int h hpoint

theorem First.spelled_iff {text l : List Char} (h : First text l) (t : Token) :
    Spelled l t ↔ t = Token.ofLexeme l := by
  refine ⟨Spelled.eq_ofLexeme, ?_⟩
  rintro rfl
  cases h with
  | word h =>
    have hword := h.holds
    rw [← String.toList_ofList (l := l)] at hword ⊢
    exact hword.spelled
  | number _ h => exact h.holds.spelled
  | @char c hword hnumber _ hc =>
    have hletter : ¬Letter c := fun h => hword [c] (.mk h (by simp)) hc
    have hfigure : ¬Figure c := fun h => hnumber [c] (.mk h (by simp)) hc
    rw [Token.ofLexeme, if_neg (mt isAlpha_iff.1 hletter), if_neg (mt isDigit_iff.1 hfigure)]
    exact .char hletter hfigure

/-- The scanner cuts off the lexeme that the rule gives. -/
theorem First.placed {w l rest : List Char} (hw : ∀ c ∈ w, c ∈ blanks) (h : First (l ++ rest) l)
    (n : Nat) :
    placed n (w ++ (l ++ rest)) = ⟨Token.ofLexeme l, n + byteSize w⟩ ::
      ImpFront.placed (n + byteSize (w ++ l)) rest := by
  obtain ⟨c, cs, rfl, hc⟩ := h.head
  have hblank : isBlank c = false := by simpa using mt isBlank_iff.1 hc
  have hlex : lexeme (c :: (cs ++ rest)) = c :: cs := (first_lexeme hblank (cs ++ rest)).unique h
  rw [placed_blanks fun b hb => isBlank_iff.2 (hw b hb), List.cons_append,
    placed_lexeme hblank hlex, byteSize_append, Nat.add_assoc]

theorem Cut.placed {cs last : List Char} {ps : List Piece} (h : Cut cs ps last) (n : Nat) :
    (placed n cs).length = ps.length ∧ ∀ before p after, ps = before ++ p :: after →
      (ImpFront.placed n cs)[before.length]? =
        some ⟨Token.ofLexeme p.lexeme, n + byteSize (before.flatMap Piece.text ++ p.gap)⟩ := by
  induction h generalizing n with
  | last hw =>
    have hnil := placed_blanks (fun b hb => isBlank_iff.2 (hw b hb)) [] n
    rw [List.append_nil] at hnil
    rw [hnil]
    exact ⟨rfl, by simp⟩
  | @piece w l rest last ps hw hl _ ih =>
    obtain ⟨hlength, hplaces⟩ := ih (n + byteSize (w ++ l))
    rw [hl.placed hw]
    refine ⟨by rw [List.length_cons, hlength, List.length_cons], fun before p after hps => ?_⟩
    cases before with
    | nil =>
      obtain ⟨rfl, -⟩ := List.cons.inj hps
      rfl
    | cons q before =>
      obtain ⟨rfl, htail⟩ := List.cons.inj hps
      rw [List.length_cons, List.getElem?_cons_succ, hplaces before p after htail,
        List.flatMap_cons, List.append_assoc, byteSize_append (Piece.text _), Nat.add_assoc]
      rfl

theorem Cut.first_of_mem {cs last : List Char} {ps : List Piece} {p : Piece} (h : Cut cs ps last)
    (hp : p ∈ ps) :
    ∃ text, First text p.lexeme := by
  induction h with
  | last _ => cases hp
  | @piece w l rest last ps _ hl _ ih =>
    rcases List.mem_cons.1 hp with rfl | hp
    · exact ⟨l ++ rest, hl⟩
    · exact ih hp

end Lexical

namespace Scanner

/-- Where a scanner is after some calls. -/
def after (s : Scanner) (k : Nat) : Scanner := (fun s => s.next.2)^[k] s

/-- The number of bytes up to the end. -/
def stop (s : Scanner) : Nat := s.offset + byteSize s.rest

theorem stop_next (s : Scanner) : s.next.2.stop = s.stop := by
  have hparts := congrArg byteSize (lexeme_append_drop (s.rest.dropWhile isBlank))
  have hrest := congrArg byteSize (List.takeWhile_append_dropWhile (p := isBlank) (l := s.rest))
  rw [byteSize_append] at hparts hrest
  simp only [stop, next]
  omega

/-- Behind the last lexeme a call gives the end of input and stays there. -/
theorem next_of_blank {s : Scanner} (h : s.rest.dropWhile isBlank = []) :
    s.next.1 = .eof ∧ s.next.2.pos = s.stop ∧ s.next.2.rest = [] := by
  have hrest := List.takeWhile_append_dropWhile (p := isBlank) (l := s.rest)
  rw [h, List.append_nil] at hrest
  refine ⟨?_, ?_, ?_⟩
  · simp only [next, h]
    rfl
  · simp only [next, stop, hrest]
  · simp only [next, h]
    rfl

/-- The calls give the tokens one by one, and then the end of input again and again. -/
theorem next_after (s : Scanner) (k : Nat) :
    (⟨(s.after k).next.1, (s.after k).next.2.pos⟩ : Placed) =
      (s.tokens s.rest.length).getD k ⟨.eof, s.stop⟩ := by
  induction k generalizing s with
  | zero =>
    rw [tokens_length_rest]
    split
    · next h =>
      obtain ⟨htoken, hpos, -⟩ := next_of_blank h
      rw [List.getD_nil, ← htoken, ← hpos]
      rfl
    · rfl
  | succ k ih =>
    have hnext : s.after (k + 1) = s.next.2.after k := rfl
    rw [hnext, ih, stop_next, s.tokens_length_rest]
    split
    · next h =>
      rw [(next_of_blank h).2.2]
      rfl
    · rfl

end Scanner

/-- The scanner cuts every source as the lexical rule does. -/
theorem tokenize_longest_match (source : String) :
    ∃ ps last, Lexical.Cut source.toList ps last ∧
      (∀ ps' last', Lexical.Cut source.toList ps' last' → ps' = ps ∧ last' = last) ∧
      (tokenize source).length = ps.length + 1 ∧
      (∀ before p after, ps = before ++ p :: after → ∃ t,
        (tokenize source)[before.length]? =
            some ⟨t, (String.ofList (before.flatMap Lexical.Piece.text ++ p.gap)).utf8ByteSize⟩ ∧
          ∀ u, Lexical.Spelled p.lexeme u ↔ u = t) ∧
      (tokenize source)[ps.length]? = some ⟨.eof, source.utf8ByteSize⟩ ∧
      ∀ k, (⟨((Scanner.ofSource source).after k).next.1,
        ((Scanner.ofSource source).after k).next.2.pos⟩ : Placed) =
        (tokenize source).getD k ⟨.eof, source.utf8ByteSize⟩ := by
  obtain ⟨ps, last, hcut⟩ := Lexical.exists_cut source.toList
  obtain ⟨hlength, hplaces⟩ := hcut.placed 0
  rw [tokenize, tokens_eq_placed, byteSize_toList]
  refine ⟨ps, last, hcut, fun ps' last' h => hcut.unique h, by simp [hlength],
    fun before p after hps => ?_, ?_, fun k => ?_⟩
  · refine ⟨Token.ofLexeme p.lexeme, ?_, ?_⟩
    · rw [List.getElem?_append_left (by rw [hlength, hps]; simp), hplaces before p after hps,
        Nat.zero_add, byteSize_eq_utf8ByteSize]
    · obtain ⟨text, hfirst⟩ := hcut.first_of_mem (p := p) (by rw [hps]; simp)
      exact hfirst.spelled_iff
  · rw [List.getElem?_append_right hlength.le, hlength, Nat.sub_self]
    rfl
  · have htokens : (Scanner.ofSource source).tokens (Scanner.ofSource source).rest.length =
        placed 0 source.toList := rfl
    have hstop : (Scanner.ofSource source).stop = source.utf8ByteSize :=
      (Nat.zero_add _).trans (byteSize_toList source)
    rw [Scanner.next_after, htokens, hstop]
    rcases Nat.lt_or_ge k (placed 0 source.toList).length with hk | hk
    · rw [List.getD_append _ _ _ _ hk]
    · rw [List.getD_append_right _ _ _ _ hk, List.getD_eq_default _ _ hk]
      cases k - (placed 0 source.toList).length <;> rfl

end ImpFront
