import ImpFront.Token
import ImpFront.Text.Location

/-! From text to tokens. After blanks, a lexeme is the longest word, else the longest number, else
one character. `tokens` gives all tokens of a source with the places where they start; the end of
the input is not among them. -/

namespace ImpFront

def isBlank (c : Char) : Bool :=
  c = ' ' || c = '\t' || c = '\n' || c = '\x0b' || c = '\x0c' || c = '\r'

def isNumberPart (c : Char) : Bool := c.isDigit || c = '.'

/-- The lexeme at the head of a text. It is empty only at the end. -/
def lexeme : List Char → List Char
  | [] => []
  | c :: cs =>
    if c.isAlpha then c :: cs.takeWhile Char.isAlphanum
    else if c.isDigit then c :: cs.takeWhile isNumberPart
    else [c]

namespace Token

def ofWord (word : String) : Token :=
  match Ty.ofKeyword? word with
  | some ty => .type ty
  | none =>
    match Keyword.ofText? word with
    | some k => .keyword k
    | none => .ident word

/-- A number with a point is a double, one without is an integer. -/
def ofNumber (cs : List Char) : Token :=
  if '.' ∈ cs then .double (Double.ofNumeral cs) else .int (Digits.word cs)

/-- The token that a lexeme spells. -/
def ofLexeme : List Char → Token
  | [] => .eof
  | c :: cs =>
    if c.isAlpha then ofWord (String.ofList (c :: cs))
    else if c.isDigit then ofNumber (c :: cs)
    else .char c

end Token

/-- A token and the byte offset at which it starts. -/
structure Placed where
  token : Token
  pos : Nat
  deriving DecidableEq, Repr

/-- A place in the text between two tokens. -/
structure Scanner where
  rest : List Char
  /-- Bytes before `rest`. -/
  offset : Nat
  /-- Where the last token starts. -/
  pos : Nat
  /-- The last type keyword. -/
  lastType : Option Ty

namespace Scanner

def ofSource (source : String) : Scanner := ⟨source.toList, 0, 0, none⟩

/-- The next token. At the end it is `eof`, however often one asks. -/
def next (s : Scanner) : Token × Scanner :=
  let text := s.rest.dropWhile isBlank
  let word := lexeme text
  let token := Token.ofLexeme word
  let pos := s.offset + byteSize (s.rest.takeWhile isBlank)
  (token, ⟨text.drop word.length, pos + byteSize word, pos, token.type?.or s.lastType⟩)

/-- The tokens up to the end; `n` bounds their number. -/
def tokens : Nat → Scanner → List Placed
  | 0, _ => []
  | n + 1, s =>
    let (token, s') := s.next
    if token = .eof then [] else ⟨token, s'.pos⟩ :: s'.tokens n

end Scanner

/-- The tokens of a source. Each takes at least one character. -/
def tokens (source : String) : List Placed := (Scanner.ofSource source).tokens source.length

/-- The tokens of a source, followed by the end of input. -/
def tokenize (source : String) : List Placed := tokens source ++ [⟨.eof, byteSize source.toList⟩]

theorem length_lexeme_le (cs : List Char) : (lexeme cs).length ≤ cs.length := by
  cases cs with
  | nil => simp [lexeme]
  | cons c cs =>
    have h1 := (List.takeWhile_prefix (l := cs) Char.isAlphanum).length_le
    have h2 := (List.takeWhile_prefix (l := cs) isNumberPart).length_le
    simp only [lexeme]
    split
    · simpa using h1
    · split
      · simpa using h2
      · simp

theorem lexeme_eq_nil_iff {cs : List Char} : lexeme cs = [] ↔ cs = [] := by
  cases cs with
  | nil => simp [lexeme]
  | cons c cs =>
    simp only [lexeme, reduceCtorEq, iff_false]
    split
    · simp
    · split <;> simp

theorem Token.ofWord_ne_eof (word : String) : Token.ofWord word ≠ .eof := by
  unfold Token.ofWord
  split
  · simp
  · split <;> simp

theorem Token.ofNumber_ne_eof (cs : List Char) : Token.ofNumber cs ≠ .eof := by
  unfold Token.ofNumber
  split <;> simp

theorem Token.ofLexeme_eq_eof_iff {cs : List Char} : Token.ofLexeme cs = .eof ↔ cs = [] := by
  cases cs with
  | nil => simp [Token.ofLexeme]
  | cons c cs =>
    simp only [Token.ofLexeme, reduceCtorEq, iff_false]
    split
    · exact Token.ofWord_ne_eof _
    · split
      · exact Token.ofNumber_ne_eof _
      · simp

namespace Scanner

/-- Every token but the end takes at least one character. -/
theorem length_rest_next_lt (s : Scanner) (h : s.next.1 ≠ .eof) :
    s.next.2.rest.length < s.rest.length := by
  have hne : lexeme (s.rest.dropWhile isBlank) ≠ [] := fun hn => h (Token.ofLexeme_eq_eof_iff.2 hn)
  have hpos := List.length_pos_iff.2 hne
  have hle := length_lexeme_le (s.rest.dropWhile isBlank)
  have hdrop := (List.dropWhile_suffix (l := s.rest) isBlank).length_le
  simp only [next, List.length_drop]
  omega

theorem length_tokens_le (n : Nat) (s : Scanner) : (s.tokens n).length ≤ n := by
  induction n generalizing s with
  | zero => simp [tokens]
  | succ n ih =>
    simp only [tokens]
    split
    · simp
    · simpa using ih s.next.2

/-- The bound plays no part once it reaches the number of characters. -/
theorem tokens_eq_of_le (m n : Nat) (s : Scanner) (hm : s.rest.length ≤ m)
    (hn : s.rest.length ≤ n) :
    s.tokens m = s.tokens n := by
  induction m generalizing n s with
  | zero =>
    have hs : s.next.1 = .eof := by
      by_cases h : s.next.1 = .eof
      · exact h
      · have := length_rest_next_lt s h
        omega
    cases n with
    | zero => rfl
    | succ n => simp [tokens, hs]
  | succ m ih =>
    by_cases hs : s.next.1 = .eof
    · cases n <;> simp [tokens, hs]
    · have hlt := length_rest_next_lt s hs
      obtain ⟨n, rfl⟩ : ∃ k, n = k + 1 := ⟨n - 1, by omega⟩
      simp only [tokens, hs, if_false]
      rw [ih n s.next.2 (by omega) (by omega)]

end Scanner

theorem length_tokens_le (source : String) : (tokens source).length ≤ source.length :=
  Scanner.length_tokens_le _ _

end ImpFront
