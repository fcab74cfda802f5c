import Mathlib
import ImpFront.Proofs.Seam

/-! Integer literals. A run of digits has a decimal value, however long it is, and its word is what
remains of that value modulo 2^32. The word is the same whether digits are added to it as signed or
as unsigned numbers. A literal is printed as the decimal form of its bits, which is such a run, and
so it reads back as the same word on either side of the sign. -/

namespace ImpFront

namespace Digits

/-- One digit more on a signed number of 32 bits: first the product wraps around, then the sum. -/
def signedStep (n : ℤ) (c : Char) : ℤ := ((n * 10).bmod (2 ^ 32) + digit c).bmod (2 ^ 32)

theorem value_eq_ofDigits (cs : List Char) : value cs = Nat.ofDigits 10 (cs.reverse.map digit) := by
  induction cs using List.reverseRecOn with
  | nil => rfl
  | append_singleton cs c ih =>
    have hlast : value (cs ++ [c]) = step (value cs) c := List.foldl_concat step 0 c cs
    rw [hlast, List.reverse_append, List.reverse_singleton, List.singleton_append, List.map_cons,
      Nat.ofDigits_cons, ← ih, step]
    ring

theorem toNat_word (cs : List Char) :
    (word cs).toNat = Nat.ofDigits 10 (cs.reverse.map digit) % 2 ^ 32 := by
  rw [word_eq_ofNat_value, BitVec.toNat_ofNat, value_eq_ofDigits]

theorem digit_le {c : Char} (h : c.isDigit = true) : digit c ≤ 9 := by
  have hle : c.toNat ≤ 57 := (Char.isDigit_iff_toNat.1 h).2
  have hzero : '0'.toNat = 48 := rfl
  rw [digit, hzero]
  omega

theorem toInt_wordStep {c : Char} (h : c.isDigit = true) (w : Word) :
    (wordStep w c).toInt = signedStep w.toInt c := by
  have hdigit : (BitVec.ofNat 32 (digit c)).toInt = digit c := by
    have hle := digit_le h
    rw [BitVec.toInt_ofNat']
    refine Int.bmod_eq_of_le ?_ ?_ <;> omega
  have hten : (10 : Word).toInt = 10 := rfl
  rw [wordStep, BitVec.toInt_add, BitVec.toInt_mul, hdigit, hten, signedStep]

/-- Digit by digit the signed number is that of the word. -/
theorem toInt_word {cs : List Char} (h : ∀ c ∈ cs, c.isDigit = true) :
    (word cs).toInt = cs.foldl signedStep 0 := by
  induction cs using List.reverseRecOn with
  | nil => rfl
  | append_singleton cs c ih =>
    have hcs : (word cs).toInt = cs.foldl signedStep 0 :=
      ih fun d hd => h d (List.mem_append_left _ hd)
    have hlast : word (cs ++ [c]) = wordStep (word cs) c := List.foldl_concat wordStep 0 c cs
    rw [hlast, toInt_wordStep (h c (by simp)), hcs, List.foldl_concat]

end Digits

theorem tokens_digits {cs : List Char} (hne : cs ≠ []) (h : ∀ c ∈ cs, c.isDigit = true) :
    tokens (String.ofList cs) = [⟨.int (Digits.word cs), 0⟩] := by
  obtain ⟨c, w, rfl⟩ := List.exists_cons_of_ne_nil hne
  have hc : c.isDigit = true := h c List.mem_cons_self
  have hlex : lexeme (c :: w ++ []) = c :: w :=
    lexeme_number hc (fun d hd => isNumberPart_of_isDigit (h d (List.mem_cons_of_mem c hd))) rfl
  have hplaced := placed_lexeme (isBlank_of_isDigit hc) hlex 0
  rw [List.append_nil, Token.ofLexeme_of_isDigit hc, Token.ofNumber_digits h] at hplaced
  rw [tokens_eq_placed, String.toList_ofList, hplaced]
  rfl

/-- A run of digits, leading zeros or not, is one token, and its word is the decimal value modulo
2^32. A literal is printed as the decimal form of its bits, and that text is one token, with the
same word. -/
theorem integer_literals_modular :
    (∀ cs : List Char, cs ≠ [] → (∀ c ∈ cs, c.isDigit = true) →
      (Digits.word cs).toNat = Nat.ofDigits 10 (cs.reverse.map Digits.digit) % 2 ^ 32 ∧
      (Digits.word cs).toInt = cs.foldl Digits.signedStep 0 ∧
      tokens (String.ofList cs) = [⟨.int (Digits.word cs), 0⟩]) ∧
    ∀ (pos : Nat) (w : Word), (Expr.int pos w).print.toList = Nat.toDigits 10 w.toNat ∧
      tokens (Expr.int pos w).print = [⟨.int w, 0⟩] := by
  refine ⟨fun cs hne h => ⟨Digits.toNat_word cs, Digits.toInt_word h, tokens_digits hne h⟩,
    fun pos w => ?_⟩
  have htext : (Expr.int pos w).print.toList = Nat.toDigits 10 w.toNat := Nat.toList_repr
  have hdigits : ∀ c ∈ Nat.toDigits 10 w.toNat, c.isDigit = true :=
    fun c hc => Nat.isDigit_of_mem_toDigits (by decide) (by decide) hc
  refine ⟨htext, ?_⟩
  rw [← String.ofList_toList (s := (Expr.int pos w).print), htext,
    tokens_digits Nat.toDigits_ne_nil hdigits, Digits.word_toDigits]

/-- Two leading zeros, a value above 2^32, and a word that is negative as a signed number. -/
theorem integer_literals_modular_negative :
    (Digits.word "0042949672952".toList).toNat = 4294967288 ∧
    "0042949672952".toList.foldl Digits.signedStep 0 = -8 ∧
      tokens "0042949672952" = [⟨.int (-8), 0⟩] ∧
      tokens (Expr.int 0 (-8)).print = [⟨.int (-8), 0⟩] := by
  obtain ⟨hword, hsigned, htokens⟩ :=
    integer_literals_modular.1 "0042949672952".toList (by decide) (by simp)
  have hbits : (Digits.word "0042949672952".toList) = -8 := by
    refine BitVec.eq_of_toNat_eq (hword.trans ?_)
    decide
  rw [hbits] at hsigned htokens
  exact ⟨by rw [hbits]; rfl, hsigned.symm, htokens, (integer_literals_modular.2 0 (-8)).2⟩

end ImpFront
