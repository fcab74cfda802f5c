/-! Runs of decimal digits and the numbers they write: as a natural number, and as a 32-bit word,
where the value wraps around. -/

namespace ImpFront

/-- A 32-bit integer. The language has no signed operation; only texts show a sign. -/
abbrev Word := BitVec 32

namespace Digits

def digit (c : Char) : Nat := c.toNat - '0'.toNat

def step (n : Nat) (c : Char) : Nat := n * 10 + digit c

def value (cs : List Char) : Nat := cs.foldl step 0

def wordStep (w : Word) (c : Char) : Word := w * 10 + BitVec.ofNat 32 (digit c)

/-- The value of a run of digits, kept to 32 bits after each digit. -/
def word (cs : List Char) : Word := cs.foldl wordStep 0

theorem wordStep_ofNat (n : Nat) (c : Char) :
    wordStep (BitVec.ofNat 32 n) c = BitVec.ofNat 32 (step n c) := by
  simp [wordStep, step, BitVec.ofNat_add, BitVec.ofNat_mul]

theorem foldl_wordStep (cs : List Char) (n : Nat) :
    cs.foldl wordStep (BitVec.ofNat 32 n) = BitVec.ofNat 32 (cs.foldl step n) := by
  induction cs generalizing n with
  | nil => rfl
  | cons c cs ih => rw [List.foldl_cons, List.foldl_cons, wordStep_ofNat, ih]

theorem word_eq_ofNat_value (cs : List Char) : word cs = BitVec.ofNat 32 (value cs) :=
  foldl_wordStep cs 0

end Digits

end ImpFront
