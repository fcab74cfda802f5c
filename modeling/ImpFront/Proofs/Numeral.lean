import Mathlib
import ImpFront.Number.Shortest

/-! A literal reads back as the double that it was printed from. The double nearest to a quotient
depends on the value of the quotient only, so it is enough that the text and the decimal behind it
have the same value, and that the decimal lies nearest to the double. -/

namespace ImpFront

theorem roundDiv_mul_right (a b : Nat) {k : Nat} (hk : 0 < k) :
    roundDiv (a * k) (b * k) = roundDiv a b := by
  have hlt : 2 * (a % b * k) < b * k ↔ 2 * (a % b) < b := by
    rw [← Nat.mul_assoc, Nat.mul_lt_mul_right hk]
  have hgt : b * k < 2 * (a % b * k) ↔ b < 2 * (a % b) := by
    rw [← Nat.mul_assoc, Nat.mul_lt_mul_right hk]
  simp only [roundDiv, Nat.mul_div_mul_right a b hk, Nat.mul_mod_mul_right, hlt, hgt]

theorem roundDiv_mul_self (a : Nat) {b : Nat} (hb : 0 < b) : roundDiv (a * b) b = a := by
  simp [roundDiv, Nat.mul_div_cancel a hb, hb]

theorem natPow_pos {b : Nat} (hb : 0 < b) (n : Nat) : 0 < Nat.pow b n := Nat.pow_pos hb

theorem natPow_ten (n : Nat) : Nat.pow 10 n = Nat.pow 2 n * Nat.pow 5 n := Nat.mul_pow 2 5 n

namespace Double

variable {x : Double}

theorem ofRatio_mul_right (a b : Nat) {k : Nat} (hk : 0 < k) :
    ofRatio (a * k) (b * k) = ofRatio a b := by
  have hnum : a * k * unitsInOne = a * unitsInOne * k := Nat.mul_right_comm ..
  have hden (n : Nat) : b * k * n = b * n * k := Nat.mul_right_comm ..
  simp only [ofRatio, hnum, hden, Nat.mul_div_mul_right _ _ hk, roundDiv_mul_right _ _ hk]

/-- Equal quotients have the same nearest double. -/
theorem ofRatio_congr {a b c d : Nat} (hb : 0 < b) (hd : 0 < d) (h : a * d = c * b) :
    ofRatio a b = ofRatio c d := by
  rw [← ofRatio_mul_right a b hd, h, Nat.mul_comm b d, ofRatio_mul_right c d hb]

theorem ofRatio_zero (den : Nat) : ofRatio 0 den = zero := by
  simp [ofRatio, roundDiv, ofMagnitude, zero]

theorem fractionSize_pos : 0 < fractionSize := natPow_pos (by decide) 52

theorem unitsInOne_pos : 0 < unitsInOne := by decide +kernel

theorem toNat_ofMagnitude {n : Nat} (hn : n < signBit) : (ofMagnitude n).bits.toNat = n :=
  UInt64.toNat_ofNat_of_lt' (hn.trans (by decide))

theorem magnitude_ofMagnitude {n : Nat} (hn : n < signBit) : (ofMagnitude n).magnitude = n := by
  simp [magnitude, toNat_ofMagnitude hn, Nat.mod_eq_of_lt hn]

theorem isNegative_ofMagnitude {n : Nat} (hn : n < signBit) :
    (ofMagnitude n).isNegative = false := by
  simp [isNegative, toNat_ofMagnitude hn, hn]

theorem ofMagnitude_magnitude (hx : x.isNegative = false) : ofMagnitude x.magnitude = x := by
  have hlt : x.bits.toNat < signBit := by simpa [isNegative] using hx
  obtain ⟨bits⟩ := x
  simp [ofMagnitude, magnitude, Nat.mod_eq_of_lt hlt]

/-- Reading numerals gives neither a NaN nor a sign. -/
theorem ofRatio_nonnegative (num den : Nat) :
    (ofRatio num den).isNaN = false ∧ (ofRatio num den).isNegative = false := by
  have hlt (n : Nat) : min n infinityBits < signBit := (Nat.min_le_right ..).trans_lt (by decide)
  refine ⟨?_, isNegative_ofMagnitude (hlt _)⟩
  simp only [ofRatio, isNaN, magnitude_ofMagnitude (hlt _), decide_eq_false_iff_not, not_lt]
  exact Nat.min_le_right ..

theorem log2_units (hx : x.exponentField ≠ 0) : x.units.log2 = 52 + x.shift := by
  have hlow : 2 ^ 52 ≤ x.significand := by
    rw [significand, if_neg hx]
    exact Nat.le_add_right ..
  have hhigh : x.significand < 2 ^ 53 := by
    have hfraction : x.fractionField < fractionSize := Nat.mod_lt _ fractionSize_pos
    have htwice : fractionSize + fractionSize = 2 ^ 53 := by decide
    rw [significand, if_neg hx]
    omega
  have hpow : 0 < 2 ^ x.shift := Nat.pow_pos (by decide)
  have hunits : x.units = x.significand * 2 ^ x.shift := rfl
  rw [hunits, Nat.log2_eq_iff (by positivity), show 52 + x.shift + 1 = 53 + x.shift by omega,
    pow_add, pow_add]
  exact ⟨Nat.mul_le_mul_right _ hlow, Nat.mul_lt_mul_of_pos_right hhigh hpow⟩

/-- The double nearest to its own value is the double itself. -/
theorem ofRatio_units (hneg : x.isNegative = false) (hfin : x.magnitude < infinityBits) :
    ofRatio x.units unitsInOne = x := by
  have hexact : ofMagnitude (min ((x.units.log2 - 52) * fractionSize
      + roundDiv x.units (Nat.pow 2 (x.units.log2 - 52))) infinityBits) = x := by
    have hfields : x.exponentField * fractionSize + x.fractionField = x.magnitude :=
      Nat.div_add_mod' ..
    by_cases hexp : x.exponentField = 0
    · -- A subnormal double is its own number of units.
      have hunits : x.units = x.magnitude := by
        simp only [units, significand, shift, hexp, if_true] at hfields ⊢
        simpa using hfields
      have hlog : x.units.log2 - 52 = 0 := by
        have hsmall : x.units < 2 ^ 52 := by
          have : x.fractionField < 2 ^ 52 := Nat.mod_lt _ fractionSize_pos
          rw [hunits, ← hfields, hexp]
          omega
        by_cases hzero : x.units = 0
        · simp [hzero]
        · have := (Nat.log2_lt hzero).2 hsmall
          omega
      have hround : roundDiv x.units 1 = x.units := by
        simpa using roundDiv_mul_self x.units Nat.one_pos
      have hone : Nat.pow 2 0 = 1 := rfl
      rw [hlog, hone, hround, Nat.zero_mul, Nat.zero_add, hunits, min_eq_left hfin.le,
        ofMagnitude_magnitude hneg]
    · have hshift : x.units.log2 - 52 = x.shift := by
        rw [log2_units hexp]
        omega
      have hround : roundDiv x.units (Nat.pow 2 x.shift) = fractionSize + x.fractionField := by
        rw [units, roundDiv_mul_self _ (natPow_pos (by decide) _), significand, if_neg hexp]
      have hbits : x.shift * fractionSize + (fractionSize + x.fractionField) = x.magnitude := by
        obtain ⟨k, hk⟩ := Nat.exists_eq_succ_of_ne_zero hexp
        rw [← hfields, shift, hk, Nat.succ_sub_one, Nat.succ_mul, Nat.add_assoc]
      rw [hshift, hround, hbits, min_eq_left hfin.le, ofMagnitude_magnitude hneg]
  have hden (n : Nat) : unitsInOne * n = n * unitsInOne := Nat.mul_comm ..
  simpa only [ofRatio, hden, Nat.mul_div_cancel _ unitsInOne_pos,
    roundDiv_mul_right _ _ unitsInOne_pos] using hexact

end Double

namespace Decimal

theorem toDouble_exactDecimal {x : Double} (hneg : x.isNegative = false)
    (hfin : x.magnitude < Double.infinityBits) :
    x.exactDecimal.toDouble = x := by
  have hfives (n : Nat) (hn : Nat.pow 2 n = Double.unitsInOne) :
      toDouble ⟨x.units * Nat.pow 5 n, -n⟩ = x := by
    have hpos : (-n : Int).toNat = 0 := by omega
    have hexp : (- -n : Int).toNat = n := by omega
    have hone : Nat.pow 10 0 = 1 := rfl
    simp only [toDouble, hpos, hexp, hone, Nat.mul_one]
    rw [natPow_ten, hn, Double.ofRatio_mul_right _ _ (natPow_pos (by decide) n),
      Double.ofRatio_units hneg hfin]
  exact hfives 1074 (by decide +kernel)

/-- Zeros can move between the digits and the exponent. -/
theorem toDouble_mul_pow (n k : Nat) (e : Int) :
    toDouble ⟨n * 10 ^ k, e⟩ = toDouble ⟨n, e + k⟩ := by
  have hpow (m : Nat) : 0 < Nat.pow 10 m := Nat.pow_pos (by decide)
  refine Double.ofRatio_congr (hpow _) (hpow _) ?_
  have hexp : k + e.toNat + (-(e + k)).toNat = (e + k).toNat + (-e).toNat := by omega
  calc n * 10 ^ k * 10 ^ e.toNat * 10 ^ (-(e + k)).toNat
      = n * 10 ^ (k + e.toNat + (-(e + k)).toNat) := by ring
    _ = n * 10 ^ ((e + k).toNat + (-e).toNat) := by rw [hexp]
    _ = n * 10 ^ (e + k).toNat * 10 ^ (-e).toNat := by ring

end Decimal

namespace Double

variable {x : Double} {d : Decimal}

theorem toDouble_of_decimalAt {e : Int} (h : x.decimalAt e = some d) : d.toDouble = x := by
  unfold decimalAt at h
  extract_lets num den down up at h
  -- What the two candidates are plays no part.
  clear_value num den down up
  split at h
  · next hdown =>
    split at h
    · next hup =>
      cases h
      exact hup.1
    · cases h
      exact hdown
  · split at h
    · next hup =>
      cases h
      exact hup
    · cases h

theorem toDouble_shortest (hneg : x.isNegative = false) (hfin : x.magnitude < infinityBits) :
    x.shortest.toDouble = x := by
  unfold shortest
  cases h : (List.range maxDigits).findSome? fun n : Nat => x.decimalAt (x.pointPlace - n - 1) with
  | none => exact Decimal.toDouble_exactDecimal hneg hfin
  | some d =>
    obtain ⟨n, -, hn⟩ := List.exists_of_findSome?_eq_some h
    exact toDouble_of_decimalAt hn

end Double

namespace Digits

theorem foldl_step (cs : List Char) (n : Nat) :
    cs.foldl step n = n * 10 ^ cs.length + value cs := by
  induction cs generalizing n with
  | nil => simp [value]
  | cons c cs ih =>
    have hvalue : value (c :: cs) = (step 0 c) * 10 ^ cs.length + value cs := ih _
    rw [List.foldl_cons, ih, hvalue, List.length_cons, pow_succ]
    simp only [step]
    ring

theorem value_append (cs ds : List Char) :
    value (cs ++ ds) = value cs * 10 ^ ds.length + value ds := by
  rw [value, List.foldl_append, foldl_step]
  rfl

theorem value_zeros (n : Nat) : value (DigitText.zeros n) = 0 := by
  induction n with
  | zero => rfl
  | succ n ih => exact ih

theorem value_toDigits (n : Nat) : value (Nat.toDigits 10 n) = n := by
  have hstep : step = fun m c => 10 * m + (c.toNat - '0'.toNat) := by
    funext m c
    simp only [step, digit, Nat.mul_comm]
  rw [value, hstep]
  exact Nat.ofDigitChars_toDigits (by decide) (by decide)

theorem word_toDigits (w : Word) : word (Nat.toDigits 10 w.toNat) = w := by
  rw [word_eq_ofNat_value, value_toDigits, BitVec.ofNat_toNat, BitVec.setWidth_eq]

end Digits

theorem dropTrailingZeros_append (cs : List Char) :
    ∃ n, cs = dropTrailingZeros cs ++ DigitText.zeros n := by
  have hzeros :
      cs.reverse.takeWhile (· = '0') = DigitText.zeros (cs.reverse.takeWhile (· = '0')).length := by
    refine List.eq_replicate_iff.2 ⟨rfl, fun c hc => ?_⟩
    simpa using List.mem_takeWhile_imp hc
  refine ⟨(cs.reverse.takeWhile (· = '0')).length, ?_⟩
  have hsplit :=
    congrArg List.reverse (List.takeWhile_append_dropWhile (p := (· = '0')) (l := cs.reverse))
  rw [List.reverse_append, List.reverse_reverse, hzeros] at hsplit
  simpa [dropTrailingZeros, DigitText.zeros] using hsplit.symm

namespace DigitText

/-- The number that a digit text stands for. -/
def decimal (t : DigitText) : Decimal := ⟨Digits.value t.digits, t.point - t.digits.length⟩

/-- Digits that can be read back: there is one, and all are decimal. -/
structure Readable (t : DigitText) : Prop where
  nonempty : t.digits ≠ []
  digits : ∀ c ∈ t.digits, c.isDigit = true

end DigitText

theorem Decimal.toDouble_digitText (d : Decimal) : d.digitText.decimal.toDouble = d.toDouble := by
  obtain ⟨n, e⟩ := d
  obtain ⟨k, hk⟩ := dropTrailingZeros_append (Nat.toDigits 10 n)
  have hvalue : n = Digits.value (dropTrailingZeros (Nat.toDigits 10 n)) * 10 ^ k := by
    have hdigits := congrArg Digits.value hk
    rw [Digits.value_toDigits, Digits.value_append, Digits.value_zeros] at hdigits
    simpa [DigitText.zeros] using hdigits
  have hlength :
      (Nat.toDigits 10 n).length = (dropTrailingZeros (Nat.toDigits 10 n)).length + k := by
    have := congrArg List.length hk
    simpa [DigitText.zeros] using this
  calc toDouble ⟨Digits.value (dropTrailingZeros (Nat.toDigits 10 n)),
          (Nat.toDigits 10 n).length + e - (dropTrailingZeros (Nat.toDigits 10 n)).length⟩
      = toDouble ⟨Digits.value (dropTrailingZeros (Nat.toDigits 10 n)), e + k⟩ := by
        congr 2
        omega
    _ = toDouble ⟨n, e⟩ := by rw [← toDouble_mul_pow, ← hvalue]

theorem Decimal.readable_digitText {d : Decimal} (hd : d.digits ≠ 0) : d.digitText.Readable := by
  obtain ⟨k, hk⟩ := dropTrailingZeros_append (Nat.toDigits 10 d.digits)
  constructor
  · intro hnil
    have hzero := Digits.value_toDigits d.digits
    rw [hk, show dropTrailingZeros (Nat.toDigits 10 d.digits) = [] from hnil, List.nil_append,
      Digits.value_zeros] at hzero
    exact hd hzero.symm
  · intro c hc
    refine Nat.isDigit_of_mem_toDigits (b := 10) (n := d.digits) (by decide) (by decide) ?_
    rw [hk]
    exact List.mem_append_left _ hc

/-- The text is made of digits with one point among them, and reads as `x`. -/
inductive Double.Numeral (x : Double) : List Char → Prop
  | mk (whole fraction : List Char) : whole ≠ [] → (∀ c ∈ whole ++ fraction, c.isDigit = true) →
    Decimal.toDouble ⟨Digits.value (whole ++ fraction), -fraction.length⟩ = x →
      Double.Numeral x (whole ++ '.' :: fraction)

theorem ne_point_of_isDigit {c : Char} (h : c.isDigit = true) : c ≠ '.' := by
  rintro rfl
  exact absurd h (by decide)

namespace DigitText

variable {t : DigitText}

theorem point_notMem {cs : List Char} (h : ∀ c ∈ cs, c.isDigit = true) : '.' ∉ cs :=
  fun hmem => ne_point_of_isDigit (h _ hmem) rfl

theorem isDigit_of_mem_zeros {n : Nat} {c : Char} (h : c ∈ zeros n) : c.isDigit = true := by
  rw [List.eq_of_mem_replicate h]
  decide

/-- The point stands before all digits. -/
theorem Readable.numeral_below_one (h : t.Readable) (hpoint : t.point ≤ 0) :
    t.decimal.toDouble.Numeral ('0' :: '.' :: (zeros (-t.point).toNat ++ t.digits)) := by
  refine .mk ['0'] (zeros (-t.point).toNat ++ t.digits) (by simp) ?_ ?_
  · simp only [List.cons_append, List.nil_append, List.mem_cons, List.mem_append]
    rintro c (rfl | hc | hc)
    · decide
    · exact isDigit_of_mem_zeros hc
    · exact h.digits c hc
  · have hvalue :
        Digits.value (['0'] ++ (zeros (-t.point).toNat ++ t.digits)) = Digits.value t.digits := by
      rw [Digits.value_append, Digits.value_append, Digits.value_zeros]
      simp [Digits.value, Digits.step, Digits.digit]
    rw [hvalue, decimal]
    congr 2
    simp only [List.length_append, zeros, List.length_replicate]
    omega

/-- The point stands behind all digits. -/
theorem Readable.numeral_whole (h : t.Readable) (hle : t.digits.length ≤ t.point.toNat) :
    t.decimal.toDouble.Numeral
      (withPoint (t.digits ++ zeros (t.point.toNat - t.digits.length))) := by
  have hlength : 0 < t.digits.length := List.length_pos_iff.2 h.nonempty
  have hdigits : ∀ c ∈ t.digits ++ zeros (t.point.toNat - t.digits.length), c.isDigit = true := by
    intro c hc
    exact (List.mem_append.1 hc).elim (h.digits c) isDigit_of_mem_zeros
  rw [withPoint, if_neg (point_notMem hdigits)]
  refine .mk _ ['0'] (by simp [h.nonempty]) ?_ ?_
  · intro c hc
    refine (List.mem_append.1 hc).elim (hdigits c) fun hzero => ?_
    rw [List.mem_singleton.1 hzero]
    decide
  · have hvalue : Digits.value (t.digits ++ zeros (t.point.toNat - t.digits.length) ++ ['0'])
        = Digits.value t.digits * 10 ^ (t.point.toNat - t.digits.length + 1) := by
      rw [Digits.value_append, Digits.value_append, Digits.value_zeros]
      simp [Digits.value, Digits.step, Digits.digit, zeros, pow_succ, Nat.mul_assoc]
    rw [hvalue, Decimal.toDouble_mul_pow, decimal]
    congr 2
    simp only [List.length_singleton]
    omega

/-- The point stands among the digits. -/
theorem Readable.numeral_mixed (h : t.Readable) (hpoint : 0 < t.point)
    (hlt : t.point.toNat < t.digits.length) :
    t.decimal.toDouble.Numeral
      (t.digits.take t.point.toNat ++ '.' :: t.digits.drop t.point.toNat) := by
  refine .mk (t.digits.take t.point.toNat) (t.digits.drop t.point.toNat) ?_ ?_ ?_
  · rw [Ne, List.take_eq_nil_iff]
    rintro (hzero | hnil)
    · omega
    · exact h.nonempty hnil
  · rw [List.take_append_drop]
    exact h.digits
  · rw [List.take_append_drop, decimal]
    congr 2
    simp only [List.length_drop]
    omega

theorem Readable.numeral (h : t.Readable) :
    t.decimal.toDouble.Numeral (withPoint t.positional) := by
  unfold positional
  split
  · next hpoint =>
    rw [withPoint, if_pos (by simp)]
    exact h.numeral_below_one hpoint
  · next hpoint =>
    extract_lets whole
    split
    · next hle => exact h.numeral_whole hle
    · next hlt =>
      rw [withPoint, if_pos (by simp)]
      exact h.numeral_mixed (Int.not_le.1 hpoint) (Nat.not_le.1 hlt)

end DigitText

namespace Double

variable {x : Double}

theorem eq_zero_of_isZero (hneg : x.isNegative = false) (hzero : x.isZero = true) : x = zero := by
  have hmag : x.magnitude = 0 := by simpa [isZero] using hzero
  rw [← ofMagnitude_magnitude hneg, hmag]
  rfl

theorem numeral_digitText (hneg : x.isNegative = false) (hfin : x.magnitude < infinityBits) :
    x.Numeral (withPoint x.digitText.positional) := by
  by_cases hzero : x.isZero = true
  · rw [digitText, if_pos hzero]
    have hread : Decimal.toDouble (DigitText.decimal ⟨['0'], 1⟩) = x := by
      rw [eq_zero_of_isZero hneg hzero]
      decide +kernel
    have ht : DigitText.Readable ⟨['0'], 1⟩ := ⟨by simp, by simp⟩
    exact hread ▸ ht.numeral
  · have habs : x.abs = x := ofMagnitude_magnitude hneg
    rw [digitText, if_neg hzero, habs]
    have hread := toDouble_shortest hneg hfin
    have hdigits : x.shortest.digits ≠ 0 := by
      intro hnone
      rw [Decimal.toDouble, hnone, Nat.zero_mul, ofRatio_zero] at hread
      exact hzero (by rw [← hread]; decide)
    have hnumeral := (Decimal.readable_digitText hdigits).numeral
    rwa [Decimal.toDouble_digitText, hread] at hnumeral

/-- The literal of a double that is neither negative nor a NaN reads back as that double. -/
theorem numeral_literal (hneg : x.isNegative = false) (hnan : x.isNaN = false) :
    x.Numeral x.literal.toList := by
  unfold literal
  rw [if_neg (by simp [hnan])]
  split
  · next hinf =>
    have hmag : x.magnitude = infinityBits := by simpa [isInfinite] using hinf
    have hx : x = ofMagnitude infinityBits := by rw [← hmag, ofMagnitude_magnitude hneg]
    rw [String.toList_ofList, hx]
    refine .mk ('1' :: DigitText.zeros 309) ['0'] (by simp) ?_ (by decide +kernel)
    simp only [List.cons_append, List.mem_cons, List.mem_append, List.mem_nil_iff, or_false]
    rintro c (rfl | hc | rfl)
    · decide
    · exact DigitText.isDigit_of_mem_zeros hc
    · decide
  · next hinf =>
    have hfin : x.magnitude < infinityBits := by
      simp only [isNaN, isInfinite, decide_eq_false_iff_not, decide_eq_true_eq] at hnan hinf
      omega
    rw [signed, if_neg (by simp [hneg]), String.toList_ofList]
    exact numeral_digitText hneg hfin

namespace Numeral

variable {cs : List Char}

theorem ofNumeral_eq (h : x.Numeral cs) : ofNumeral cs = x := by
  obtain ⟨whole, fraction, -, hdigits, hx⟩ := h
  have hwhole : ∀ c ∈ whole, decide (c ≠ '.') = true := fun c hc =>
    decide_eq_true (ne_point_of_isDigit (hdigits c (List.mem_append_left _ hc)))
  have hfraction : ∀ c ∈ fraction, decide (c ≠ '.') = true := fun c hc =>
    decide_eq_true (ne_point_of_isDigit (hdigits c (List.mem_append_right _ hc)))
  have htake : (whole ++ '.' :: fraction).takeWhile (· ≠ '.') = whole := by
    rw [List.takeWhile_append_of_pos hwhole]
    simp
  have hdrop : (whole ++ '.' :: fraction).dropWhile (· ≠ '.') = '.' :: fraction := by
    rw [List.dropWhile_append_of_pos hwhole]
    simp
  rw [ofNumeral, htake, hdrop, List.drop_one, List.tail_cons,
    List.takeWhile_eq_self_iff.2 hfraction]
  exact hx

end Numeral

end Double

end ImpFront
