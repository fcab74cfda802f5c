/-! Labels for new blocks. A block is asked for with a hint. The hint itself, the hint with a 1,
with a 2 and so on are tried one after the other until one is not in use. The labels tried are
distinct, so that no more of them are given up than there are labels in use. -/

namespace ImpFront

/-- The labels that are tried for a hint, in order. -/
def numbered (hint : String) : Nat → String
  | 0 => hint
  | k + 1 => hint ++ toString (k + 1)

theorem eq_of_toString_eq {m n : Nat} (h : toString m = toString n) : m = n := by
  have hdigits : Nat.toDigits 10 m = Nat.toDigits 10 n := by
    have htext := congrArg String.toList h
    rwa [Nat.toString_eq_repr, Nat.toString_eq_repr, Nat.toList_repr, Nat.toList_repr] at htext
  calc m = Nat.ofDigitChars 10 (Nat.toDigits 10 m) 0 := Nat.ofDigitChars_ten_toDigits.symm
    _ = Nat.ofDigitChars 10 (Nat.toDigits 10 n) 0 := by rw [hdigits]
    _ = n := Nat.ofDigitChars_ten_toDigits

/-- A hint may itself end in a digit: what is appended to it is not empty and names its number. -/
theorem numbered_inj {hint : String} {j k : Nat} (h : numbered hint j = numbered hint k) :
    j = k := by
  cases j with
  | zero =>
    cases k with
    | zero => rfl
    | succ k => exact absurd (String.append_eq_left_iff.1 h.symm) Nat.repr_ne_empty
  | succ j =>
    cases k with
    | zero => exact absurd (String.append_eq_left_iff.1 h) Nat.repr_ne_empty
    | succ k => exact eq_of_toString_eq ((String.append_right_inj hint).1 h)

/-- A search for a label: the labels before the one at hand are in use. -/
structure LabelSearch (used : List String) (hint : String) where
  /-- How many labels were given up. -/
  counter : Nat
  tried : ∀ k, k < counter → numbered hint k ∈ used

namespace LabelSearch

variable {used : List String} {hint : String}

def start (used : List String) (hint : String) : LabelSearch used hint :=
  ⟨0, fun _ hk => absurd hk (Nat.not_lt_zero _)⟩

/-- The label at hand. -/
def label (s : LabelSearch used hint) : String := numbered hint s.counter

theorem counter_le (s : LabelSearch used hint) : s.counter ≤ used.length := by
  have hnodup : ((List.range s.counter).map (numbered hint)).Nodup :=
    List.pairwise_map.2 (List.nodup_range.imp fun hne heq => hne (numbered_inj heq))
  have hused : (List.range s.counter).map (numbered hint) ⊆ used := by
    intro l hl
    obtain ⟨k, hk, rfl⟩ := List.mem_map.1 hl
    exact s.tried k (List.mem_range.1 hk)
  simpa using hnodup.length_le_of_subset hused

/-- Gives up the label at hand. -/
def next (s : LabelSearch used hint) (h : s.label ∈ used) : LabelSearch used hint where
  counter := s.counter + 1
  tried k hk := by
    rcases Nat.lt_succ_iff_lt_or_eq.1 hk with hk | rfl
    · exact s.tried k hk
    · exact h

/-- Goes on until the label is not in use. -/
def finish (s : LabelSearch used hint) : LabelSearch used hint :=
  if h : s.label ∈ used then (s.next h).finish else s
termination_by used.length - s.counter
decreasing_by
  have hle : s.counter + 1 ≤ used.length := (s.next h).counter_le
  show used.length - (s.counter + 1) < used.length - s.counter
  omega

theorem label_finish_not_mem (s : LabelSearch used hint) : s.finish.label ∉ used := by
  fun_induction finish s with
  | case1 s h ih => exact ih
  | case2 s h => exact h

end LabelSearch

/-- The first label that is not in use. -/
def freshLabel (used : List String) (hint : String) : String :=
  (LabelSearch.start used hint).finish.label

theorem freshLabel_not_mem (used : List String) (hint : String) : freshLabel used hint ∉ used :=
  LabelSearch.label_finish_not_mem _

theorem freshLabel_of_not_mem {used : List String} {hint : String} (h : hint ∉ used) :
    freshLabel used hint = hint := by
  rw [freshLabel, LabelSearch.finish,
    dif_neg (show (LabelSearch.start used hint).label ∉ used from h)]
  rfl

end ImpFront
