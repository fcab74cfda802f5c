import Mathlib
import ImpFront.Proofs.Chart

/-! The label of a new block is the first one that is free. The search carries a proof that what it
has given up is in use; the plain loop over a counter and a label carries nothing, and nothing in it
counts down. Still both take the same turns, so the loop ends, and it goes round at most once for
each block. -/

namespace ImpFront

variable {used : List String} {hint : String}

/-- The loop over a counter and a label. While the label is in use the counter goes up by one, and
the label becomes the hint followed by the counter. From the counter and the label given first, the
loop ends after `n` rounds with the label `last`. -/
inductive LabelLoop (used : List String) (hint : String) : Nat → String → Nat → String → Prop
  | done {counter : Nat} {label : String} : label ∉ used → LabelLoop used hint counter label 0 label
  | round {counter n : Nat} {label last : String} : label ∈ used →
    LabelLoop used hint (counter + 1) (hint ++ toString (counter + 1)) n last →
      LabelLoop used hint counter label (n + 1) last

theorem LabelLoop.unique {counter n n' : Nat} {label last last' : String}
    (h : LabelLoop used hint counter label n last)
    (h' : LabelLoop used hint counter label n' last') : n' = n ∧ last' = last := by
  induction h generalizing n' with
  | done hfree =>
    cases h' with
    | done => exact ⟨rfl, rfl⟩
    | round hused _ => exact absurd hused hfree
  | round hused _ ih =>
    cases h' with
    | done hfree => exact absurd hused hfree
    | round _ h' =>
      obtain ⟨rfl, rfl⟩ := ih h'
      exact ⟨rfl, rfl⟩

namespace LabelSearch

/-- In each round the loop gives up one label. -/
theorem loop (s : LabelSearch used hint) :
    ∃ n, s.finish.counter = s.counter + n ∧
    LabelLoop used hint s.counter s.label n s.finish.label := by
  fun_induction finish s with
  | case1 s h ih =>
    obtain ⟨n, hcounter, hloop⟩ := ih
    have hnext : (s.next h).counter = s.counter + 1 := rfl
    exact ⟨n + 1, by omega, .round h hloop⟩
  | case2 s h => exact ⟨0, rfl, .done h⟩

theorem loop_start (used : List String) (hint : String) :
    LabelLoop used hint 0 hint (start used hint).finish.counter (freshLabel used hint) := by
  obtain ⟨n, hcounter, hloop⟩ := (start used hint).loop
  have hn : (start used hint).finish.counter = n := hcounter.trans (Nat.zero_add n)
  rw [hn]
  exact hloop

theorem isLeast_counter_finish (s : LabelSearch used hint) :
    IsLeast {k | numbered hint k ∉ used} s.finish.counter := by
  refine ⟨s.label_finish_not_mem, fun k hfree => ?_⟩
  by_contra hlt
  exact hfree (s.finish.tried k (Nat.lt_of_not_le hlt))

theorem counter_finish_of_not_mem (h : hint ∉ used) : (start used hint).finish.counter = 0 :=
  Nat.le_zero.1 ((start used hint).isLeast_counter_finish.2 h)

/-- If the hint is in use, it is numbered from 1. -/
theorem isLeast_number (h : hint ∈ used) :
    IsLeast {k | 1 ≤ k ∧ hint ++ toString k ∉ used} (start used hint).finish.counter ∧
    freshLabel used hint = hint ++ toString (start used hint).finish.counter := by
  obtain ⟨hfree, hleast⟩ := (start used hint).isLeast_counter_finish
  have hlabel : freshLabel used hint = numbered hint (start used hint).finish.counter := rfl
  rw [hlabel]
  cases hcounter : (start used hint).finish.counter with
  | zero =>
    rw [hcounter] at hfree
    exact absurd h hfree
  | succ c =>
    rw [hcounter] at hfree hleast
    refine ⟨⟨⟨Nat.succ_pos c, hfree⟩, ?_⟩, rfl⟩
    rintro (_ | k) ⟨hk, hkfree⟩
    · omega
    · exact hleast hkfree

end LabelSearch

/-- A block is appended to a function, whatever its blocks are. The loop ends in one way only, after
at most as many rounds as there are blocks, with the label of the new block: the hint if no block
has it, else the hint with the least positive number that makes it unused. -/
theorem appendBlock_least_label {r : Recorder} {id : FunctionId} {F : Func}
    (hF : r.function? id = some F) (hint : String) :
    let used := F.blocks.map BasicBlock.label
    ∃ (rounds : Nat) (label : String) (r' : Recorder),
      Recorder.perform (.appendBlock id hint) r = .ok ⟨id, ⟨F.blocks.length⟩⟩ r' ∧
      r'.function? id = some { F with blocks := F.blocks ++ [⟨label, []⟩] } ∧
      (∀ (n : Nat) (last : String), LabelLoop used hint 0 hint n last ↔ n = rounds ∧ last = label) ∧
      rounds ≤ F.blocks.length ∧
      (hint ∉ used → rounds = 0 ∧ label = hint) ∧
      (hint ∈ used → IsLeast {k | 1 ≤ k ∧ hint ++ toString k ∉ used} rounds ∧
        label = hint ++ toString rounds) := by
  intro used
  have hloop := LabelSearch.loop_start used hint
  refine ⟨(LabelSearch.start used hint).finish.counter, freshLabel used hint,
    _, Recorder.perform_appendBlock hF hint, ?_, fun n last => ⟨hloop.unique, ?_⟩, ?_, fun h => ?_,
    LabelSearch.isLeast_number⟩
  · rw [Recorder.function?_modifyFunction, if_pos rfl, hF]
    rfl
  · rintro ⟨rfl, rfl⟩
    exact hloop
  · have hle := (LabelSearch.start used hint).finish.counter_le
    rwa [List.length_map] at hle
  · exact ⟨LabelSearch.counter_finish_of_not_mem h, freshLabel_of_not_mem h⟩

/-- The hint ends in a digit and its first number gives a label in use. -/
theorem appendBlock_least_label_digit :
    let F : Func :=
  ⟨"f", ⟨[], .plain .int⟩, [⟨"then", []⟩, ⟨"then1", []⟩, ⟨"then11", []⟩, ⟨"then2", []⟩], 0⟩
    let r : Recorder := ⟨[none, some F], none⟩
    r.function? ⟨1⟩ = some F ∧ ∃ r',
      Recorder.perform (.appendBlock ⟨1⟩ "then1") r = .ok ⟨⟨1⟩, ⟨4⟩⟩ r' ∧
      r'.function? ⟨1⟩ = some { F with blocks := F.blocks ++ [⟨"then12", []⟩] } := by
  intro F r
  have hF : r.function? ⟨1⟩ = some F := rfl
  obtain ⟨rounds, label, r', hperform, hF', hloop, -⟩ := appendBlock_least_label hF "then1"
  have hlabel : "then12" = label :=
    ((hloop 2 "then12").1 (.round (by decide) (.round (by decide) (.done (by decide))))).2
  exact ⟨hF, r', hperform, by rw [hF', hlabel]⟩

end ImpFront
