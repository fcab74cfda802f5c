import Mathlib
import ImpFront.Proofs.Acceptance
import ImpFront.Proofs.SourceOrder

/-! Where the nodes of a tree stand: at the first tokens of their texts. Only for binary operations
two places come into question. The text of one starts with its left operand, and so with the
parentheses around that; but the place that a reader gives it is the one of the operand, which
stands behind them. -/

namespace ImpFront

section Law

variable {law : List Placed → Nat → Prop} {ts : List Placed} {p : Nat}

theorem law_or_operand {ops : List BinOp} {P : List Placed → Expr → Prop} {op : BinOp} {l r : Expr}
    (h : (Lettering.placed law).Chain ops P ts (.binary p op l r)) :
    law ts p ∨ P ts (.binary p op l r) := by
  cases h with
  | operand h => exact .inr h
  | binary _ _ _ _ hp => exact .inl hp

/-- The law can only be evaded by parentheses around the whole text. -/
theorem law_or_group {op : BinOp} {l r : Expr} (h : ExprAt law ts (.binary p op l r)) :
    law ts p ∨ ts.getLast?.map Placed.token = some (.char ')') := by
  rcases law_or_operand h with hlaw | h
  · exact .inl hlaw
  rcases law_or_operand h with hlaw | h
  · exact .inl hlaw
  rcases law_or_operand h with hlaw | h
  · exact .inl hlaw
  cases h with
  | group _ _ hy => exact .inr (by rw [List.getLast?_concat]; exact congrArg some hy)

theorem exists_returned {k j : Nat} {q : Prototype} {e : Expr}
    (h : ProgramAt law ts [.definition ⟨p, q, .mk j [.ret k e]⟩]) :
    ∃ before es x y,
      ts = before ++ ⟨.keyword .returnKw, k⟩ :: (es ++ [x, y]) ∧ ExprAt law es e := by
  cases h with
  | cons hitem hnone =>
    cases hnone
    cases hitem with
    | @definition us _ _ _ _ _ hbody _ =>
      cases hbody with
      | @mk opening closing _ _ _ _ hss _ _ =>
        cases hss with
        | cons hs hnone =>
          cases hnone
          cases hs with
          | @ret x y es _ _ hx he _ hp =>
            have hstart : some x.pos = some k := hp.resolve_left (List.cons_ne_nil _ _)
            have hreturn : x = ⟨.keyword .returnKw, k⟩ := by
              rw [← hx, ← Option.some.inj hstart]
            refine ⟨us ++ [opening], es, y, closing, ?_, he⟩
            rw [← hreturn]
            simp
          | conditional h => cases h

end Law

theorem placed_increasing (cs : List Char) (n : Nat) :
    ((placed n cs).map Placed.pos).Pairwise (· < ·) := by
  induction cs using text_induction generalizing n with
  | blank cs hall =>
    rw [placed_eq, if_pos (List.dropWhile_eq_nil_iff.2 hall)]
    exact List.Pairwise.nil
  | word bs c w rest hbs hc hlex ih =>
    rw [placed_blanks hbs, placed_lexeme hc hlex, List.map_cons]
    refine List.pairwise_cons.2 ⟨fun x hx => ?_, ih _⟩
    obtain ⟨as, -, -, rfl⟩ := (placed_places rest _).2 x (List.mem_append_left _ hx)
    have := c.utf8Size_pos
    simp only [byteSize]
    omega

theorem tokens_increasing (source : String) :
    ((tokens source).map Placed.pos).Pairwise (· < ·) := by
  rw [tokens_eq_placed]
  exact placed_increasing _ 0

/-- What comes behind a token stands at later places, and nothing else does. -/
theorem filter_behind {before after : List Placed} {t : Placed}
    (h : ((before ++ t :: after).map Placed.pos).Pairwise (· < ·)) :
    (before ++ t :: after).filter (fun u => t.pos < u.pos) = after := by
  rw [List.map_append, List.map_cons, List.pairwise_append, List.pairwise_cons] at h
  obtain ⟨-, ⟨hafter, -⟩, hbefore⟩ := h
  have hnone : before.filter (fun u => t.pos < u.pos) = [] := by
    refine List.filter_eq_nil_iff.2 fun u hu => ?_
    simpa using (hbefore _ (List.mem_map_of_mem hu) _ List.mem_cons_self).le
  have hall : after.filter (fun u => t.pos < u.pos) = after := by
    refine List.filter_eq_self.2 fun u hu => ?_
    simpa using hafter _ (List.mem_map_of_mem hu)
  rw [List.filter_append, hnone, List.filter_cons_of_neg (by simp), hall, List.nil_append]

/-- Tokens that stand at different places tell the two laws apart, as soon as there is a parenthesis
in front. -/
theorem BehindParens.atStart_iff {us : List Placed} {p : Nat} (h : BehindParens us p)
    (hincreasing : (us.map Placed.pos).Pairwise (· < ·)) :
    AtStart us p ↔ us.head?.map Placed.token ≠ some (.char '(') := by
  cases us with
  | nil => cases h
  | cons t us =>
    by_cases ht : t.token = .char '('
    · unfold BehindParens at h
      rw [List.dropWhile_cons_of_pos (by simpa using ht)] at h
      obtain ⟨u, hu, rfl⟩ := Option.map_eq_some_iff.1 h
      have hmem : u ∈ us := (List.dropWhile_suffix _).subset (List.mem_of_mem_head? hu)
      have hlt : t.pos < u.pos := (List.pairwise_cons.1 hincreasing).1 _ (List.mem_map_of_mem hmem)
      refine iff_of_false (fun hstart => hlt.ne (Option.some.inj hstart)) ?_
      simp [ht]
    · unfold BehindParens at h
      rw [List.dropWhile_cons_of_neg (by simpa using ht)] at h
      exact iff_of_true h (by simpa using ht)

/-- The nodes of a tree stand at the first tokens of their texts, but for binary operations. Those
stand behind all the parentheses that their texts start with, which is the start only where there
are none. -/
theorem parse_places_nodes {source : String} {items : List Item} (h : parse source = .ok items) :
    ProgramAt BehindParens (tokens source) items ∧
      ∀ us p, us <:+: tokens source → BehindParens us p →
        (AtStart us p ↔ us.head?.map Placed.token ≠ some (.char '(')) := by
  refine ⟨programAt_of_parse h, fun us p hus hpos => ?_⟩
  exact hpos.atStart_iff ((tokens_increasing source).sublist (hus.sublist.map Placed.pos))

/-- A product whose first factor stands in parentheses. -/
def productOfSum : String := "int f() \x7b return (1 + 2) * 3; \x7d"

def productOfSumTree : List Item :=
  [.definition ⟨0, ⟨0, "f", [], .plain .int⟩,
    .mk 8 [.ret 10 (.binary 18 .mul (.binary 18 .add (.int 18 1) (.int 22 2)) (.int 27 3))]⟩]

theorem parse_places_nodes_productOfSum :
    parse productOfSum = .ok productOfSumTree ∧
    ProgramAt BehindParens (tokens productOfSum) productOfSumTree ∧
      ∀ us p, us <:+: tokens productOfSum → BehindParens us p →
        (AtStart us p ↔ us.head?.map Placed.token ≠ some (.char '(')) :=
  ⟨rfl, parse_places_nodes rfl⟩

/-- The product stands at the `1`, and not at the parenthesis before it, where its text starts. -/
theorem productOfSum_behind_start :
    parse productOfSum = .ok productOfSumTree ∧
    ¬ProgramAt AtStart (tokens productOfSum) productOfSumTree := by
  refine ⟨rfl, fun h => ?_⟩
  obtain ⟨before, es, x, y, htokens, he⟩ := exists_returned h
  -- the returned expression has all tokens behind `return` but the last two
  have hes : es = ((tokens productOfSum).filter (fun u => 10 < u.pos)).dropLast.dropLast := by
    have hincreasing := tokens_increasing productOfSum
    rw [htokens] at hincreasing ⊢
    rw [filter_behind hincreasing]
    simp
  rw [hes] at he
  rcases law_or_group he with hstart | hclosed
  · exact absurd hstart (by unfold AtStart; decide +kernel)
  · exact absurd hclosed (by decide +kernel)

end ImpFront
