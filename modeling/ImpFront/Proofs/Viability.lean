import Mathlib
import ImpFront.Proofs.Acceptance
import ImpFront.Proofs.Spacing

/-! Where a syntax error is reported. What a reader has read when it fails can be completed, at
every level that it is in, by a few plain tokens. The token that it fails at cannot follow: a
program that went on with it would be read, and the reader, which looks no further than this token,
would not have failed. So the error stands at the first token that no program has in this place. -/

namespace ImpFront

theorem map_token_placed (n : Nat) (cs : List Char) : (placed n cs).map Placed.token = scan cs := by
  have hshift := placed_shift 0 n cs
  rw [Nat.zero_add] at hshift
  rw [hshift, List.map_map]
  rfl

/-- The fillers can be written down, with a blank before each. -/
theorem exists_spelling {more : List Token} (h : ∀ t ∈ more, t ∈ fillers) :
    ∃ cs, scan cs = more := by
  have hone : ∀ t ∈ fillers, ∃ cs, Spells cs [t] := by
    simp only [fillers, List.forall_mem_cons]
    exact ⟨⟨_, .int 0⟩, ⟨_, .name (by decide +kernel)⟩, ⟨_, .type _⟩, ⟨_, .keyword _⟩,
      ⟨_, .mark (by decide) .nil⟩, ⟨_, .mark (by decide) .nil⟩, ⟨_, .mark (by decide) .nil⟩, ⟨_,
      .mark (by decide) .nil⟩, ⟨_, .mark (by decide) .nil⟩, ⟨_, .mark (by decide) .nil⟩, by simp⟩
  have hall : ∃ cs, breaks cs = true ∧ Spells cs more := by
    induction more with
    | nil => exact ⟨[], rfl, .nil⟩
    | cons t more ih =>
      obtain ⟨ht, hmore⟩ := List.forall_mem_cons.1 h
      obtain ⟨w, hw⟩ := hone t ht
      obtain ⟨cs, hcs, hspells⟩ := ih hmore
      exact ⟨' ' :: (w ++ cs), rfl, .blank rfl (hw.append hcs hspells)⟩
  obtain ⟨cs, -, hspells⟩ := hall
  exact ⟨cs, hspells.scan_eq⟩

/-- The tokens begin those of a source that is a program. -/
def Viable (ts : List Token) : Prop :=
  ∃ source tree,
    IsProgram ((tokens source).map Placed.token) tree ∧ ts <+: (tokens source).map Placed.token

theorem Viable.of_begins {ts us : List Token} (h : Viable ts) (hus : us <+: ts) : Viable us := by
  obtain ⟨source, tree, hprogram, hts⟩ := h
  exact ⟨source, tree, hprogram, hus.trans hts⟩

/-- The beginning of a source, with the fillers written behind it, is a program. -/
theorem viable_of_fillers {source : String} {before after more : List Placed} {tree : List Item}
    (h : tokens source = before ++ after) (hmore : ∀ t ∈ more, t.token ∈ fillers)
    (htree : ProgramAt BehindParens (before ++ more) tree) : Viable (before.map Placed.token) := by
  obtain ⟨cs, hcs⟩ := exists_spelling (List.forall_mem_map.2 hmore)
  rw [tokens_eq_placed] at h
  obtain ⟨as, -, has⟩ := exists_placed_eq h
  have htokens : (tokens (String.ofList (as ++ [' '] ++ cs))).map Placed.token =
      (before ++ more).map Placed.token := by
    rw [tokens_eq_placed, String.toList_ofList, placed_blanks_between (by simp) (by simp [isBlank]),
      has, List.map_append, map_token_placed, hcs, List.map_append]
  refine ⟨_, _, htokens ▸ htree.forget, ?_⟩
  rw [htokens, List.map_append]
  exact List.prefix_append _ _

/-- Behind what was read up to an error, no program goes on as the source does. -/
theorem Reader.not_isProgram_of_error {c d : Cursor} {e : SyntaxError}
    (h : bounded itemsUpTo c = .error e d) :
    ∃ us, c.Reads us d ∧
      ∀ rest tree, rest.head? = d.tokens.head? → ¬IsProgram (us.map Placed.token ++ rest) tree := by
  have hends := fun c => (Attempt.bounded_itemsUpTo_agrees c).1
  obtain ⟨us, hus, hsettled⟩ := (Attempt.follows_of_endsAt hends Attempt.items_moves).exists_error
    (Attempt.ofReader_eq_error.2 h)
  refine ⟨us, hus, fun rest tree hnext hprogram => ?_⟩
  obtain ⟨c', e', d', htokens, hfail⟩ := hsettled rest hnext
  -- the program would be read, and on it the reader fails just the same
  obtain ⟨items, d₁, hread, -⟩ :=
    (hends c').exists_ok fun n => Attempt.items_gives n (htokens ▸ hprogram)
  rw [Attempt.ofReader_eq_error, hread] at hfail
  cases hfail

theorem viable_of_error {source : String} {e : SyntaxError} {d : Cursor} {us : List Placed}
    (h : Reader.bounded Reader.itemsUpTo (Cursor.ofSource source) = .error e d)
    (hus : tokens source = us ++ d.rest) :
    e.pos = d.pos ∧ e.found = d.current ∧ Viable (us.map Placed.token) := by
  have hends := fun c => (Attempt.bounded_itemsUpTo_agrees c).1
  have hrun := Attempt.ofReader_eq_error.2 h
  obtain ⟨herror, -⟩ :=
    Attempt.follows_of_endsAt (f := id) hends Attempt.items_moves _ _ d hrun
  obtain ⟨vs, hvs, more, -, hmore, tree, htree⟩ :=
    (hends _).derives (fun n => Attempt.items_parses n _) _ d hrun
  obtain rfl : us = vs := List.append_cancel_right (hus.symm.trans hvs.rest)
  exact ⟨(herror e rfl).1, (herror e rfl).2, viable_of_fillers hus hmore htree⟩

/-- An error stands at the first token that no program has behind the tokens before it. -/
theorem parse_error_at_first_impossible_token {source : String} {e : SyntaxError}
    (h : parse source = .error e) :
    ∃ (before : List Placed) (t : Placed) (after : List Placed),
      tokenize source = before ++ t :: after ∧
      e.pos = t.pos ∧ e.found = t.token ∧ Viable (before.map Placed.token) ∧
      (if t.token = .eof then ∀ tree, ¬IsProgram (before.map Placed.token) tree
        else ∀ more tree, ¬IsProgram (before.map Placed.token ++ t.token :: more) tree) ∧
      ∀ (before' : List Placed) (t' : Placed) (after' : List Placed),
        tokenize source = before' ++ t' :: after' →
        before'.length < before.length → Viable (before'.map Placed.token ++ [t'.token]) := by
  obtain ⟨d, hread⟩ := parse_eq_error.1 h
  obtain ⟨us, hreads, hno⟩ := Reader.not_isProgram_of_error hread
  have hus : tokens source = us ++ d.rest := hreads.rest
  obtain ⟨hpos, hfound, hviable⟩ := viable_of_error hread hus
  have htokens : tokenize source = us ++ (d.rest ++ [⟨.eof, byteSize source.toList⟩]) := by
    rw [tokenize, ← List.append_assoc, ← hus]
  have hfirst : ∀ (before' : List Placed) (t' : Placed) (after' : List Placed),
      tokenize source = before' ++ t' :: after' →
      before'.length < us.length → Viable (before'.map Placed.token ++ [t'.token]) := by
    intro before' t' after' hsplit hlt
    have hbefore : before' ++ [t'] <+: tokenize source := ⟨after', by rw [hsplit]; simp⟩
    have hbegins : before' ++ [t'] <+: us := by
      refine List.prefix_of_prefix_length_le hbefore ⟨_, htokens.symm⟩ ?_
      rw [List.length_append, List.length_singleton]
      omega
    have := hviable.of_begins (hbegins.map Placed.token)
    rwa [List.map_append] at this
  cases hd : d.rest with
  | nil =>
    refine ⟨us, ⟨.eof, byteSize source.toList⟩, [], by rw [htokens, hd]; rfl, ?_, ?_, hviable, ?_,
      hfirst⟩
    · rw [hpos, Cursor.pos, hd]
      exact hreads.stop
    · rw [hfound, Cursor.current, hd]
    · rw [if_pos rfl]
      intro tree hprogram
      exact hno [] tree (by rw [Cursor.tokens, hd]; rfl) (by rwa [List.append_nil])
  | cons t after =>
    have hne : t.token ≠ .eof := by
      intro heof
      have hmem : t ∈ tokens source := by
        have : tokens source = us ++ t :: after := hd ▸ hus
        simp [this]
      have heof' : .eof ∈ (tokens source).map Placed.token := List.mem_map.2 ⟨t, hmem, heof⟩
      exact Scanner.eof_notMem_tokens _ _ heof'
    refine ⟨us, t, _, by rw [htokens, hd]; rfl, ?_, ?_, hviable, ?_, hfirst⟩
    · rw [hpos, Cursor.pos, hd]
    · rw [hfound, Cursor.current, hd]
    · rw [if_neg hne]
      intro more tree
      exact hno _ tree (by rw [Cursor.tokens, hd]; rfl)

/-- A conditional whose second block is missing, in a function that goes on. -/
def blockMissing : String := "int f() \x7b if (x) \x7b \x7d else return x; \x7d"

theorem parse_error_at_first_impossible_token_blockMissing :
    parse blockMissing = .error ⟨.block, 26, .keyword .returnKw⟩ ∧
      ∃ (before : List Placed) (t : Placed) (after : List Placed),
        tokenize blockMissing = before ++ t :: after ∧
        26 = t.pos ∧ .keyword .returnKw = t.token ∧ Viable (before.map Placed.token) ∧
        (if t.token = .eof then ∀ tree, ¬IsProgram (before.map Placed.token) tree
          else ∀ more tree, ¬IsProgram (before.map Placed.token ++ t.token :: more) tree) ∧
        ∀ (before' : List Placed) (t' : Placed) (after' : List Placed),
          tokenize blockMissing = before' ++ t' :: after' →
          before'.length < before.length → Viable (before'.map Placed.token ++ [t'.token]) := by
  have hparse : parse blockMissing = .error ⟨.block, 26, .keyword .returnKw⟩ := rfl
  exact ⟨hparse, parse_error_at_first_impossible_token hparse⟩

end ImpFront
