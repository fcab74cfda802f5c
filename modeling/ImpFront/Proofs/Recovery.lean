import Mathlib
import ImpFront.Proofs.Braces
import ImpFront.Proofs.Echo
import ImpFront.Proofs.Relocation

/-! Recovery from errors. A source that ends outside of all braces behind a brace or a semicolon
keeps its errors to itself: whatever is wrong in it, the items that follow are read and lowered as
if they stood alone. -/

namespace ImpFront

open Reader

variable {k : Nat} {more : List Placed} {c c' d : Cursor}

/-- Nothing of the part is left open in front of the tokens that follow it, and these go on with an
item. -/
structure Cursor.Closing (more : List Placed) (c : Cursor) : Prop where
  eof : .eof ∉ c.tokens
  ends : more = [] ∨ (∃ t ∈ more.head?, t.token.startsItem = true) ∧
    c.tokens.foldl depthAfter c.depth = 0 ∧
    ∀ t ∈ c.tokens.getLast?, t.isFlat = false

theorem Cursor.Closing.reads {us : List Placed} (h : c.Closing more) (hus : c.Reads us d) :
    d.Closing more := by
  refine ⟨fun hmem => h.eof (by rw [hus.tokens]; exact List.mem_append_right _ hmem),
    h.ends.imp_right ?_⟩
  rintro ⟨hmore, hdepth, hlast⟩
  refine ⟨hmore, by rw [hus.depth, ← List.foldl_append, ← hus.tokens, hdepth],
    fun t ht => hlast t ?_⟩
  rw [hus.tokens, List.getLast?_append, ht]
  rfl

/-- An item that is cut off is cut off inside of the part. -/
theorem Cursor.Closing.sees {us : List Placed} (h : c.Closing more) (hus : c.Reads us d)
    (hcut : Cut (us.map Placed.token)) : d.Sees more := by
  refine h.ends.imp_right ?_
  rintro ⟨-, hdepth, hlast⟩ hnil
  have htokens : c.tokens = us.map Placed.token := by
    rw [hus.tokens, Cursor.tokens, hnil, List.map_nil, List.append_nil]
  rw [htokens] at hdepth hlast
  rcases hcut with ⟨hne, hflat⟩ | ⟨n, hopens⟩
  · have hlast := hlast _ (List.getLast?_eq_getLast_of_ne_nil hne)
    rw [hflat _ (List.getLast_mem hne)] at hlast
    cases hlast
  · rw [hopens.foldl] at hdepth
    omega

theorem Cursor.skipToItem_append {ts : List Placed} {depth : Nat} (hmore : more = [] ∨
      (∃ t ∈ more.head?, t.token.startsItem = true) ∧
      (ts.map Placed.token).foldl depthAfter depth = 0) :
    skipToItem (ts.map (Placed.shift k) ++ more) depth =
      ((skipToItem ts depth).1.map (Placed.shift k) ++ more, (skipToItem ts depth).2) := by
  induction ts generalizing depth with
  | nil =>
    rcases hmore with rfl | ⟨⟨t, ht, hstarts⟩, rfl⟩
    · rfl
    · obtain ⟨ts, rfl⟩ := List.head?_eq_some_iff.1 ht
      exact if_pos ⟨rfl, hstarts⟩
  | cons t ts ih =>
    rw [List.map_cons, List.cons_append, skipToItem, skipToItem, Placed.token_shift]
    by_cases hstart : depth = 0 ∧ t.token.startsItem = true
    · rw [if_pos hstart, if_pos hstart]
      rfl
    · rw [if_neg hstart, if_neg hstart]
      exact ih hmore

theorem Cursor.exists_reads_skipToItem (ts : List Placed) (stop depth : Nat) :
    ∃ us, (⟨ts, stop, depth⟩ : Cursor).Reads us ⟨(skipToItem ts depth).1, stop,
      (skipToItem ts depth).2⟩ := by
  induction ts generalizing depth with
  | nil => exact ⟨[], .refl _⟩
  | cons t ts ih =>
    rw [skipToItem]
    split
    · exact ⟨[], .refl _⟩
    · obtain ⟨us, hus⟩ := ih (depthAfter depth t.token)
      exact ⟨t :: us, congrArg (t :: ·) hus.rest, hus.depth, rfl⟩

namespace Cursor

variable (e : SyntaxError)

theorem exists_reads_recover (c : Cursor) : ∃ us, c.Reads us (c.recover e) := by
  unfold recover
  split
  · exact Reads.exists_advance c
  · exact exists_reads_skipToItem c.rest c.stop c.depth

/-- A round that fails goes on behind the token that starts no item, or behind the part of an item
that was read. Recovery itself may stay where it is. -/
theorem recover_of_parse_error {e : SyntaxError} (hc : c.current ≠ .eof)
    (h : Item.parse c = .error e d) :
    (∃ us, c.Reads us d ∧ (us = [] ∨ Cut (us.map Placed.token))) ∧
      (d.recover e).rest.length < c.rest.length := by
  cases hstart : c.current.startsItem with
  | false =>
    rw [Item.parse_refuses hstart] at h
    cases h
    exact ⟨⟨[], .refl c, .inl rfl⟩, length_advance_lt hc⟩
  | true =>
    obtain ⟨us, hus, hcut⟩ := Item.cut_of_parse_error hstart h
    obtain ⟨vs, hvs⟩ := d.exists_reads_recover e
    refine ⟨⟨us, hus, .inr hcut⟩, hvs.length_le.trans_lt (hus.length_lt ?_)⟩
    exact fun hnil => hcut.ne_nil (List.map_eq_nil_iff.2 hnil)

/-- The error stands inside of the part. -/
theorem Closing.error_sees {e : SyntaxError} (h : c.Closing more) (hc : c.current ≠ .eof)
    (hp : Item.parse c = .error e d) :
    ∃ us, c.Reads us d ∧ d.Sees more ∧ (d.recover e).rest.length < c.rest.length := by
  obtain ⟨⟨us, hus, hcut⟩, hlt⟩ := recover_of_parse_error hc hp
  refine ⟨us, hus, ?_, hlt⟩
  rcases hcut with rfl | hcut
  · obtain rfl := hus.unique (.refl c)
    exact .inr (rest_ne_nil rfl hc)
  · exact h.sees hus hcut

theorem Within.recover (h : c.Within k more c') (hs : c.Sees more) (hclosing : c.Closing more) :
    (c.recover e).Within k more (c'.recover (e.shift k)) := by
  unfold Cursor.recover
  rw [show (e.shift k).expected = e.expected from rfl]
  split
  · exact h.advance hs
  · have hskip : skipToItem c'.rest c'.depth =
        ((skipToItem c.rest c.depth).1.map (Placed.shift k) ++ more,
          (skipToItem c.rest c.depth).2) := by
      rw [h.rest, h.depth]
      exact skipToItem_append (hclosing.ends.imp_right fun h => ⟨h.1, h.2.1⟩)
    have hdepth : (skipToItem c'.rest c'.depth).2 = (skipToItem c.rest c.depth).2 := by rw [hskip]
    exact ⟨congrArg Prod.fst hskip, hdepth, h.stop⟩

end Cursor

/-- The diagnostic at a place that is `k` bytes further on. -/
def Diagnostic.shift (k : Nat) : Diagnostic → Diagnostic
  | .reading e => .reading (e.shift k)
  | .lowering e => .lowering (e.mapPos (· + k))

namespace Lowering

variable {s : Lowering Recorder}

/-- What a round reports, where it goes on and what it leaves. -/
def round (c : Cursor) (s : Lowering Recorder) : List Diagnostic × Cursor × Lowering Recorder :=
  match Item.parse c with
  | .ok item d => ((Lowering.failure? item s).toList.map .lowering, d, Lowering.after item s)
  | .error e d => ([.reading e], d.recover e, s)

theorem itemsFrom_succ (n : Nat) (s : Lowering Recorder) (hc : c.current ≠ .eof) :
    itemsFrom (fun _ t => t) (n + 1) c s =
      ((round c s).1 ++ (itemsFrom (fun _ t => t) n (round c s).2.1 (round c s).2.2).1,
        (itemsFrom (fun _ t => t) n (round c s).2.1 (round c s).2.2).2) := by
  rw [itemsFrom, if_neg hc, round]
  cases Item.parse c with
  | error e d => rfl
  | ok item d =>
    simp only [Lowering.failure?, Lowering.after]
    cases item.lower s with
    | ok u t => rfl
    | error e t => rfl

theorem failure?_mapPos (item : Item) (f : Nat → Nat) (h : s.Coupled) :
    Lowering.failure? (item.mapPos f) s = (Lowering.failure? item s).map (LowerError.mapPos f) ∧
      Lowering.after (item.mapPos f) s = Lowering.after item s := by
  unfold Lowering.failure? Lowering.after
  rcases item.lower_mapPos f h with ⟨t, hx, hy⟩ | ⟨e, t, hx, hy⟩
  · rw [hx, hy]
    exact ⟨rfl, rfl⟩
  · rw [hx, hy]
    exact ⟨rfl, rfl⟩

theorem exists_reads_round (c : Cursor) (s : Lowering Recorder) :
    ∃ us, c.Reads us (round c s).2.1 := by
  unfold round
  cases hp : Item.parse c with
  | ok item d =>
    obtain ⟨-, us, hus, -⟩ := Attempt.item_parse_follows id c _ d (Attempt.ofReader_eq_ok.2 hp)
    exact ⟨us, hus⟩
  | error e d =>
    obtain ⟨-, us, hus, -⟩ := Attempt.item_parse_follows id c _ d (Attempt.ofReader_eq_error.2 hp)
    obtain ⟨vs, hvs⟩ := d.exists_reads_recover e
    exact ⟨us ++ vs, hus.trans hvs⟩

/-- A round behind `c` goes on in the rest of the part, and one behind `c'` does the same. -/
structure Echoed (k : Nat) (more : List Placed) (c : Cursor)
    (r r' : List Diagnostic × Cursor × Lowering Recorder) : Prop where
  reports : r'.1 = r.1.map (Diagnostic.shift k)
  within : r.2.1.Within k more r'.2.1
  state : r'.2.2 = r.2.2
  closing : r.2.1.Closing more
  shorter : r.2.1.rest.length < c.rest.length
  coupled : r.2.2.Coupled

theorem round_echoed (hc : c.Within k more c') (hclosing : c.Closing more) (hne : c.current ≠ .eof)
    (hs : s.Coupled) :
    Echoed k more c (round c s) (round c' s) := by
  have hclosing' : (round c s).2.1.Closing more := by
    obtain ⟨us, hus⟩ := exists_reads_round c s
    exact hclosing.reads hus
  cases hp : Item.parse c with
  | ok item d =>
    obtain ⟨hlt, d', hwithin, hp'⟩ := Item.parse_ok_within hc hp
    obtain ⟨hfailure, hafter⟩ := failure?_mapPos item (· + k) hs
    unfold round at hclosing' ⊢
    rw [hp] at hclosing' ⊢
    rw [hp']
    refine ⟨?_, hwithin, hafter, hclosing', hlt, hs.after item⟩
    dsimp only
    rw [hfailure]
    cases Lowering.failure? item s with
    | none => rfl
    | some e => rfl
  | error e d =>
    -- the item is left behind in both sources
    obtain ⟨us, hus, hsees, hlt⟩ := hclosing.error_sees hne hp
    obtain ⟨d', hwithin, hp'⟩ := Item.parse_error_within hc hp hsees
    unfold round at hclosing' ⊢
    rw [hp] at hclosing' ⊢
    rw [hp']
    exact ⟨rfl, hwithin.recover e hsees (hclosing.reads hus), rfl, hclosing', hlt, hs⟩

/-- The loop over a part of a longer source reports and does what it would have on the part alone,
and then goes on behind it. -/
theorem itemsFrom_within (n m : Nat) (hc : c.Within k more c') (hclosing : c.Closing more)
    (hs : s.Coupled) (hn : c.rest.length < n) (hm : c'.rest.length < m) :
    ∃ m' d', d'.rest = more ∧ (more = [] ∨ d'.depth = 0) ∧ d'.stop = c'.stop ∧ more.length < m' ∧
      itemsFrom (fun _ t => t) m c' s =
        ((itemsFrom (fun _ t => t) n c s).1.map (Diagnostic.shift k) ++
          (itemsFrom (fun _ t => t) m' d' (itemsFrom (fun _ t => t) n c s).2).1,
        (itemsFrom (fun _ t => t) m' d' (itemsFrom (fun _ t => t) n c s).2).2) := by
  induction n generalizing m c c' s with
  | zero => omega
  | succ n ih =>
    by_cases heof : c.current = .eof
    · have hnil : c.rest = [] := by
        cases hrest : c.rest with
        | nil => rfl
        | cons t ts =>
          rw [Cursor.current, hrest] at heof
          exact absurd (by rw [Cursor.tokens, hrest, ← heof]; exact List.mem_cons_self) hclosing.eof
      have hrest : c'.rest = more := by rw [hc.rest, hnil]; rfl
      refine ⟨m, c', hrest, ?_, rfl, hrest ▸ hm, by rw [itemsFrom, if_pos heof]; rfl⟩
      refine hclosing.ends.imp_right ?_
      rintro ⟨-, hdepth, -⟩
      rw [Cursor.tokens, hnil] at hdepth
      rw [hc.depth]
      exact hdepth
    · obtain ⟨m, rfl⟩ : ∃ i, m = i + 1 := ⟨m - 1, by omega⟩
      have hsees : c.Sees more := .inr (Cursor.rest_ne_nil rfl heof)
      have hr := round_echoed hc hclosing heof hs
      have hlen := hc.length_rest
      have hlen' := hr.within.length_rest
      have hlt := hr.shorter
      obtain ⟨us, hround⟩ := exists_reads_round c' s
      obtain ⟨m', d', hrest, hdepth, hstop, hm', hitems⟩ :=
        ih m hr.within hr.closing hr.coupled (by omega) (by omega)
      refine ⟨m', d', hrest, hdepth, hstop.trans hround.stop, hm', ?_⟩
      rw [itemsFrom_succ n s heof, itemsFrom_succ m s (by rwa [hc.current hsees]), hr.reports,
        hr.state, hitems, List.map_append, List.append_assoc]

theorem itemsFrom_nil (n : Nat) (s : Lowering Recorder) (h : c.rest = []) :
    itemsFrom (fun _ t => t) n c s = ([], s) := by
  cases n with
  | zero => rfl
  | succ n =>
    rw [itemsFrom, if_pos]
    rw [Cursor.current, h]

/-- A source with `k` more bytes before it. -/
theorem itemsFrom_shift {source : String} {m : Nat} (hs : s.Coupled) (hm : c'.rest.length < m)
    (hc : (Cursor.ofSource source).Within k [] c') :
    itemsFrom (fun _ t => t) m c' s =
      ((Lowering.source (fun _ t => t) source s).1.map (Diagnostic.shift k),
        (Lowering.source (fun _ t => t) source s).2) := by
  have hclosing : (Cursor.ofSource source).Closing [] := ⟨Scanner.eof_notMem_tokens _ _, .inl rfl⟩
  obtain ⟨m', d', hrest, -, -, -, hitems⟩ :=
    itemsFrom_within _ m hc hclosing hs (Nat.lt_succ_self _) hm
  rw [hitems, itemsFrom_nil m' _ hrest, List.append_nil]
  rfl

/-- One source behind another, if the first is closed. -/
theorem source_append {s₁ s₂ : String} (hs : s.Coupled)
    (htokens : tokens (s₁ ++ s₂) = tokens s₁ ++ (tokens s₂).map (Placed.shift (byteSize s₁.toList)))
    (hclosing : (Cursor.ofSource s₁).Closing ((tokens s₂).map (Placed.shift (byteSize s₁.toList))))
    (hne : tokens s₂ ≠ []) :
    let one := Lowering.source (fun _ t => t) s₁ s
    let two := Lowering.source (fun _ t => t) s₂ one.2
    Lowering.source (fun _ t => t) (s₁ ++ s₂) s =
      (one.1 ++ two.1.map (Diagnostic.shift (byteSize s₁.toList)), two.2) := by
  intro one two
  have hmore : (tokens s₂).map (Placed.shift (byteSize s₁.toList)) ≠ [] :=
    mt List.map_eq_nil_iff.1 hne
  have hfront : (Cursor.ofSource s₁).Within 0 ((tokens s₂).map (Placed.shift (byteSize s₁.toList)))
      (.ofSource (s₁ ++ s₂)) := by
    refine ⟨?_, rfl, fun h => absurd h hmore⟩
    rw [show Placed.shift 0 = id from rfl, List.map_id]
    exact htokens
  have hcoupled : one.2.Coupled := itemsFrom_induction (fun _ item h => h.after item) _ _ _ hs
  obtain ⟨m, d, hrest, hdepth, hstop, hlt, hitems⟩ :=
    itemsFrom_within _ _ hfront hclosing hs (Nat.lt_succ_self _) (Nat.lt_succ_self _)
  have hbehind : (Cursor.ofSource s₂).Within (byteSize s₁.toList) [] d := by
    refine ⟨by rw [hrest, List.append_nil]; rfl, hdepth.resolve_left hmore, fun _ => hstop.trans ?_⟩
    show byteSize (s₁ ++ s₂).toList = byteSize s₂.toList + byteSize s₁.toList
    rw [String.toList_append, byteSize_append, Nat.add_comm]
  have hid : Diagnostic.shift 0 = id := by
    funext x
    cases x <;> rfl
  rw [hid, List.map_id] at hitems
  refine hitems.trans ?_
  show (one.1 ++ (itemsFrom _ m d one.2).1, (itemsFrom _ m d one.2).2) = _
  rw [itemsFrom_shift hcoupled (hrest ▸ hlt) hbehind]

end Lowering

/-- Behind a source that is closed, a second source compiles as it does alone, in the state that the
first has left: first all diagnostics of the one are reported and then all of the other, at places
behind the first source. -/
theorem compile_append {s₁ s₂ : String} {last first : Placed}
    (hlast : (tokens s₁).getLast? = some last)
    (hends : last.token = .char '}' ∨ last.token = .char ';')
    (hdepth : ((tokens s₁).map Placed.token).foldl depthAfter 0 = 0)
    (hfirst : (tokens s₂).head? = some first) (hstarts : first.token.startsItem = true) :
    let one := Lowering.source (fun _ t => t) s₁ (.ofTarget Recorder.empty)
    let two := Lowering.source (fun _ t => t) s₂ one.2
    (compile (s₁ ++ s₂) Recorder.empty).1 =
        (compile s₁ Recorder.empty).1 ++ two.1.map (Diagnostic.shift (byteSize s₁.toList)) ∧
      (compile (s₁ ++ s₂) Recorder.empty).2 = two.2.target := by
  intro one two
  obtain ⟨ch, hch, hbreaks, hflat⟩ :
      ∃ ch, last.token = .char ch ∧ breaks [ch] = true ∧ (Token.char ch).isFlat = false := by
    rcases hends with hends | hends
    · exact ⟨_, hends, rfl, rfl⟩
    · exact ⟨_, hends, rfl, rfl⟩
  have hhead : ((tokens s₂).map (Placed.shift (byteSize s₁.toList))).head? =
      some (first.shift (byteSize s₁.toList)) := by
    rw [List.head?_map, hfirst]
    rfl
  have hclosing :
      (Cursor.ofSource s₁).Closing ((tokens s₂).map (Placed.shift (byteSize s₁.toList))) := by
    refine ⟨Scanner.eof_notMem_tokens _ _, .inr ⟨⟨_, hhead, hstarts⟩, hdepth, fun t ht => ?_⟩⟩
    rw [Cursor.tokens, List.getLast?_map, show (Cursor.ofSource s₁).rest.getLast? = some last from
      hlast] at ht
    cases ht
    rw [hch, hflat]
  have hne : tokens s₂ ≠ [] := by
    intro hnil
    rw [hnil] at hfirst
    cases hfirst
  have happend :=
    Lowering.source_append Lowering.coupled_empty (tokens_append hlast hch hbreaks) hclosing hne
  exact ⟨congrArg Prod.fst happend, congrArg (fun r => r.2.target) happend⟩

/-- Neither a prototype that is broken off, nor a body that fails, nor a stray brace disturbs what
follows. -/
theorem compile_append_strayBrace :
    let s₁ := "int f( \x7b \x7d int g() \x7b return z; \x7d \x7d"
    let s₂ := " int h() \x7b return g() + k(); \x7d extern int g(int x);"
    (tokens s₁).getLast? = some ⟨.char '}', 33⟩ ∧
      ((tokens s₁).map Placed.token).foldl depthAfter 0 = 0 ∧
      (tokens s₂).head? = some ⟨.type (.plain .int), 1⟩ ∧
      (compile (s₁ ++ s₂) Recorder.empty).1 =
        [.reading ⟨.paramType, 7, .char '{'⟩, .lowering ⟨.unknownVariable "z", 28⟩,
        .reading ⟨.item, 33, .char '}'⟩, .lowering ⟨.unknownFunction "k", 58⟩,
          .lowering ⟨.conflictingPrototype "g", 72⟩] := by
  intro s₁ s₂
  have hlast : (tokens s₁).getLast? = some ⟨.char '}', 33⟩ := by decide +kernel
  have hdepth : ((tokens s₁).map Placed.token).foldl depthAfter 0 = 0 := by decide +kernel
  have hfirst : (tokens s₂).head? = some ⟨.type (.plain .int), 1⟩ := by decide +kernel
  refine ⟨hlast, hdepth, hfirst, (compile_append hlast (.inl rfl) hdepth hfirst rfl).1.trans ?_⟩
  decide +kernel

end ImpFront
