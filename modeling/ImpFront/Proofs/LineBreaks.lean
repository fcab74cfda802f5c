import Mathlib
import ImpFront.Text.Location

/-! Lines and columns, counted. A text is read from left to right, with a look ahead from a carriage
return to a line feed; what comes out are counts over the text before the place. The counters are
words: a place has a location as long as the lines before it fit into a signed word and the
characters before it on its line do not fill one up. -/

namespace ImpFront

def isLineEnd (c : Char) : Bool := c = '\r' || c = '\n'

/-- A line break begins at the character: a carriage return, with the line feed behind it if there
is one, or a line feed that follows no carriage return. -/
def BreaksAt (text : List Char) (i : Nat) : Prop :=
  text[i]? = some '\r' ∨ text[i]? = some '\n' ∧ (i = 0 ∨ text[i - 1]? ≠ some '\r')

instance (text : List Char) (i : Nat) : Decidable (BreaksAt text i) :=
  inferInstanceAs (Decidable
    (text[i]? = some '\r' ∨ text[i]? = some '\n' ∧ (i = 0 ∨ text[i - 1]? ≠ some '\r')))

/-- The number of line breaks of a text. -/
def lineBreaks (text : List Char) : Nat :=
  (List.range text.length).countP fun i => BreaksAt text i

/-- The characters behind the last line break. -/
def lastLine (text : List Char) : List Char := text.rtakeWhile fun c => !isLineEnd c

theorem breaksAt_concat {text : List Char} {i : Nat} (hi : i < text.length) (c : Char) :
    BreaksAt (text ++ [c]) i ↔ BreaksAt text i := by
  rw [BreaksAt, BreaksAt, List.getElem?_append_left hi, List.getElem?_append_left (by omega)]

theorem breaksAt_length_concat (text : List Char) (c : Char) :
    BreaksAt (text ++ [c]) text.length ↔ c = '\r' ∨ c = '\n' ∧ text.getLast? ≠ some '\r' := by
  have hbefore : (text.length = 0 ∨ (text ++ [c])[text.length - 1]? ≠ some '\r') ↔
      text.getLast? ≠ some '\r' := by
    cases text with
    | nil => simp
    | cons a text =>
      rw [List.getElem?_append_left (by simp), ← List.getLast?_eq_getElem?]
      simp
  rw [BreaksAt, hbefore]
  simp

theorem lineBreaks_concat (text : List Char) (c : Char) :
    lineBreaks (text ++ [c]) = lineBreaks text +
      if c = '\r' ∨ c = '\n' ∧ text.getLast? ≠ some '\r' then 1 else 0 := by
  have hold : (List.range text.length).countP (fun i => BreaksAt (text ++ [c]) i) =
      lineBreaks text :=
    List.countP_congr fun i hi => by simpa using breaksAt_concat (List.mem_range.1 hi) c
  rw [lineBreaks, List.length_append, List.length_singleton, List.range_succ, List.countP_append,
    hold, List.countP_singleton]
  simp only [breaksAt_length_concat, decide_eq_true_eq]

theorem lineBreaks_le (text : List Char) : lineBreaks text ≤ text.length := by
  have hle := (List.range text.length).countP_le_length (p := fun i => BreaksAt text i)
  rwa [List.length_range] at hle

/-- A text with as many line breaks as characters has nothing else. -/
theorem isLineEnd_of_lineBreaks {text : List Char} (h : lineBreaks text = text.length) :
    ∀ c ∈ text, isLineEnd c = true := by
  intro c hc
  obtain ⟨i, hi, rfl⟩ := List.mem_iff_getElem.1 hc
  rw [lineBreaks] at h
  have hall := List.countP_eq_length.1 (h.trans List.length_range.symm) i (List.mem_range.2 hi)
  have hbreaks : BreaksAt text i := by simpa using hall
  rw [BreaksAt, List.getElem?_eq_getElem hi] at hbreaks
  rcases hbreaks with hr | ⟨hn, -⟩
  · simp [isLineEnd, Option.some.inj hr]
  · simp [isLineEnd, Option.some.inj hn]

theorem length_lastLine_le (text : List Char) : (lastLine text).length ≤ text.length :=
  (List.rtakeWhile_suffix _ text).length_le

theorem length_le_byteSize (text : List Char) : text.length ≤ byteSize text := by
  induction text with
  | nil => exact Nat.le_refl 0
  | cons c text ih =>
    have hpos := c.utf8Size_pos
    rw [List.length_cons, byteSize_cons]
    omega

theorem byteSize_eq_utf8ByteSize (cs : List Char) :
    byteSize cs = (String.ofList cs).utf8ByteSize := by
  rw [String.utf8ByteSize_ofList]
  induction cs with
  | nil => rfl
  | cons c cs ih => rw [byteSize_cons, String.utf8Len_cons, ih, Nat.add_comm]

theorem byteSize_toList (s : String) : byteSize s.toList = s.utf8ByteSize := by
  rw [byteSize_eq_utf8ByteSize, String.ofList_toList]

/-- A line and a column, counted without bounds. -/
structure Spot where
  line : Nat
  column : Nat

namespace Spot

def start : Spot := ⟨1, 1⟩

/-- Where one gets by reading a text from a given spot. -/
def advance (s : Spot) : List Char → Spot
  | [] => s
  | '\r' :: '\n' :: cs => advance ⟨s.line + 1, 1⟩ cs
  | c :: cs =>
    if c = '\r' ∨ c = '\n' then advance ⟨s.line + 1, 1⟩ cs else advance ⟨s.line, s.column + 1⟩ cs

/-- Spots in the order of the text: by line, then by column. -/
def key (s : Spot) : ℕ ×ₗ ℕ := toLex (s.line, s.column)

theorem advance_cons {c : Char} (hc : isLineEnd c = false) (s : Spot) (cs : List Char) :
    s.advance (c :: cs) = advance ⟨s.line, s.column + 1⟩ cs := by
  have hne : ¬(c = '\r' ∨ c = '\n') := by simpa [isLineEnd] using hc
  rw [advance, if_neg hne]
  rintro cs rfl
  simp at hne

theorem advance_lineEnd {c : Char} {cs : List Char} (hc : isLineEnd c = true)
    (h : c = '\r' → cs.head? ≠ some '\n') (s : Spot) :
    s.advance (c :: cs) = advance ⟨s.line + 1, 1⟩ cs := by
  have heq : c = '\r' ∨ c = '\n' := by simpa [isLineEnd] using hc
  rw [advance, if_pos heq]
  rintro cs rfl rfl
  exact h rfl rfl

/-- A text that is read in two parts. The look ahead does not reach over the cut, unless this is
inside of a line break. -/
theorem advance_append {as bs : List Char} (h : as.getLast? = some '\r' → bs.head? ≠ some '\n')
    (s : Spot) : s.advance (as ++ bs) = (s.advance as).advance bs := by
  fun_induction advance s as with
  | case1 s => rfl
  | case2 s cs ih =>
    rw [List.cons_append, List.cons_append, advance]
    refine ih fun hlast => h ?_
    cases cs with
    | nil => cases hlast
    | cons c cs => simpa using hlast
  | case3 s c cs hpair hend ih =>
    have hcut : c = '\r' → (cs ++ bs).head? ≠ some '\n' := by
      rintro rfl
      cases cs with
      | nil => exact h rfl
      | cons d cs =>
        rintro hd
        cases hd
        exact hpair cs rfl rfl
    rw [List.cons_append, advance_lineEnd (by simpa [isLineEnd] using hend) hcut]
    refine ih fun hlast => h ?_
    rw [List.getLast?_cons, hlast]
    rfl
  | case4 s c cs hpair hend ih =>
    rw [List.cons_append, advance_cons (by simpa [isLineEnd] using hend)]
    refine ih fun hlast => h ?_
    rw [List.getLast?_cons, hlast]
    rfl

/-- Inside of a line break: its line feed is passed over. -/
theorem advance_append_pair {as : List Char} (h : as.getLast? = some '\r') (bs : List Char)
    (s : Spot) : s.advance (as ++ '\n' :: bs) = (s.advance as).advance bs := by
  obtain ⟨as, rfl⟩ := List.getLast?_eq_some_iff.1 h
  have hcut : ∀ cs, as.getLast? = some '\r' → ('\r' :: cs).head? ≠ some '\n' := by simp
  rw [List.append_assoc, List.singleton_append, advance_append (hcut _), advance_append (hcut _)]
  rfl

theorem exists_advance_append (as bs : List Char) (s : Spot) :
    ∃ cs, s.advance (as ++ bs) = (s.advance as).advance cs := by
  by_cases h : as.getLast? = some '\r' → bs.head? ≠ some '\n'
  · exact ⟨bs, advance_append h s⟩
  · obtain ⟨hlast, hhead⟩ := Classical.not_imp.1 h
    obtain ⟨cs, rfl⟩ := List.head?_eq_some_iff.1 (not_not.1 hhead)
    exact ⟨cs, advance_append_pair hlast cs s⟩

/-- What a spot counts. -/
theorem start_advance (text : List Char) :
    start.advance text = ⟨1 + lineBreaks text, 1 + (lastLine text).length⟩ := by
  induction text using List.reverseRecOn with
  | nil => rfl
  | append_singleton text c ih =>
    rw [lineBreaks_concat, lastLine, List.rtakeWhile_concat]
    cases hend : isLineEnd c with
    | false =>
      have hne : c ≠ '\r' ∧ c ≠ '\n' := by simpa [isLineEnd] using hend
      rw [advance_append (by simp [hne.2]), advance_cons hend, ih]
      simp [advance, hne, lastLine, Nat.add_assoc]
    | true =>
      by_cases hnew : c = '\r' ∨ c = '\n' ∧ text.getLast? ≠ some '\r'
      · have hcut : text.getLast? = some '\r' → [c].head? ≠ some '\n' := by
          rintro hlast hc
          cases hc
          exact hnew.elim (by simp) fun h => h.2 hlast
        rw [advance_append hcut, advance_lineEnd hend (by simp), ih, if_pos hnew]
        rfl
      · -- the line feed belongs to the break before it, behind which nothing was read yet
        have hpair : c = '\n' ∧ text.getLast? = some '\r' := by
          simp only [isLineEnd, Bool.or_eq_true, decide_eq_true_eq] at hend
          tauto
        obtain ⟨as, rfl⟩ := List.getLast?_eq_some_iff.1 hpair.2
        have hlast : lastLine (as ++ ['\r']) = [] :=
          List.rtakeWhile_concat_neg _ as '\r' (by decide)
        rw [hpair.1, advance_append_pair hpair.2, ih, hlast, if_neg (hpair.1 ▸ hnew)]
        rfl

theorem key_lt_nextLine (s : Spot) (column : Nat) : s.key < key ⟨s.line + 1, column⟩ :=
  Prod.Lex.toLex_lt_toLex.2 (.inl (Nat.lt_succ_self _))

theorem key_lt_nextColumn (s : Spot) : s.key < key ⟨s.line, s.column + 1⟩ :=
  Prod.Lex.toLex_lt_toLex.2 (.inr ⟨rfl, Nat.lt_succ_self _⟩)

theorem key_le_advance (s : Spot) (cs : List Char) : s.key ≤ (s.advance cs).key := by
  fun_induction advance s cs with
  | case1 s => exact le_rfl
  | case2 s cs ih => exact (s.key_lt_nextLine 1).le.trans ih
  | case3 s c cs hpair hend ih => exact (s.key_lt_nextLine 1).le.trans ih
  | case4 s c cs hpair hend ih => exact s.key_lt_nextColumn.le.trans ih

theorem line_le_advance (s : Spot) (cs : List Char) : s.line ≤ (s.advance cs).line := by
  rcases Prod.Lex.toLex_le_toLex.1 (s.key_le_advance cs) with hlt | ⟨heq, -⟩
  · exact hlt.le
  · exact heq.le

theorem key_advance_le (s : Spot) (as bs : List Char) :
    (s.advance as).key ≤ (s.advance (as ++ bs)).key := by
  obtain ⟨cs, hcs⟩ := exists_advance_append as bs s
  rw [hcs]
  exact key_le_advance _ cs

theorem key_advance_lt {c : Char} (hc : isLineEnd c = false) (s : Spot) (as bs : List Char) :
    (s.advance as).key < (s.advance (as ++ c :: bs)).key := by
  have hcut : as.getLast? = some '\r' → (c :: bs).head? ≠ some '\n' := by
    rintro - hc'
    cases hc'
    cases hc
  rw [advance_append hcut, advance_cons hc]
  exact (key_lt_nextColumn _).trans_le (key_le_advance _ bs)

/-- The spot can be told by the counters. -/
def Fits (s : Spot) : Prop := s.line < 2 ^ 31 ∧ s.column % 2 ^ 32 ≠ 0

instance (s : Spot) : Decidable s.Fits :=
  inferInstanceAs (Decidable (s.line < 2 ^ 31 ∧ s.column % 2 ^ 32 ≠ 0))

/-- The location of a spot, if the counters can tell it. -/
def location? (s : Spot) : Option Location :=
  if s.Fits then some ⟨.ofNat s.line, .ofNat s.column⟩ else none

end Spot

namespace Location

theorem nextLine?_ofNat {line : Nat} (h : line < 2 ^ 31) :
    nextLine? (.ofNat line) =
      if line + 1 < 2 ^ 31 then some (.ofNat (line + 1)) else none := by
  have hlast : Int32.ofNat line = Int32.maxValue ↔ ¬line + 1 < 2 ^ 31 := by
    rw [← Int32.toInt_inj, Int32.toInt_ofNat_of_lt (by omega)]
    show (line : Int) = 2147483647 ↔ _
    omega
  rw [nextLine?]
  by_cases hline : line + 1 < 2 ^ 31
  · rw [if_pos hline, if_neg fun h => hlast.1 h hline, Int32.ofNat_add]
    rfl
  · rw [if_neg hline, if_pos (hlast.2 hline)]

theorem columnAfter?_eq (count : Nat) :
    columnAfter? count =
      if (count + 1) % 2 ^ 32 ≠ 0 then some (.ofNat (count + 1)) else none := by
  have hlast : UInt32.ofNat count = 4294967295 ↔ ¬(count + 1) % 2 ^ 32 ≠ 0 := by
    rw [← UInt32.toNat_inj, UInt32.toNat_ofNat]
    show count % 4294967296 = 4294967295 ↔ _
    omega
  rw [columnAfter?]
  by_cases hcount : (count + 1) % 2 ^ 32 ≠ 0
  · rw [if_pos hcount, if_neg fun h => hlast.1 h hcount, UInt32.ofNat_add]
    rfl
  · rw [if_neg hcount, if_pos (hlast.2 hcount)]

/-- A line break that the counter cannot count leads to no location. -/
theorem nextLine?_bind {line : Nat} (h : line < 2 ^ 31) (cs : List Char)
    (ih : line + 1 < 2 ^ 31 →
      after? (.ofNat (line + 1)) 0 cs = (Spot.advance ⟨line + 1, 1⟩ cs).location?) :
    ((nextLine? (.ofNat line)).bind fun next => after? next 0 cs) =
      (Spot.advance ⟨line + 1, 1⟩ cs).location? := by
  rw [nextLine?_ofNat h]
  by_cases hline : line + 1 < 2 ^ 31
  · rw [if_pos hline]
    exact ih hline
  · have hfar := Spot.line_le_advance ⟨line + 1, 1⟩ cs
    rw [if_neg hline, Spot.location?, if_neg fun hfits => hline (hfar.trans_lt hfits.1)]
    rfl

/-- The counters tell the spot that one gets to, wherever they can tell it. -/
theorem after?_eq {line : Nat} (h : line < 2 ^ 31) (count : Nat) (cs : List Char) :
    after? (.ofNat line) count cs = (Spot.advance ⟨line, count + 1⟩ cs).location? := by
  generalize hs : (⟨line, count + 1⟩ : Spot) = s
  fun_induction Spot.advance s cs generalizing line count with
  | case1 s =>
    subst hs
    rw [after?, columnAfter?_eq, Spot.location?]
    by_cases hcount : (count + 1) % 2 ^ 32 ≠ 0
    · rw [if_pos hcount, if_pos ⟨h, hcount⟩]
      rfl
    · rw [if_neg hcount, if_neg fun hfits => hcount hfits.2]
      rfl
  | case2 s cs ih =>
    subst hs
    rw [after?]
    exact nextLine?_bind h cs fun hline => ih hline 0 rfl
  | case3 s c cs hpair hend ih =>
    subst hs
    rw [after?, if_pos hend]
    · exact nextLine?_bind h cs fun hline => ih hline 0 rfl
    · exact hpair
  | case4 s c cs hpair hend ih =>
    subst hs
    rw [after?, if_neg hend]
    · exact ih h (count + 1) rfl
    · exact hpair

end Location

theorem takeBytes_of_le {n : Nat} {cs : List Char} (h : byteSize cs ≤ n) :
    takeBytes n cs = some cs := by
  fun_induction takeBytes n cs with
  | case1 cs =>
    have hlength := length_le_byteSize cs
    rw [List.length_eq_zero_iff.1 (show cs.length = 0 by omega)]
  | case2 => rfl
  | case3 n c cs hc ih =>
    rw [byteSize_cons] at h
    rw [ih (by omega)]
    rfl
  | case4 n c cs hc =>
    rw [byteSize_cons] at h
    omega

/-- The text before a place ends there, or it is all of the text. -/
theorem takeBytes_eq_some {n : Nat} {cs as : List Char} (h : takeBytes n cs = some as) :
    ∃ bs, cs = as ++ bs ∧ (n = byteSize as ∨ bs = [] ∧ byteSize as ≤ n) := by
  fun_induction takeBytes n cs generalizing as with
  | case1 cs =>
    cases h
    exact ⟨cs, rfl, .inl rfl⟩
  | case2 n =>
    cases h
    exact ⟨[], rfl, .inr ⟨rfl, Nat.zero_le _⟩⟩
  | case3 n c cs hc ih =>
    obtain ⟨as, has, rfl⟩ := Option.map_eq_some_iff.1 h
    obtain ⟨bs, rfl, hn⟩ := ih has
    refine ⟨bs, rfl, hn.imp (fun hn => ?_) fun hn => ⟨hn.1, ?_⟩⟩
    · rw [byteSize_cons]
      omega
    · rw [byteSize_cons]
      have := hn.2
      omega
  | case4 n c cs hc => cases h

theorem takeBytes_mono {m n : Nat} {cs as bs : List Char} (hmn : m ≤ n)
    (has : takeBytes m cs = some as) (hbs : takeBytes n cs = some bs) : as <+: bs := by
  obtain ⟨as', has', hm⟩ := takeBytes_eq_some has
  obtain ⟨bs', hbs', hn⟩ := takeBytes_eq_some hbs
  rcases List.prefix_or_prefix_of_prefix ⟨as', has'.symm⟩ ⟨bs', hbs'.symm⟩ with hle | ⟨ds, rfl⟩
  · exact hle
  · -- the text up to the later place cannot be the shorter one
    have hlength := length_le_byteSize ds
    rw [byteSize_append] at hm
    have hds : ds = [] := by
      rcases hn with hn | ⟨rfl, -⟩
      · exact List.length_eq_zero_iff.1 (by omega)
      · rw [hbs', List.append_assoc] at has'
        exact (List.append_eq_nil_iff.1 (List.append_cancel_left has').symm).1
    rw [hds, List.append_nil]

theorem locate_eq (source : String) (pos : Nat) :
    locate source pos =
      (takeBytes pos source.toList).bind fun before => (Spot.start.advance before).location? := by
  unfold locate
  congr 1
  funext before
  exact Location.after?_eq (by decide) 0 before

/-- The location of a place, from the text before it. -/
theorem locate_of_split {source : String} {before rest : List Char}
    (hsplit : source.toList = before ++ rest) {pos : Nat}
    (hpos : pos = byteSize before ∨ rest = [] ∧ byteSize before ≤ pos) :
    locate source pos = (Spot.start.advance before).location? := by
  have htake : takeBytes pos source.toList = some before := by
    rcases hpos with rfl | ⟨rfl, hle⟩
    · rw [hsplit, takeBytes_byteSize]
    · rw [hsplit, List.append_nil, takeBytes_of_le hle]
  rw [locate_eq, htake]
  rfl

end ImpFront
