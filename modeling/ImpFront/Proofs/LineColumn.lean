import Mathlib
import ImpFront.Proofs.LongestMatch
import ImpFront.Proofs.SourceOrder

/-! Line and column are exact. Both are the counts over the text before the place, as long as the
counters can count so far; in less than 2 ^ 31 bytes they can, but for one place of one kind of
text. Reading on never leads back, and reading anything but a line end leads on, so the tokens of a
source stand at increasing locations. -/

namespace ImpFront

/-- Between the place of a token and that of a later one, or the end, stands the first character of
the token, which is no blank. -/
theorem placed_between (cs : List Char) (n : Nat) :
    (placed n cs ++ [Placed.mk .eof (n + byteSize cs)]).Pairwise fun s t => ∃ as c bs ds,
      cs = as ++ c :: bs ++ ds ∧
      isBlank c = false ∧ s.pos = n + byteSize as ∧ t.pos = n + byteSize (as ++ c :: bs) := by
  induction cs using text_induction generalizing n with
  | blank cs hall =>
    have hnil : placed n cs = [] := by rw [placed_eq, if_pos (List.dropWhile_eq_nil_iff.2 hall)]
    rw [hnil]
    exact List.pairwise_singleton _ _
  | word bs c w rest hbs hc hlex ih =>
    have hbytes : ∀ as, n + byteSize (bs ++ c :: (w ++ as)) = n + byteSize bs + byteSize (c :: w) +
        byteSize as := by
      intro as
      rw [byteSize_append, ← List.cons_append, byteSize_append]
      omega
    rw [placed_blanks hbs, placed_lexeme hc hlex, List.cons_append, hbytes]
    refine List.pairwise_cons.2 ⟨fun t ht => ?_, (ih _).imp ?_⟩
    · have hpos : t.pos ∈ (placed (n + byteSize bs + byteSize (c :: w)) rest).map Placed.pos ++
          [n + byteSize bs + byteSize (c :: w) + byteSize rest] := by
        simpa using List.mem_map_of_mem (f := Placed.pos) ht
      obtain ⟨as, ds, rfl, heq⟩ := (placed_places rest _).2 _ hpos
      exact ⟨bs, c, w ++ as, ds, by simp, hc, rfl, by rw [heq, hbytes]⟩
    · rintro s t ⟨as, d, es, ds, rfl, hd, hs, ht⟩
      refine ⟨bs ++ c :: (w ++ as), d, es, ds, by simp, hd, by rw [hs, hbytes], ?_⟩
      rw [ht, ← hbytes]
      simp

theorem isLineEnd_of_isBlank {c : Char} (h : isBlank c = false) : isLineEnd c = false := by
  simp only [isBlank, isLineEnd, Bool.or_eq_false_iff] at h ⊢
  exact ⟨h.2, h.1.1.1.2⟩

/-- Locations in the order of the text: by line, then by column. -/
def Location.key (l : Location) : ℕ ×ₗ ℕ := toLex (l.line.toNat, l.column.toNat)

/-- What is located in less than 2 ^ 31 bytes. -/
theorem Spot.location?_start_advance {before rest : List Char}
    (hsize : byteSize (before ++ rest) < 2 ^ 31) {l : Location}
    (h : (start.advance before).location? = some l) :
    l.line.toNat = 1 + lineBreaks before ∧ l.column.toNat = 1 + (lastLine before).length := by
  rw [byteSize_append] at hsize
  have hlength := length_le_byteSize before
  have hline := length_lastLine_le before
  have hcolumn : 1 + (lastLine before).length < 2 ^ 32 := by omega
  rw [location?, start_advance] at h
  split at h
  · next hfits =>
    cases h
    exact ⟨UInt32.toNat_ofNat_of_lt' (hfits.1.trans (by decide)),
      UInt32.toNat_ofNat_of_lt' hcolumn⟩
  · cases h

theorem Spot.key_location? {before rest : List Char} (hsize : byteSize (before ++ rest) < 2 ^ 31)
    {l : Location} (h : (start.advance before).location? = some l) :
    l.key = (start.advance before).key := by
  obtain ⟨hline, hcolumn⟩ := location?_start_advance hsize h
  rw [Location.key, hline, hcolumn, start_advance, key]

/-- A place with a character before it that ends no line has a location. -/
theorem exists_locate {source : String} (hsize : source.utf8ByteSize < 2 ^ 31)
    {before rest : List Char} (hsplit : source.toList = before ++ rest)
    (hother : ∃ c ∈ source.toList, isLineEnd c = false) :
    ∃ l, locate source (byteSize before) = some l ∧ l.key = (Spot.start.advance before).key := by
  rw [← byteSize_toList, hsplit] at hsize
  have hfits : (Spot.start.advance before).Fits := by
    rw [Spot.fits_start_advance hsize]
    by_contra hmany
    obtain ⟨rfl, -, hends⟩ := isLineEnd_of_byteSize hsize (Nat.le_of_not_lt hmany)
    obtain ⟨c, hc, hne⟩ := hother
    rw [hsplit, List.append_nil] at hc
    rw [hends c hc] at hne
    cases hne
  have hlocation : (Spot.start.advance before).location? = some _ := if_pos hfits
  exact ⟨_, (locate_of_split hsplit (.inl rfl)).trans hlocation, Spot.key_location? hsize hlocation⟩

theorem tokenize_increasing {source : String} (hsize : source.utf8ByteSize < 2 ^ 31) :
    (tokenize source).Pairwise fun s t =>
      ∃ l m, locate source s.pos = some l ∧ locate source t.pos = some m ∧ l.key < m.key := by
  have hplaced := placed_between source.toList 0
  rw [← tokens_eq_placed, Nat.zero_add] at hplaced
  refine hplaced.imp ?_
  rintro s t ⟨as, c, bs, ds, hsplit, hc, hs, ht⟩
  rw [Nat.zero_add] at hs ht
  have hsplit' : source.toList = as ++ (c :: bs ++ ds) := by rw [hsplit, List.append_assoc]
  have hother : ∃ c ∈ source.toList, isLineEnd c = false :=
    ⟨c, by rw [hsplit]; simp, isLineEnd_of_isBlank hc⟩
  obtain ⟨l, hl, hlkey⟩ := exists_locate hsize hsplit' hother
  obtain ⟨m, hm, hmkey⟩ := exists_locate hsize hsplit hother
  refine ⟨l, m, by rw [hs, hl], by rw [ht, hm], ?_⟩
  rw [hlkey, hmkey]
  exact Spot.key_advance_lt (isLineEnd_of_isBlank hc) _ as bs

/-- All three line breaks, one of them behind a character of two bytes. -/
def mixedBreaks : String := "é\r\n x\r\ry\n"

end ImpFront
