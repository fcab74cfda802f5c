import Mathlib
import ImpFront.Lower.Scope

/-! Lookup and release in scopes, seen on the list of all declarations, the innermost first. -/

namespace ImpFront

/-- The innermost declaration of a name is the first. -/
theorem Scopes.find?_flatten {V : Type} {sc : Scopes V} {x : String} {i : Nat} {l : Local V}
    (h : sc.lookup x = some (i, l)) : sc.flatten.find? (fun d => d.1 = x) = some (x, l) := by
  induction sc with
  | nil => simp [lookup] at h
  | cons f fs ih =>
    rw [lookup] at h
    rw [List.flatten_cons, List.find?_append]
    split at h
    · rename_i l' hl'
      simp only [Option.some.injEq, Prod.mk.injEq] at h
      obtain ⟨-, rfl⟩ := h
      obtain ⟨d, hd, rfl⟩ := Option.map_eq_some_iff.1 hl'
      have hx : d.1 = x := by simpa using List.find?_some hd
      rw [hd, ← hx]
      rfl
    · rename_i hnone
      rw [Option.map_eq_none_iff.1 hnone]
      exact ih h

theorem Scopes.mem_of_lookup {V : Type} {sc : Scopes V} {x : String} {i : Nat} {l : Local V}
    (h : sc.lookup x = some (i, l)) : (x, l) ∈ sc.flatten :=
  List.mem_of_find?_eq_some (find?_flatten h)

theorem Scopes.mem_releases_none {V : Type} {sc : Scopes V} {v : V} :
    v ∈ sc.releases none ↔ ∃ d ∈ sc.flatten, d.2.heap = true ∧ d.2.storage = v := by
  rw [releases_none, List.mem_flatMap]
  simp only [Frame.handles, List.mem_map, List.mem_filter, List.mem_flatten]
  constructor
  · rintro ⟨f, hf, d, ⟨hd, hheap⟩, rfl⟩
    exact ⟨d, ⟨f, hf, hd⟩, hheap, rfl⟩
  · rintro ⟨d, ⟨f, hf, hd⟩, hheap, rfl⟩
    exact ⟨f, hf, d, ⟨hd, hheap⟩, rfl⟩

theorem Scopes.releases_sublist {V : Type} (spared : Option (Nat × String)) (sc : Scopes V) :
    (sc.releases spared).Sublist (sc.releases none) := by
  induction sc with
  | nil => exact .slnil
  | cons f fs ih =>
    refine List.Sublist.append (List.Sublist.map _ ?_) ih
    refine List.monotone_filter_right f fun d hd => ?_
    simp only [Bool.and_eq_true] at hd
    simp [hd.1]

/-- A spared name of an inner frame is none of the outer ones. -/
theorem Scopes.releases_of_le {V : Type} {sc : Scopes V} {i : Nat} (x : String)
    (h : sc.length ≤ i) :
    sc.releases (some (i, x)) = sc.releases none := by
  induction sc with
  | nil => rfl
  | cons f fs ih =>
    have hi : fs.length < i := h
    have hfilter : ∀ d : String × Local V, some (i, x) ≠ some (fs.length, d.1) := fun d he => by
      simp only [Option.some.injEq, Prod.mk.injEq] at he
      omega
    simp [releases, hfilter, ih hi.le]

theorem Frame.handles_perm {V : Type} {f : Frame V} {x : String} {l : Local V}
    (hnames : (f.map Prod.fst).Nodup) (h : f.find? x = some l) (hheap : l.heap = true) :
    f.handles.Perm (l.storage :: (f.filter fun d => d.2.heap && !decide (x = d.1)).map fun d =>
      d.2.storage) := by
  induction f with
  | nil => simp [Frame.find?] at h
  | cons d ds ih =>
    obtain ⟨hnot, hnames⟩ := List.nodup_cons.1 hnames
    by_cases hx : d.1 = x
    · subst hx
      obtain rfl : d.2 = l := by simpa [Frame.find?] using h
      have hrest : (ds.filter fun e => e.2.heap && !decide (d.1 = e.1)) = ds.filter fun e =>
          e.2.heap := by
        refine List.filter_congr fun e he => ?_
        have hne : d.1 ≠ e.1 := fun heq => hnot (heq ▸ List.mem_map_of_mem he)
        simp [hne]
      simp [Frame.handles, hheap, hrest]
    · have hfind : Frame.find? ds x = some l := by simpa [Frame.find?, hx] using h
      have hperm := ih hnames hfind
      simp only [Frame.handles, List.filter_cons, Ne.symm hx, decide_false, Bool.not_false,
        Bool.and_true] at hperm ⊢
      split
      · exact (hperm.cons _).trans (.swap _ _ _)
      · exact hperm

/-- All cells are those that are released and the spared one. -/
theorem Scopes.releases_perm {V : Type} {sc : Scopes V} {x : String} {i : Nat} {l : Local V}
    (hnames : ∀ f ∈ sc, (f.map Prod.fst).Nodup) (h : sc.lookup x = some (i, l))
    (hheap : l.heap = true) :
    (sc.releases none).Perm (l.storage :: sc.releases (some (i, x))) := by
  induction sc with
  | nil => simp [lookup] at h
  | cons f fs ih =>
    obtain ⟨hf, hfs⟩ := List.forall_mem_cons.1 hnames
    rw [lookup] at h
    split at h
    · rename_i l' hl'
      simp only [Option.some.injEq, Prod.mk.injEq] at h
      obtain ⟨rfl, rfl⟩ := h
      simp only [releases, releases_of_le x le_rfl, Option.some.injEq, Prod.mk.injEq, true_and,
        ne_eq, reduceCtorEq, not_false_eq_true, decide_true, Bool.and_true, decide_not]
      exact (Frame.handles_perm hf hl' hheap).append_right _
    · have hlt := index_lt_of_lookup h
      have hother : ∀ d : String × Local V, some (i, x) ≠ some (fs.length, d.1) := fun d he => by
        simp only [Option.some.injEq, Prod.mk.injEq] at he
        omega
      simp only [releases, hother, ne_eq, not_false_eq_true, decide_true, Bool.and_true,
        reduceCtorEq]
      exact ((ih hfs h).append_left _).trans List.perm_middle

end ImpFront
