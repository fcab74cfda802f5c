import Mathlib
import ImpFront.Proofs.Body
import ImpFront.Proofs.Scopes

/-! Laws of scopes. Whatever was entered, left and declared, in whatever order and with whatever
refused, no frame has two declarations of one name. From this it follows that a name stands for one
declaration of one frame, that the cells of a frame, and what is released, are those that heap-owned
names stand for, and that a spared declaration is missed once in what is released. -/

namespace ImpFront

variable {V : Type}

namespace Scopes

/-- What can be done to a stack of frames. -/
inductive Change (V : Type) where
  | push
  | pop
  | declare (name : String) (l : Local V)

/-- A declaration that is refused changes nothing, and neither does leaving where there is no
frame. -/
def Change.apply (s : Scopes V) : Change V → Scopes V
  | .push => [] :: s
  | .pop => s.tail
  | .declare name l =>
    match s.declare name l with
    | .ok s' => s'
    | .error _ => s

def after (s : Scopes V) (cs : List (Change V)) : Scopes V := cs.foldl Change.apply s

/-- Declarations, and frames that are left again. -/
inductive Matched : List (Change V) → Prop
  | nil : Matched []
  | declare {cs : List (Change V)} (name : String) (l : Local V) :
      Matched cs → Matched (.declare name l :: cs)
  | nest {cs ds : List (Change V)} : Matched cs → Matched ds → Matched (.push :: (cs ++ .pop :: ds))

end Scopes

/-- The heap-owned names of a frame, the last declared first. -/
def Frame.heapNames (f : Frame V) : List String := (f.filter fun d => d.2.heap).map Prod.fst

/-- What is released if it is looked up by the heap-owned names of each frame, but for one spared
name of one frame. -/
def Scopes.releasesByName (spared : Option (Nat × String)) : Scopes V → List V
  | [] => []
  | f :: fs =>
    ((f.heapNames.filter fun x => spared ≠ some (fs.length, x)).filterMap fun x =>
      (f.find? x).map Local.storage) ++ Scopes.releasesByName spared fs

/-- The step of lowering that makes a change. -/
def Scopes.Change.step {σ : Type} : Scopes.Change Value → Lower σ Unit
  | .push => Lower.pushScope
  | .pop => Lower.popScope >>= fun _ => pure ()
  | .declare name l => Lower.declare 0 name l

theorem Lower.popScope_nil {σ : Type} {s : Lowering σ} (h : s.scopes = []) :
    Lower.popScope s = .error ⟨.internal "Attempted to access empty scope stack", 0⟩ s := by
  simp only [Lower.popScope, h]

theorem Lower.popScope_cons {σ : Type} {s : Lowering σ} {f : Frame Value} {fs : Scopes Value}
    (h : s.scopes = f :: fs) :
    Lower.popScope s = .ok f { s with scopes := fs } := by
  simp only [Lower.popScope, h]

/-- Scopes are all that the step touches, and it leaves them alone if it fails. -/
theorem Scopes.Change.attempt_step {σ : Type} (c : Scopes.Change Value) (s : Lowering σ) :
    ∃ r, Lower.attempt c.step s = .ok r { s with scopes := c.apply s.scopes } := by
  cases c with
  | push => exact ⟨.ok (), rfl⟩
  | pop =>
    cases hs : s.scopes with
    | nil =>
      have hstep : step .pop s = .error _ s := bind_of_error (Lower.popScope_nil hs)
      have hsame : { s with scopes := [] } = s := by rw [← hs]
      refine ⟨.error ⟨.internal "Attempted to access empty scope stack", 0⟩, ?_⟩
      rw [show apply [] Change.pop = ([] : Scopes Value) from rfl, hsame]
      simp only [Lower.attempt, hstep]
    | cons f fs =>
      have hstep : step .pop s = .ok () { s with scopes := fs } :=
        bind_of_ok (Lower.popScope_cons hs)
      exact ⟨.ok (), by simp only [Lower.attempt, hstep, apply, List.tail_cons]⟩
  | declare name l =>
    simp only [Lower.attempt, step, Lower.declare, apply]
    cases s.scopes.declare name l with
    | ok scopes => exact ⟨_, rfl⟩
    | error fault => exact ⟨_, rfl⟩

theorem Scopes.attempt_steps {σ : Type} (cs : List (Scopes.Change Value)) (s : Lowering σ) :
    ∃ rs, (cs.mapM fun c => Lower.attempt c.step) s =
      .ok rs { s with scopes := s.scopes.after cs } := by
  induction cs generalizing s with
  | nil => exact ⟨[], rfl⟩
  | cons c cs ih =>
    obtain ⟨r, hr⟩ := c.attempt_step s
    obtain ⟨rs, hrs⟩ := ih { s with scopes := c.apply s.scopes }
    refine ⟨r :: rs, ?_⟩
    rw [List.mapM_cons, bind_of_ok hr, bind_of_ok hrs]
    rfl

namespace Frame

variable {f : Frame V} {x : String} {l : Local V}

theorem find?_eq_none_iff : f.find? x = none ↔ ∀ d ∈ f, d.1 ≠ x := by
  simp [find?]

theorem find?_eq_some_iff (hnames : (f.map Prod.fst).Nodup) : f.find? x = some l ↔ (x, l) ∈ f := by
  induction f with
  | nil => simp [find?]
  | cons d ds ih =>
    obtain ⟨hnot, hnames⟩ := List.nodup_cons.1 hnames
    have ih := ih hnames
    by_cases hx : d.1 = x
    · subst hx
      have hother : (d.1, l) ∉ ds := fun h => hnot (List.mem_map.2 ⟨_, h, rfl⟩)
      simp [find?, hother, Prod.ext_iff, eq_comm]
    · have hne : (x, l) ≠ d := by
        rintro rfl
        exact hx rfl
      simpa [find?, hx, hne] using ih

/-- The cells of a frame can as well be looked up by its heap-owned names. -/
theorem storages_eq_filterMap (hnames : (f.map Prod.fst).Nodup) (kept : String → Bool) :
    ((f.filter fun d => d.2.heap && kept d.1).map fun d => d.2.storage) =
      (f.heapNames.filter kept).filterMap fun x => (f.find? x).map Local.storage := by
  have hfound : ∀ d ∈ f.filter (fun d => d.2.heap && kept d.1),
      (f.find? d.1).map Local.storage = some d.2.storage := fun d hd => by
    rw [(find?_eq_some_iff hnames).2 (List.mem_of_mem_filter hd)]
    rfl
  have hkept : f.heapNames.filter kept = (f.filter fun d => d.2.heap && kept d.1).map Prod.fst := by
    rw [heapNames, List.filter_map, List.filter_filter]
    simp only [Function.comp_apply, Bool.and_comm]
  rw [hkept, List.filterMap_map, ← List.filterMap_eq_map]
  exact (List.filterMap_congr hfound).symm

theorem handles_eq_filterMap (hnames : (f.map Prod.fst).Nodup) :
    f.handles = f.heapNames.filterMap fun x => (f.find? x).map Local.storage := by
  simpa [handles] using storages_eq_filterMap hnames fun _ => true

end Frame

namespace Scopes

variable {s : Scopes V} {x : String} {i : Nat} {l : Local V}

/-- No frame has two declarations of one name. -/
def Distinct (s : Scopes V) : Prop := ∀ f ∈ s, (f.map Prod.fst).Nodup

theorem Distinct.apply (h : s.Distinct) (c : Change V) : (c.apply s).Distinct := by
  cases c with
  | push => exact List.forall_mem_cons.2 ⟨List.nodup_nil, h⟩
  | pop => exact fun f hf => h f (List.mem_of_mem_tail hf)
  | declare name l =>
    cases s with
    | nil => exact h
    | cons f fs =>
      obtain ⟨hf, hfs⟩ := List.forall_mem_cons.1 h
      simp only [Change.apply, Scopes.declare]
      cases hname : f.find? name with
      | some l' => exact h
      | none =>
        refine List.forall_mem_cons.2 ⟨List.nodup_cons.2 ⟨?_, hf⟩, hfs⟩
        rintro hmem
        obtain ⟨d, hd, rfl⟩ := List.mem_map.1 hmem
        exact Frame.find?_eq_none_iff.1 hname d hd rfl

theorem Distinct.after (h : s.Distinct) (cs : List (Change V)) : (s.after cs).Distinct := by
  induction cs generalizing s with
  | nil => exact h
  | cons c cs ih => exact ih (h.apply c)

theorem distinct_after (cs : List (Change V)) : (after [] cs).Distinct :=
  Distinct.after (fun _ hf => by cases hf) cs

theorem Distinct.releases_eq (h : s.Distinct) (spared : Option (Nat × String)) :
    s.releases spared = s.releasesByName spared := by
  induction s with
  | nil => rfl
  | cons f fs ih =>
    obtain ⟨hf, hfs⟩ := List.forall_mem_cons.1 h
    rw [releases, releasesByName, ih hfs]
    exact congrArg (· ++ _) (Frame.storages_eq_filterMap hf fun x => spared ≠ some (fs.length, x))

theorem lookup_eq_none_iff : s.lookup x = none ↔ ∀ f ∈ s, ∀ d ∈ f, d.1 ≠ x := by
  induction s with
  | nil => simp [lookup]
  | cons f fs ih =>
    rw [lookup, List.forall_mem_cons, ← ih, ← Frame.find?_eq_none_iff]
    cases f.find? x <;> simp

/-- A name stands for its declaration in the innermost frame that has one. -/
theorem lookup_eq_some_iff (h : s.Distinct) :
    s.lookup x = some (i, l) ↔ ∃ inner f outer,
      s = inner ++ f :: outer ∧ outer.length = i ∧ (x, l) ∈ f ∧
      ∀ g ∈ inner, ∀ d ∈ g, d.1 ≠ x := by
  induction s with
  | nil => simp [lookup]
  | cons f fs ih =>
    obtain ⟨hf, hfs⟩ := List.forall_mem_cons.1 h
    rw [lookup]
    cases hx : f.find? x with
    | some l' =>
      have hl' := (Frame.find?_eq_some_iff hf).1 hx
      constructor
      · rintro ⟨⟩
        exact ⟨[], f, fs, rfl, rfl, hl', by simp⟩
      · rintro ⟨_ | ⟨g, inner⟩, f', outer, hs, rfl, hl, hinner⟩
        · cases hs
          rw [(Frame.find?_eq_some_iff hf).2 hl] at hx
          cases hx
          rfl
        · cases hs
          exact absurd rfl (hinner f List.mem_cons_self _ hl')
    | none =>
      rw [Frame.find?_eq_none_iff] at hx
      rw [ih hfs]
      constructor
      · rintro ⟨inner, f', outer, rfl, hi, hl, hinner⟩
        exact ⟨f :: inner, f', outer, rfl, hi, hl, List.forall_mem_cons.2 ⟨hx, hinner⟩⟩
      · rintro ⟨_ | ⟨g, inner⟩, f', outer, hs, hi, hl, hinner⟩
        · cases hs
          exact absurd rfl (hx _ hl)
        · cases hs
          exact ⟨inner, f', outer, rfl, hi, hl, (List.forall_mem_cons.1 hinner).2⟩

theorem after_append (s : Scopes V) (cs ds : List (Change V)) :
    s.after (cs ++ ds) = (s.after cs).after ds :=
  List.foldl_append

/-- Frames further out are not touched until the frame is left. -/
theorem Matched.after_cons {cs : List (Change V)} (h : Matched cs) (f : Frame V) (s : Scopes V) :
    ∃ f', after (f :: s) cs = f' :: s := by
  induction h generalizing f s with
  | nil => exact ⟨f, rfl⟩
  | @declare cs name l _ ih =>
    have hone : ∃ g, (Change.declare name l).apply (f :: s) = g :: s := by
      simp only [Change.apply, Scopes.declare]
      cases f.find? name with
      | none => exact ⟨_, rfl⟩
      | some l' => exact ⟨_, rfl⟩
    obtain ⟨g, hg⟩ := hone
    obtain ⟨f', hf'⟩ := ih g s
    exact ⟨f', by rw [after, List.foldl_cons, hg]; exact hf'⟩
  | @nest cs ds _ _ ih ih' =>
    obtain ⟨g, hg⟩ := ih [] (f :: s)
    obtain ⟨f', hf'⟩ := ih' f s
    refine ⟨f', ?_⟩
    show after ([] :: f :: s) (cs ++ .pop :: ds) = f' :: s
    rw [after_append, hg]
    exact hf'

theorem Matched.after_scope {cs : List (Change V)} (h : Matched cs) (s : Scopes V) :
    s.after (.push :: (cs ++ [.pop])) = s := by
  obtain ⟨f, hf⟩ := h.after_cons [] s
  show after ([] :: s) (cs ++ [.pop]) = s
  rw [after_append, hf]
  rfl

/-- A declaration is spared in its own frame only. -/
theorem releases_append (inner : Scopes V) (h : i < s.length) :
    releases (some (i, x)) (inner ++ s) = releases none inner ++ releases (some (i, x)) s := by
  induction inner with
  | nil => rfl
  | cons f inner ih =>
    have hi : i ≠ inner.length + s.length := by omega
    simp [releases, hi, ih]

theorem releases_spared {newer older : Frame V}
    (hnames : ((newer ++ (x, l) :: older).map Prod.fst).Nodup) (outer : Scopes V) :
    releases (some (outer.length, x)) ((newer ++ (x, l) :: older) :: outer) =
      newer.handles ++ (older.handles ++ releases none outer) := by
  rw [List.map_append, List.map_cons, List.nodup_append, List.nodup_cons] at hnames
  obtain ⟨-, ⟨holder, -⟩, hnewer⟩ := hnames
  have hne : ∀ d : String × Local V, d ∈ newer ∨ d ∈ older → x ≠ d.1 := by
    rintro d (hd | hd) rfl
    · exact hnewer d.1 (List.mem_map_of_mem hd) d.1 List.mem_cons_self rfl
    · exact holder (List.mem_map.2 ⟨d, hd, rfl⟩)
  have hkeep : ∀ g : Frame V, (∀ d ∈ g, x ≠ d.1) →
      (g.filter fun d => d.2.heap && some (outer.length, x) ≠ some (outer.length, d.1)) =
        g.filter fun d => d.2.heap :=
    fun g hg => List.filter_congr fun d hd => by simp [hg d hd]
  rw [releases, releases_of_le x le_rfl, List.filter_append, List.filter_cons_of_neg (by simp),
    hkeep newer fun d hd => hne d (.inl hd), hkeep older fun d hd => hne d (.inr hd),
    List.map_append, List.append_assoc]
  rfl

theorem exists_declare_iff :
    (∃ s', s.declare x l = .ok s') ↔ ∃ f fs, s = f :: fs ∧ ∀ d ∈ f, d.1 ≠ x := by
  cases s with
  | nil => simp [Scopes.declare]
  | cons f fs =>
    rw [Scopes.declare]
    cases hx : f.find? x with
    | none => simpa using Frame.find?_eq_none_iff.1 hx
    | some l' =>
      have hnone : ¬∀ d ∈ f, d.1 ≠ x := by rw [← Frame.find?_eq_none_iff, hx]; simp
      simpa using hnone

theorem eq_of_declare {s' : Scopes V} (h : s.declare x l = .ok s') :
    ∃ (f : Frame V) (fs : Scopes V), s = f :: fs ∧ s' = ((x, l) :: f) :: fs := by
  obtain ⟨f, fs, rfl, hx⟩ := exists_declare_iff.1 ⟨s', h⟩
  rw [Scopes.declare, Frame.find?_eq_none_iff.2 hx] at h
  cases h
  exact ⟨f, fs, rfl, rfl⟩

theorem lookup_declared (f : Frame V) (fs : Scopes V) (y : String) :
    lookup (((x, l) :: f) :: fs) y = if x = y then some (fs.length, l) else lookup (f :: fs) y := by
  split
  · next h => simp [lookup, Frame.find?, h]
  · next h => simp [lookup, Frame.find?, h]

/-- What one can rely on in a stack of frames. -/
structure Laws (s : Scopes V) : Prop where
  /-- A name stands for its declaration in the innermost frame that has one. -/
  found : ∀ x i l, s.lookup x = some (i, l) ↔ ∃ (inner : Scopes V) (f : Frame V) (outer : Scopes V),
    s = inner ++ f :: outer ∧ outer.length = i ∧ (x, l) ∈ f ∧ ∀ g ∈ inner, ∀ d ∈ g, d.1 ≠ x
  unknown : ∀ x, s.lookup x = none ↔ ∀ f ∈ s, ∀ d ∈ f, d.1 ≠ x
  /-- A name can be declared once in the innermost frame. Then it stands for that declaration, and
  nothing else changes. -/
  declared : ∀ x l, ((∃ s', s.declare x l = .ok s') ↔ ∃ f fs, s = f :: fs ∧ ∀ d ∈ f, d.1 ≠ x) ∧
    ∀ s', s.declare x l = .ok s' → s'.lookup x = some (s.length - 1, l) ∧
      (∀ y, y ≠ x → s'.lookup y = s.lookup y) ∧
      s'.releases none = (if l.heap then [l.storage] else []) ++ s.releases none
  /-- What is done between entering a scope and leaving it does not outlast it. -/
  restored : ∀ inside,
    Matched inside → (∀ x, (s.after (.push :: (inside ++ [.pop]))).lookup x = s.lookup x) ∧
    ∀ spared, (s.after (.push :: (inside ++ [.pop]))).releases spared = s.releases spared
  /-- What the frames own is released from the innermost outward, the order in which they are
  left. -/
  released : s.releases none = s.flatMap Frame.handles
  /-- A frame owns the cells that its heap-owned names stand for. -/
  owned : ∀ f ∈ s, f.heapNames.Nodup ∧ f.handles = f.heapNames.filterMap fun x =>
    (f.find? x).map Local.storage
  /-- What is released is looked up by the same names, whatever is spared. -/
  named : ∀ spared, s.releases spared = s.releasesByName spared
  /-- To spare the declaration that a name stands for leaves out its one handle, whatever is
  declared or equal elsewhere. -/
  spared : ∀ x i l, s.lookup x = some (i, l) → l.heap = true →
    ∃ (inner : Scopes V) (newer older : Frame V) (outer : Scopes V),
      s = inner ++ (newer ++ (x, l) :: older) :: outer ∧ outer.length = i ∧
      s.releases none = inner.flatMap Frame.handles ++ newer.handles ++
        l.storage :: (older.handles ++ outer.flatMap Frame.handles) ∧
      s.releases (some (i, x)) = inner.flatMap Frame.handles ++ newer.handles ++
        (older.handles ++ outer.flatMap Frame.handles)

theorem Distinct.spared (h : s.Distinct) (hlookup : s.lookup x = some (i, l))
    (hheap : l.heap = true) :
    ∃ (inner : Scopes V) (newer older : Frame V) (outer : Scopes V),
      s = inner ++ (newer ++ (x, l) :: older) :: outer ∧ outer.length = i ∧
      s.releases none = inner.flatMap Frame.handles ++ newer.handles ++
        l.storage :: (older.handles ++ outer.flatMap Frame.handles) ∧
      s.releases (some (i, x)) = inner.flatMap Frame.handles ++ newer.handles ++
        (older.handles ++ outer.flatMap Frame.handles) := by
  obtain ⟨inner, f, outer, rfl, rfl, hmem, -⟩ := (lookup_eq_some_iff h).1 hlookup
  obtain ⟨newer, older, rfl⟩ := List.append_of_mem hmem
  have hnames := h (newer ++ (x, l) :: older) (by simp)
  refine ⟨inner, newer, older, outer, rfl, rfl, ?_, ?_⟩
  · simp [releases_none, Frame.handles, hheap]
  · rw [releases_append inner (by simp), releases_spared hnames, releases_none, releases_none,
      List.append_assoc]

theorem Distinct.laws (h : s.Distinct) : s.Laws := by
  refine ⟨fun x i l => lookup_eq_some_iff h, fun x => lookup_eq_none_iff,
    fun x l => ⟨exists_declare_iff, fun s' hs' => ?_⟩, fun inside hinside => ?_, releases_none s,
    fun f hf => ⟨?_, ?_⟩, h.releases_eq, fun x i l => h.spared⟩
  · obtain ⟨f, fs, rfl, rfl⟩ := eq_of_declare hs'
    refine ⟨?_, fun y hy => ?_, ?_⟩
    · rw [lookup_declared, if_pos rfl]
      rfl
    · rw [lookup_declared, if_neg (Ne.symm hy)]
    · cases hheap : l.heap <;> simp [releases, hheap]
  · rw [hinside.after_scope]
    exact ⟨fun _ => rfl, fun _ => rfl⟩
  · exact (h f hf).sublist (List.filter_sublist.map Prod.fst)
  · exact Frame.handles_eq_filterMap (h f hf)

/-- The laws hold of every stack that entering, leaving and declaring can build, in any order and
with any of it refused. These are the changes that the steps of lowering make, tried one after the
other. -/
theorem scope_laws :
    (∀ {V : Type} (cs : List (Change V)), Laws (after [] cs)) ∧
      ∀ {σ : Type} (cs : List (Change Value)) (s : Lowering σ),
        ∃ rs, (cs.mapM fun c => Lower.attempt c.step) s =
          .ok rs { s with scopes := s.scopes.after cs } :=
  ⟨fun cs => (distinct_after cs).laws, attempt_steps⟩

/-- A name that is heap-owned in two frames, with the same handle in both and once more in a third
place. -/
theorem scope_laws_shadowed :
    let cell : Local Nat := ⟨7, .pointer .int, true⟩
    let s : Scopes Nat := after [] [.push, .declare "p" cell, .declare "q" cell,
      .declare "p" ⟨8, .plain .int, false⟩, .push,
      .declare "p" cell]
    s.lookup "p" = some (1, cell) ∧ s.releases none = [7, 7, 7] ∧
      ∃ (inner : Scopes Nat) (newer older : Frame Nat) (outer : Scopes Nat),
        s = inner ++ (newer ++ ("p", cell) :: older) :: outer ∧ outer.length = 1 ∧
        s.releases none = inner.flatMap Frame.handles ++ newer.handles ++
          cell.storage :: (older.handles ++ outer.flatMap Frame.handles) ∧
        s.releases (some (1, "p")) = inner.flatMap Frame.handles ++ newer.handles ++
          (older.handles ++ outer.flatMap Frame.handles) := by
  intro cell s
  exact ⟨rfl, rfl, (scope_laws.1 _).spared "p" 1 cell rfl rfl⟩

end Scopes

end ImpFront
