import ImpFront.Lower.Fault

/-! Lexical scopes: a stack of frames, the innermost first. A frame holds its declarations with the
last one first, which is the order in which their heap cells are released. -/

namespace ImpFront

/-- What a name stands for. The storage of a pointer is the pointer itself. -/
structure Local (V : Type) where
  storage : V
  ty : Ty
  /-- Whether the frame owns the heap cell behind the storage. -/
  heap : Bool
  deriving DecidableEq, Repr

abbrev Frame (V : Type) := List (String × Local V)

abbrev Scopes (V : Type) := List (Frame V)

variable {V : Type}

namespace Frame

def find? (f : Frame V) (name : String) : Option (Local V) :=
  (List.find? (fun d => d.1 = name) f).map Prod.snd

/-- The heap cells that the frame owns, in release order. -/
def handles (f : Frame V) : List V := (f.filter fun d => d.2.heap).map fun d => d.2.storage

end Frame

namespace Scopes

/-- The innermost declaration of a name, with the number of frames around its own. -/
def lookup : Scopes V → String → Option (Nat × Local V)
  | [], _ => none
  | f :: fs, name =>
    match f.find? name with
    | some l => some (fs.length, l)
    | none => Scopes.lookup fs name

/-- Whether the innermost frame declares the name. -/
def isDeclared (s : Scopes V) (name : String) : Bool := s.head?.any fun f => (f.find? name).isSome

/-- Declares a name in the innermost frame. It may hide declarations of outer frames only. -/
def declare (s : Scopes V) (name : String) (l : Local V) : Except Fault (Scopes V) :=
  match s with
  | [] => .error (.internal "Attempted to access empty scope stack")
  | f :: fs =>
    if (f.find? name).isSome then .error (.redeclared name) else .ok (((name, l) :: f) :: fs)

/-- The heap cells of all frames in release order, but for one spared declaration. -/
def releases (spared : Option (Nat × String)) : Scopes V → List V
  | [] => []
  | f :: fs =>
    ((f.filter fun d => d.2.heap && spared ≠ some (fs.length, d.1)).map fun d => d.2.storage) ++
      Scopes.releases spared fs

theorem releases_none (s : Scopes V) : releases none s = s.flatMap Frame.handles := by
  induction s with
  | nil => rfl
  | cons f fs ih => simp [releases, Frame.handles, ih]

theorem index_lt_of_lookup {s : Scopes V} {name : String} {index : Nat} {l : Local V}
    (h : s.lookup name = some (index, l)) : index < s.length := by
  induction s with
  | nil => simp [lookup] at h
  | cons f fs ih =>
    rw [lookup] at h
    split at h
    · simp only [Option.some.injEq, Prod.mk.injEq] at h
      obtain ⟨rfl, -⟩ := h
      simp
    · exact Nat.lt_succ_of_lt (ih h)

end Scopes

end ImpFront
