/-! The types of the language. Plain data is a 32-bit integer or a double; a pointer type names a
heap cell that holds plain data and is spelled with a capital letter. -/

namespace ImpFront

/-- What a cell of plain data holds. -/
inductive Prim where
  | int
  | double
  deriving DecidableEq, Repr

/-- A declared type: plain data, or a pointer to a heap cell of plain data. -/
inductive Ty where
  | plain (p : Prim)
  | pointer (p : Prim)
  deriving DecidableEq, Repr

/-- The type of a lowered value. A comparison gives a `bool`, which no declaration can name. -/
inductive ValTy where
  | plain (p : Prim)
  | bool
  | pointer (p : Prim)
  deriving DecidableEq, Repr

/-- What a caller has to know of a function. -/
structure Signature where
  params : List Ty
  ret : Ty
  deriving DecidableEq, Repr

def Prim.text : Prim → String
  | .int => "i32"
  | .double => "f64"

namespace Ty

def isPointer : Ty → Bool
  | .plain _ => false
  | .pointer _ => true

/-- The plain data itself, or what the cell behind the pointer holds. -/
def prim : Ty → Prim
  | .plain p => p
  | .pointer p => p

def keyword : Ty → String
  | .plain .int => "int"
  | .plain .double => "double"
  | .pointer .int => "Int"
  | .pointer .double => "Double"

def ofKeyword? (word : String) : Option Ty :=
  if word = "int" then some (.plain .int)
  else if word = "double" then some (.plain .double)
  else if word = "Int" then some (.pointer .int)
  else if word = "Double" then some (.pointer .double)
  else none

theorem ofKeyword?_keyword (ty : Ty) : ofKeyword? ty.keyword = some ty := by
  cases ty with
  | plain p => cases p <;> decide
  | pointer p => cases p <;> decide

theorem ofKeyword?_eq_some_iff {word : String} {ty : Ty} :
    ofKeyword? word = some ty ↔ word = ty.keyword := by
  constructor
  · intro h
    unfold ofKeyword? at h
    repeat' split at h
    all_goals simp_all [keyword] <;> subst h <;> rfl
  · rintro rfl
    exact ofKeyword?_keyword ty

end Ty

namespace ValTy

def ofTy : Ty → ValTy
  | .plain p => .plain p
  | .pointer p => .pointer p

def text : ValTy → String
  | .plain p => (Ty.plain p).keyword
  | .bool => "bool"
  | .pointer p => (Ty.pointer p).keyword

end ValTy

end ImpFront
