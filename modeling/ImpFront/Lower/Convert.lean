import ImpFront.Lower.Basic

/-! Conversions of lowered values. Pointers are read where plain data is wanted, comparisons count
as integers, and integers and doubles turn into each other. A pointer is wanted only where one of
the same pointee is given. -/

namespace ImpFront

namespace Lower

variable {σ : Type} [Emitter σ]

/-- Reads the cell behind a pointer. -/
def deref (t : Typed) : Lower σ Typed :=
  match t.ty with
  | .pointer p => return ⟨← emit (.load p t.value), .plain p⟩
  | _ => return t

/-- Plain data and its kind. -/
def toPrim (t : Typed) : Lower σ (Value × Prim) := do
  let t ← deref t
  match t.ty with
  | .bool => return (← emit (.cast .boolToInt t.value), .int)
  | .plain p => return (t.value, p)
  | .pointer p => return (t.value, p)

/-- Plain data of the given kind. Nothing is written if the value is of that kind already. -/
def coerce (t : Typed) (target : Prim) : Lower σ Value := do
  let (value, p) ← toPrim t
  match p, target with
  | .int, .double => emit (.cast .intToDouble value)
  | .double, .int => emit (.cast .doubleToInt value)
  | _, _ => return value

/-- The value where the given type is declared. -/
def coerceTo (pos : Nat) (t : Typed) (target : Ty) : Lower σ Value :=
  match target with
  | .plain p => coerce t p
  | .pointer p =>
    if t.ty = .pointer p then pure t.value else fail pos (.incompatiblePointer t.ty target)

def zero : Prim → Lower σ Value
  | .int => emit (.constInt 0)
  | .double => emit (.constDouble .zero)

/-- The value as a branch condition: what is not zero is true. -/
def condition (t : Typed) : Lower σ Value := do
  let t ← deref t
  match t.ty with
  | .bool => return t.value
  | _ =>
    let (value, p) ← toPrim t
    let z ← zero p
    emit (.compare .ne p value z)

/-- A fresh heap cell with the content of another. -/
def copyToHeap (p : Prim) (ptr : Value) : Lower σ Value := do
  let cell ← emit (.heapAlloc p "result")
  let value ← emit (.load p ptr)
  emit (.store value cell)
  return cell

end Lower

end ImpFront
