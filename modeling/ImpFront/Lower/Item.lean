import ImpFront.Lower.Stmt

/-! Lowering of items. A function that cannot be lowered leaves no body behind; if it was declared
before, earlier calls may refer to it, and the declaration stays. -/

namespace ImpFront

open Lower

variable {σ : Type} [Emitter σ]

namespace Lower

/-- Binds the parameters from number `index` on. Plain data moves to the stack, so that it can be
assigned to. -/
def bindParams (f : FunctionId) (index : Nat) : List Param → Lower σ Unit
  | [] => pure ()
  | p :: ps => do
    let value ← emit (.functionParam f index)
    let storage ← match p.ty with
      | .pointer _ => pure value
      | .plain q => do
        let slot ← emit (.stackAlloc q p.name)
        emit (.store value slot)
        pure slot
    declare p.pos p.name ⟨storage, p.ty, false⟩
    bindParams f (index + 1) ps

/-- The end of a body that control may reach: plain data falls back to zero, a pointer has no such
value. -/
def fallOff (ret : Ty) : Lower σ Unit := do
  unless ← emit .isTerminated do
    let frame ← popScope
    release (Frame.handles frame)
    match ret with
    | .pointer _ => emit .unreachable
    | .plain p =>
      let z ← zero p
      emit (.ret z)

/-- Forgets all that belongs to the function before. -/
def enter (current : Option Current) : Lower σ Unit := fun s =>
  .ok () { s with current, scopes := [], temporaries := [] }

end Lower

namespace Definition

def lowerBody (d : Definition) (f : FunctionId) : Lower σ Unit := do
  let entry ← emit (.appendBlock f "entry")
  emit (.positionAtEnd entry)
  comment ("function " ++ d.prototype.print)
  pushScope
  bindParams f 0 d.prototype.params
  Stmt.lowerList d.body.statements
  fallOff d.prototype.ret

def lower (d : Definition) : Lower σ FunctionId := do
  let p := d.prototype
  if ← isDefined p.name then fail p.pos (.functionRedefined p.name)
  else
    register p
    let declared := (← emit (.getFunction p.name)).isSome
    let f ← functionHandle p.pos p.name
    enter (some ⟨f, p.ret⟩)
    let outcome ← attempt (d.lowerBody f)
    enter none
    match outcome with
    | .ok () =>
      setDefined p.name
      return f
    | .error e =>
      if declared then emit (.clearBody f) else emit (.discardFunction f)
      raise e

end Definition

/-- An external function is only made known; it is declared in the target when it is first
called. -/
def Item.lower : Item → Lower σ Unit
  | .external p => register p
  | .definition d => do
    let _ ← d.lower

end ImpFront
