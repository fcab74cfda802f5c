import ImpFront.Code.Op
import ImpFront.Lower.Scope
import ImpFront.Lower.Signatures

/-! The state of lowering and its elementary steps. A failed step keeps what was done before it. -/

namespace ImpFront

/-- The function whose body is lowered. -/
structure Current where
  function : FunctionId
  ret : Ty
  deriving DecidableEq, Repr

structure Lowering (σ : Type) where
  /-- What the code is written to. -/
  target : σ
  signatures : Signatures
  scopes : Scopes Value
  current : Option Current
  /-- Heap cells returned by calls of the current statement, the last first. The statement has to
  release them. -/
  temporaries : List Value

def Lowering.ofTarget {σ : Type} (target : σ) : Lowering σ := ⟨target, .empty, [], none, []⟩

abbrev Lower (σ : Type) := EStateM LowerError (Lowering σ)

/-- A lowered value and its type. -/
structure Typed where
  value : Value
  ty : ValTy
  deriving DecidableEq, Repr

namespace Lower

variable {σ : Type}

def raise {α : Type} (e : LowerError) : Lower σ α := fun s => .error e s

def fail {α : Type} (pos : Nat) (fault : Fault) : Lower σ α := raise ⟨fault, pos⟩

/-- Runs a step to its end and hands out its error. -/
def attempt {α : Type} (x : Lower σ α) : Lower σ (Except LowerError α) := fun s =>
  match x s with
  | .ok a s' => .ok (.ok a) s'
  | .error e s' => .ok (.error e) s'

def emit [Emitter σ] {α : Type} (op : Op α) : Lower σ α := fun s =>
  match Emitter.perform op s.target with
  | .ok a t => .ok a { s with target := t }
  | .error _ t => .error ⟨.internal NoInsertionBlock.message, 0⟩ { s with target := t }

def comment [Emitter σ] (text : String) : Lower σ Unit := emit (.comment text)

def current : Lower σ Current := fun s =>
  match s.current with
  | some c => .ok c s
  | none => .error ⟨.internal "No current function", 0⟩ s

def scopes : Lower σ (Scopes Value) := fun s => .ok s.scopes s

def pushScope : Lower σ Unit := fun s => .ok () { s with scopes := [] :: s.scopes }

def popScope : Lower σ (Frame Value) := fun s =>
  match s.scopes with
  | f :: fs => .ok f { s with scopes := fs }
  | [] => .error ⟨.internal "Attempted to access empty scope stack", 0⟩ s

def declare (pos : Nat) (name : String) (l : Local Value) : Lower σ Unit := fun s =>
  match s.scopes.declare name l with
  | .ok scopes => .ok () { s with scopes }
  | .error fault => .error ⟨fault, pos⟩ s

/-- The innermost declaration of a variable. -/
def resolve (pos : Nat) (name : String) : Lower σ (Local Value) := fun s =>
  match s.scopes.lookup name with
  | some (_, l) => .ok l s
  | none => .error ⟨.unknownVariable name, pos⟩ s

def signatureOf (pos : Nat) (name : String) : Lower σ Signature := fun s =>
  match s.signatures.find? name with
  | some signature => .ok signature s
  | none => .error ⟨.unknownFunction name, pos⟩ s

def register (p : Prototype) : Lower σ Unit := fun s =>
  match s.signatures.register p.name p.signature with
  | .ok signatures => .ok () { s with signatures }
  | .error fault => .error ⟨fault, p.pos⟩ s

def isDefined (name : String) : Lower σ Bool := fun s => .ok (s.signatures.isDefined name) s

def setDefined (name : String) : Lower σ Unit := fun s =>
  .ok () { s with signatures := s.signatures.setDefined name }

def pushTemporary (v : Value) : Lower σ Unit :=
  fun s => .ok () { s with temporaries := v :: s.temporaries }

/-- Hands the last temporary on to the caller. -/
def dropTemporary : Lower σ Unit := fun s => .ok () { s with temporaries := s.temporaries.tail }

def takeTemporaries : Lower σ (List Value) :=
  fun s => .ok s.temporaries { s with temporaries := [] }

/-- The function of that name in the target, declared now if it is not there yet. -/
def functionHandle [Emitter σ] (pos : Nat) (name : String) : Lower σ FunctionId := do
  match ← emit (.getFunction name) with
  | some f => return f
  | none =>
    let signature ← signatureOf pos name
    emit (.declareFunction name signature)

/-- Releases heap cells in the given order. -/
def release [Emitter σ] : List Value → Lower σ Unit
  | [] => pure ()
  | v :: vs => do
    emit (.heapFree v)
    release vs

/-- Releases the temporaries of the current statement. -/
def releaseTemporaries [Emitter σ] : Lower σ Unit := do
  let cells ← takeTemporaries
  unless cells.isEmpty do
    comment ("release " ++ toString cells.length ++ " returned heap cells")
  release cells

end Lower

end ImpFront
