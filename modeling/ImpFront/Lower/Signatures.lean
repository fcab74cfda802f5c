import ImpFront.Lower.Fault
import ImpFront.Tree.Basic

/-! The functions that are known by name. A signature, once known, never changes. -/

namespace ImpFront

structure Signatures where
  entries : List (String × Signature)
  /-- The functions whose body was lowered. -/
  defined : List String
  deriving DecidableEq, Repr

namespace Signatures

def empty : Signatures := ⟨[], []⟩

def find? (s : Signatures) (name : String) : Option Signature :=
  (s.entries.find? fun e => e.1 = name).map Prod.snd

/-- Adds a function, or finds that its signature is the known one. -/
def register (s : Signatures) (name : String) (signature : Signature) : Except Fault Signatures :=
  match s.find? name with
  | some known => if known = signature then .ok s else .error (.conflictingPrototype name)
  | none => .ok { s with entries := (name, signature) :: s.entries }

def isDefined (s : Signatures) (name : String) : Bool := name ∈ s.defined

def setDefined (s : Signatures) (name : String) : Signatures :=
  { s with defined := name :: s.defined }

theorem find?_register {s s' : Signatures} {name : String} {signature : Signature}
    (h : s.register name signature = .ok s') (other : String) :
    s'.find? other = if other = name then some signature else s.find? other := by
  unfold register at h
  split at h
  · rename_i known hk
    split at h
    · cases h
      by_cases ho : other = name
      · simp_all
      · simp [ho]
    · cases h
  · cases h
    by_cases ho : other = name
    · simp [find?, ho]
    · simp [find?, ho, Ne.symm ho]

end Signatures

end ImpFront
