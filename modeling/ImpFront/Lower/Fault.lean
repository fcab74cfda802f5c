import ImpFront.Ty

/-! What is wrong with a program that reads well but cannot be lowered. -/

namespace ImpFront

inductive Fault where
  | redeclared (name : String)
  | unknownVariable (name : String)
  | unknownFunction (name : String)
  | argumentCount (name : String) (expected given : Nat)
  | incompatiblePointer (source : ValTy) (target : Ty)
  | functionRedefined (name : String)
  | conflictingPrototype (name : String)
  /-- A state that no program leads to. -/
  | internal (cause : String)
  deriving DecidableEq, Repr

def Fault.message : Fault → String
  | .redeclared name => "Redeclared variable '" ++ name ++ "'"
  | .unknownVariable name => "Unknown variable '" ++ name ++ "'"
  | .unknownFunction name => "Unknown function '" ++ name ++ "'"
  | .argumentCount name expected given =>
    "Incorrect number of arguments for '" ++ name ++ "': expected " ++ toString expected ++
      ", got " ++ toString given
  | .incompatiblePointer source target =>
    "Incompatible pointer cast from " ++ source.text ++ " to " ++ target.keyword
  | .functionRedefined name => "Function '" ++ name ++ "' is already defined"
  | .conflictingPrototype name =>
    "Prototype of '" ++ name ++ "' conflicts with a previous declaration"
  | .internal cause => "Internal compiler error: " ++ cause

structure LowerError where
  fault : Fault
  pos : Nat
  deriving DecidableEq, Repr

end ImpFront
