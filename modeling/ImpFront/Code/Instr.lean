import ImpFront.Ty
import ImpFront.Number.Shortest

/-! Instructions and their operands. A register is defined once, by the instruction that it is the
destination of. -/

namespace ImpFront

inductive HandleKind where
  | function
  | block
  | register
  deriving DecidableEq, Repr

def HandleKind.name : HandleKind → String
  | .function => "FunctionId"
  | .block => "BlockId"
  | .register => "Reg"

/-- A number that names a function of a module, a block of a function or a register of a
function. -/
structure Handle (kind : HandleKind) where
  index : Nat
  deriving DecidableEq, Repr

abbrev FunctionId := Handle .function

abbrev BlockId := Handle .block

abbrev Reg := Handle .register

namespace Handle

/-- Handles are kept in a nonzero machine word, one above their index. -/
def limit : Nat := Nat.pow 2 64 - 1

def ofIndex? (kind : HandleKind) (index : Nat) : Option (Handle kind) :=
  if index < limit then some ⟨index⟩ else none

def describe {kind : HandleKind} (h : Handle kind) : String :=
  kind.name ++ "(" ++ toString h.index ++ ")"

end Handle

def Reg.text (r : Reg) : String := "%" ++ toString r.index

/-- A block of a function. Neither need exist. -/
structure BlockRef where
  function : FunctionId
  block : BlockId
  deriving DecidableEq, Repr

/-- An operand. -/
inductive Value where
  | reg (r : Reg)
  | int (value : Word)
  | double (value : Double)
  | arg (index : Nat)
  deriving DecidableEq, Repr

def Value.text : Value → String
  | .reg r => r.text
  | .int value => toString value.toInt
  | .double value => value.text
  | .arg index => "%arg" ++ toString index

def Value.listText (vs : List Value) : String := ", ".intercalate (vs.map Value.text)

inductive Arith where
  | add
  | sub
  | mul
  deriving DecidableEq, Repr

def Arith.text : Arith → String
  | .add => "add"
  | .sub => "sub"
  | .mul => "mul"

inductive Predicate where
  | lt
  | ne
  deriving DecidableEq, Repr

def Predicate.text : Predicate → String
  | .lt => "lt"
  | .ne => "ne"

/-- Conversions. Integers count as unsigned. -/
inductive Cast where
  | intToDouble
  | doubleToInt
  | boolToInt
  deriving DecidableEq, Repr

def Cast.text : Cast → String
  | .intToDouble => "uitofp"
  | .doubleToInt => "fptoui"
  | .boolToInt => "zext"

inductive Instr where
  | comment (text : String)
  | stackAlloc (dst : Reg) (ty : Prim) (name : String)
  | heapAlloc (dst : Reg) (ty : Prim) (name : String)
  | heapFree (ptr : Value)
  | load (dst : Reg) (ty : Prim) (ptr : Value)
  | store (value ptr : Value)
  | arith (dst : Reg) (op : Arith) (ty : Prim) (left right : Value)
  | compare (dst : Reg) (predicate : Predicate) (ty : Prim) (left right : Value)
  | cast (dst : Reg) (kind : Cast) (value : Value)
  | call (dst : Reg) (callee : String) (args : List Value)
  | branch (target : String)
  | condBranch (cond : Value) (yes no : String)
  | ret (value : Value)
  | unreachable
  deriving DecidableEq, Repr

namespace Instr

def isComment : Instr → Bool
  | .comment _ => true
  | _ => false

/-- Whether control leaves the block here. -/
def isTerminator : Instr → Bool
  | .branch _ | .condBranch .. | .ret _ | .unreachable => true
  | _ => false

/-- The register that the instruction defines. -/
def dst? : Instr → Option Reg
  | .stackAlloc dst .. | .heapAlloc dst .. | .load dst .. | .arith dst .. | .compare dst ..
  | .cast dst .. | .call dst .. => some dst
  | _ => none

def text : Instr → String
  | .comment text => "; " ++ text
  | .stackAlloc dst ty name => dst.text ++ " = alloca " ++ ty.text ++ " ; " ++ name
  | .heapAlloc dst ty name => dst.text ++ " = malloc " ++ ty.text ++ " ; " ++ name
  | .heapFree ptr => "free " ++ ptr.text
  | .load dst ty ptr => dst.text ++ " = load " ++ ty.text ++ ", " ++ ptr.text
  | .store value ptr => "store " ++ value.text ++ ", " ++ ptr.text
  | .arith dst op ty left right =>
    dst.text ++ " = " ++ op.text ++ " " ++ ty.text ++ " " ++ left.text ++ ", " ++ right.text
  | .compare dst predicate ty left right =>
    dst.text ++ " = cmp " ++ predicate.text ++ " " ++ ty.text ++ " " ++ left.text ++ ", " ++
      right.text
  | .cast dst kind value => dst.text ++ " = " ++ kind.text ++ " " ++ value.text
  | .call dst callee args => dst.text ++ " = call " ++ callee ++ "(" ++ Value.listText args ++ ")"
  | .branch target => "br %" ++ target
  | .condBranch cond yes no => "br " ++ cond.text ++ ", %" ++ yes ++ ", %" ++ no
  | .ret value => "ret " ++ value.text
  | .unreachable => "unreachable"

end Instr

end ImpFront
