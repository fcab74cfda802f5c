import ImpFront.Code.Instr

/-! Modules: functions made of labelled blocks of instructions. A function without blocks is only
declared. -/

namespace ImpFront

structure BasicBlock where
  label : String
  code : List Instr
  deriving DecidableEq, Repr

namespace BasicBlock

/-- Whether the last instruction is a terminator, comments aside. -/
def isTerminated (b : BasicBlock) : Bool :=
  (b.code.filter fun i => !i.isComment).getLast?.any Instr.isTerminator

def text (b : BasicBlock) : String :=
  b.label ++ ":\n" ++ String.join (b.code.map fun i => "    " ++ i.text ++ "\n")

end BasicBlock

structure Func where
  name : String
  signature : Signature
  blocks : List BasicBlock
  /-- How many registers are in use. -/
  registers : Nat
  deriving DecidableEq, Repr

namespace Func

def isDeclaration (f : Func) : Bool := f.blocks.isEmpty

def block? (f : Func) (label : String) : Option BasicBlock :=
  f.blocks.find? fun b => b.label = label

def code (f : Func) : List Instr := f.blocks.flatMap BasicBlock.code

/-- The instruction that defines a register. -/
def definition? (f : Func) (r : Reg) : Option Instr := f.code.find? fun i => i.dst? = some r

/-- Appends an instruction to a block, if there is such a block. -/
def append (b : BlockId) (i : Instr) (f : Func) : Func :=
  { f with blocks := f.blocks.modify b.index fun block => { block with code := block.code ++ [i] } }

def addRegister (f : Func) : Func := { f with registers := f.registers + 1 }

def text (f : Func) : String :=
  (if f.isDeclaration then "declare " else "define ") ++ f.signature.ret.keyword ++ " " ++ f.name ++
    "(" ++ ", ".intercalate (f.signature.params.map Ty.keyword) ++ ")" ++
    (if f.isDeclaration then "\n"
    else " \x7b\n" ++ String.join (f.blocks.map BasicBlock.text) ++ "\x7d\n")

end Func

structure Module where
  functions : List Func
  deriving DecidableEq, Repr

namespace Module

def function? (m : Module) (name : String) : Option Func := m.functions.find? fun f => f.name = name

def text (m : Module) : String := "\n".intercalate (m.functions.map Func.text)

end Module

end ImpFront
