import Mathlib
import ImpFront.Proofs.Growth

/-! What recorded code does when it runs. Called functions, the arithmetic of doubles and the first
content of new storage are given from outside. A heap cell keeps its content when it is released;
that no code uses it afterwards is a matter of the rules for the heap. -/

namespace ImpFront

/-- Data at run time: plain data, a truth value, the address of a heap cell or of a stack slot. -/
inductive Datum where
  | int (value : Word)
  | double (value : Double)
  | bool (value : Bool)
  | cell (address : Nat)
  | slot (address : Nat)
  deriving DecidableEq, Repr

/-- Called functions share the heap; the slots belong to one run of a function. -/
structure Memory where
  slots : List Datum
  heap : List Datum
  deriving DecidableEq, Repr

/-- What is given from outside. A call takes the arguments and the heap to a result and a heap. -/
structure World where
  call : String → List Datum → List Datum → Datum × List Datum
  add : Double → Double → Double
  sub : Double → Double → Double
  mul : Double → Double → Double
  less : Double → Double → Bool
  differ : Double → Double → Bool
  ofNat : Nat → Double
  toNat : Double → Nat
  newInt : Memory → Word
  newDouble : Memory → Double

namespace Datum

def hasPrim : Prim → Datum → Bool
  | .int, .int _ | .double, .double _ => true
  | _, _ => false

/-- Plain data, or a heap cell for a pointer. -/
def hasTy : Ty → Datum → Bool
  | .plain p, v => v.hasPrim p
  | .pointer _, .cell _ => true
  | .pointer _, _ => false

end Datum

namespace Memory

def content? (m : Memory) : Datum → Option Datum
  | .cell a => m.heap[a]?
  | .slot a => m.slots[a]?
  | _ => none

/-- What is found at an address that has to hold data of a kind. -/
def read? (m : Memory) (p : Prim) (a : Datum) : Option Datum :=
  (m.content? a).filter (Datum.hasPrim p)

def write? (m : Memory) (v : Datum) : Datum → Option Memory
  | .cell a => if a < m.heap.length then some { m with heap := m.heap.set a v } else none
  | .slot a => if a < m.slots.length then some { m with slots := m.slots.set a v } else none
  | _ => none

/-- A new slot, and the memory with it. -/
def pushSlot (m : Memory) (v : Datum) : Datum × Memory :=
  (.slot m.slots.length, { m with slots := m.slots ++ [v] })

def pushCell (m : Memory) (v : Datum) : Datum × Memory :=
  (.cell m.heap.length, { m with heap := m.heap ++ [v] })

end Memory

namespace World

/-- The first content of new storage. -/
def fresh (W : World) (m : Memory) : Prim → Datum
  | .int => .int (W.newInt m)
  | .double => .double (W.newDouble m)

def arith (W : World) : Arith → Prim → Datum → Datum → Option Datum
  | .add, .int, .int a, .int b => some (.int (a + b))
  | .sub, .int, .int a, .int b => some (.int (a - b))
  | .mul, .int, .int a, .int b => some (.int (a * b))
  | .add, .double, .double x, .double y => some (.double (W.add x y))
  | .sub, .double, .double x, .double y => some (.double (W.sub x y))
  | .mul, .double, .double x, .double y => some (.double (W.mul x y))
  | _, _, _, _ => none

def compare (W : World) : Predicate → Prim → Datum → Datum → Option Datum
  | .lt, .int, .int a, .int b => some (.bool (a.ult b))
  | .ne, .int, .int a, .int b => some (.bool (a != b))
  | .lt, .double, .double x, .double y => some (.bool (W.less x y))
  | .ne, .double, .double x, .double y => some (.bool (W.differ x y))
  | _, _, _, _ => none

def cast (W : World) : Cast → Datum → Option Datum
  | .intToDouble, .int a => some (.double (W.ofNat a.toNat))
  | .doubleToInt, .double x => some (.int (BitVec.ofNat 32 (W.toNat x)))
  | .boolToInt, .bool b => some (.int (if b then 1 else 0))
  | _, _ => none

end World

/-- A run of a function between two instructions. -/
structure Machine where
  regs : Reg → Option Datum
  memory : Memory

namespace Machine

def set (s : Machine) (r : Reg) (v : Datum) : Machine :=
  { s with regs := Function.update s.regs r (some v) }

def operand (args : List Datum) (s : Machine) : Value → Option Datum
  | .reg r => s.regs r
  | .int value => some (.int value)
  | .double value => some (.double value)
  | .arg index => args[index]?

/-- An instruction that stays in its block. -/
def step? (W : World) (args : List Datum) (s : Machine) : Instr → Option Machine
  | .comment _ => some s
  | .stackAlloc dst p _ =>
    let (a, memory) := s.memory.pushSlot (W.fresh s.memory p)
    some ({ s with memory }.set dst a)
  | .heapAlloc dst p _ =>
    let (a, memory) := s.memory.pushCell (W.fresh s.memory p)
    some ({ s with memory }.set dst a)
  | .heapFree ptr =>
    match s.operand args ptr with
    | some (.cell _) => some s
    | _ => none
  | .load dst p ptr => do
    let a ← s.operand args ptr
    let v ← s.memory.read? p a
    return s.set dst v
  | .store value ptr => do
    let v ← s.operand args value
    let a ← s.operand args ptr
    let memory ← s.memory.write? v a
    return { s with memory }
  | .arith dst op p left right => do
    let x ← s.operand args left
    let y ← s.operand args right
    let v ← W.arith op p x y
    return s.set dst v
  | .compare dst predicate p left right => do
    let x ← s.operand args left
    let y ← s.operand args right
    let v ← W.compare predicate p x y
    return s.set dst v
  | .cast dst kind value => do
    let x ← s.operand args value
    let v ← W.cast kind x
    return s.set dst v
  | .call dst callee values => do
    let xs ← values.mapM (s.operand args)
    let (v, heap) := W.call callee xs s.memory.heap
    return { s with memory := { s.memory with heap } }.set dst v
  | .branch _ | .condBranch .. | .ret _ | .unreachable => none

/-- Some instructions in order. -/
def steps? (W : World) (args : List Datum) : Machine → List Instr → Option Machine
  | s, [] => some s
  | s, i :: is => (s.step? W args i).bind fun s' => s'.steps? W args is

end Machine

/-- At most `fuel` instructions from what is left of a block, up to a return. -/
def Func.exec (F : Func) (W : World) (args : List Datum) :
    Nat → Machine → List Instr → Option (Datum × Memory)
  | 0, _, _ => none
  | _ + 1, _, [] => none
  | fuel + 1, s, i :: todo =>
    match i with
    | .ret value => (s.operand args value).map fun v => (v, s.memory)
    | .branch target => do
      let B ← F.block? target
      F.exec W args fuel s B.code
    | .condBranch cond yes no =>
      match s.operand args cond with
      | some (.bool b) => do
        let B ← F.block? (if b then yes else no)
        F.exec W args fuel s B.code
      | _ => none
    | .unreachable => none
    | i => do
      let s' ← s.step? W args i
      F.exec W args fuel s' todo

/-- A run from the block of number `entry` on: the result and the heap. -/
def Func.run (F : Func) (W : World) (entry fuel : Nat) (args heap : List Datum) :
    Option (Datum × List Datum) :=
  (F.exec W args fuel ⟨fun _ => none, ⟨[], heap⟩⟩ (F.codeAt entry)).map fun (v, memory) =>
    (v, memory.heap)

end ImpFront
