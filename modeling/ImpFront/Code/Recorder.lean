import ImpFront.Code.Label
import ImpFront.Code.Op

/-! A recorder keeps the code that is written to it as a module. Functions are numbered by slots; a
discarded function leaves its slot empty, so that the numbers of the others stay valid. Operations
on functions and blocks that do not exist are permitted: what they would write is dropped. -/

namespace ImpFront

structure Recorder where
  functions : List (Option Func)
  /-- The block that instructions are appended to. -/
  position : Option BlockRef
  deriving DecidableEq, Repr

namespace Recorder

def empty : Recorder := ⟨[], none⟩

def function? (r : Recorder) (id : FunctionId) : Option Func := r.functions[id.index]?.join

def block? (r : Recorder) (b : BlockRef) : Option BasicBlock :=
  (r.function? b.function).bind fun f => f.blocks[b.block.index]?

def find? (r : Recorder) (name : String) : Option FunctionId :=
  (r.functions.findIdx? fun slot => slot.any fun f => f.name = name).map Handle.mk

/-- The function of that name. -/
def named? (r : Recorder) (name : String) : Option Func := (r.find? name).bind r.function?

def label (r : Recorder) (b : BlockRef) : String := ((r.block? b).map BasicBlock.label).getD ""

def isTerminated (r : Recorder) : Bool := (r.position.bind r.block?).any BasicBlock.isTerminated

def toModule (r : Recorder) : Module := ⟨r.functions.filterMap id⟩

def modifyFunction (r : Recorder) (id : FunctionId) (change : Func → Func) : Recorder :=
  { r with functions := r.functions.modify id.index (Option.map change) }

/-- Gives up the position if it is inside the function. -/
def leave (r : Recorder) (id : FunctionId) : Recorder :=
  { r with position := r.position.filter fun b => b.function ≠ id }

/-- The register that the next instruction of a block's function defines. -/
def nextReg (r : Recorder) (b : BlockRef) : Reg :=
  ⟨((r.function? b.function).map Func.registers).getD 0⟩

/-- Appends an instruction. -/
def push (i : Instr) : EStateM NoInsertionBlock Recorder Unit := fun r =>
  match r.position with
  | some b => .ok () (r.modifyFunction b.function (Func.append b.block i))
  | none => .error .mk r

/-- Appends an instruction that defines a new register. -/
def define (i : Reg → Instr) : EStateM NoInsertionBlock Recorder Value := fun r =>
  match r.position with
  | some b =>
    let dst := r.nextReg b
    .ok (.reg dst) (r.modifyFunction b.function fun f => (f.append b.block (i dst)).addRegister)
  | none => .error .mk r

def appendBlock (id : FunctionId) (hint : String) (r : Recorder) : BlockRef × Recorder :=
  match r.function? id with
  | some f =>
    (⟨id, ⟨f.blocks.length⟩⟩, r.modifyFunction id fun f =>
      { f with blocks := f.blocks ++ [⟨freshLabel (f.blocks.map BasicBlock.label) hint, []⟩] })
  | none => (⟨id, ⟨0⟩⟩, r)

def declare (name : String) (signature : Signature) (r : Recorder) : FunctionId × Recorder :=
  (⟨r.functions.length⟩, { r with functions := r.functions ++ [some ⟨name, signature, [], 0⟩] })

def discard (id : FunctionId) (r : Recorder) : Recorder :=
  { r with functions := r.functions.set id.index none }.leave id

def clearBody (id : FunctionId) (r : Recorder) : Recorder :=
  (r.modifyFunction id fun f => { f with blocks := [], registers := 0 }).leave id

/-- Parameters are numbered by 32-bit words. -/
def paramLimit : Nat := Nat.pow 2 32

/-- An operation that always works. -/
def answer {α : Type} (f : Recorder → α × Recorder) : EStateM NoInsertionBlock Recorder α :=
  fun r =>
  .ok (f r).1 (f r).2

def change (f : Recorder → Recorder) : EStateM NoInsertionBlock Recorder Unit :=
  fun r => .ok () (f r)

def perform {α : Type} (op : Op α) : EStateM NoInsertionBlock Recorder α :=
  match op with
  | .constInt value => answer fun r => (.int value, r)
  | .constDouble value => answer fun r => (.double value, r)
  | .load ty ptr => define fun dst => .load dst ty ptr
  | .store value ptr => push (.store value ptr)
  | .arith op ty left right => define fun dst => .arith dst op ty left right
  | .compare predicate ty left right => define fun dst => .compare dst predicate ty left right
  | .cast kind value => define fun dst => .cast dst kind value
  | .stackAlloc ty name => define fun dst => .stackAlloc dst ty name
  | .heapAlloc ty name => define fun dst => .heapAlloc dst ty name
  | .heapFree ptr => push (.heapFree ptr)
  | .appendBlock id hint => answer (appendBlock id hint)
  | .branch target => fun r => push (.branch (r.label target)) r
  | .condBranch cond yes no => fun r => push (.condBranch cond (r.label yes) (r.label no)) r
  | .ret value => push (.ret value)
  | .unreachable => push .unreachable
  | .positionAtEnd block => change fun r => { r with position := some block }
  | .isTerminated => answer fun r => (r.isTerminated, r)
  | .declareFunction name signature => answer (declare name signature)
  | .getFunction name => answer fun r => (r.find? name, r)
  | .functionParam _ index => answer fun r => (.arg (index % paramLimit), r)
  | .call id args => fun r =>
    define (fun dst => .call dst (((r.function? id).map Func.name).getD "") args) r
  | .discardFunction id => change (discard id)
  | .clearBody id => change (clearBody id)
  | .comment text => fun r => if r.position.isSome then push (.comment text) r else .ok () r

instance : Emitter Recorder := ⟨perform⟩

theorem function?_modifyFunction (r : Recorder) (id other : FunctionId) (change : Func → Func) :
    (r.modifyFunction id change).function? other =
      if id = other then (r.function? other).map change else r.function? other := by
  obtain ⟨i⟩ := id
  obtain ⟨j⟩ := other
  simp only [function?, modifyFunction, List.getElem?_modify, Handle.mk.injEq]
  by_cases h : i = j
  · cases r.functions[j]? <;> simp [h]
  · simp [h]

/-- An operation that fails changes nothing. -/
theorem eq_of_perform_eq_error {α : Type} {op : Op α} {r r' : Recorder} {e : NoInsertionBlock}
    (h : perform op r = .error e r') : r' = r := by
  cases op <;> simp only [perform, define, push, answer, change] at h <;> (repeat' split at h) <;>
    simp_all

end Recorder

end ImpFront
