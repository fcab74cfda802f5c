import ImpFront.Code.Module

/-! The operations by which code is written, as data: each names the type of its answer. -/

namespace ImpFront

inductive Op : Type → Type where
  | constInt (value : Word) : Op Value
  | constDouble (value : Double) : Op Value
  | load (ty : Prim) (ptr : Value) : Op Value
  | store (value ptr : Value) : Op Unit
  | arith (op : Arith) (ty : Prim) (left right : Value) : Op Value
  | compare (predicate : Predicate) (ty : Prim) (left right : Value) : Op Value
  | cast (kind : Cast) (value : Value) : Op Value
  | stackAlloc (ty : Prim) (name : String) : Op Value
  | heapAlloc (ty : Prim) (name : String) : Op Value
  | heapFree (ptr : Value) : Op Unit
  | appendBlock (function : FunctionId) (hint : String) : Op BlockRef
  | branch (target : BlockRef) : Op Unit
  | condBranch (cond : Value) (yes no : BlockRef) : Op Unit
  | ret (value : Value) : Op Unit
  | unreachable : Op Unit
  | positionAtEnd (block : BlockRef) : Op Unit
  | isTerminated : Op Bool
  | declareFunction (name : String) (signature : Signature) : Op FunctionId
  | getFunction (name : String) : Op (Option FunctionId)
  | functionParam (function : FunctionId) (index : Nat) : Op Value
  | call (function : FunctionId) (args : List Value) : Op Value
  | discardFunction (function : FunctionId) : Op Unit
  | clearBody (function : FunctionId) : Op Unit
  | comment (text : String) : Op Unit

/-- The one way in which an operation fails: it writes an instruction and there is no block to write
it to. -/
inductive NoInsertionBlock where
  | mk
  deriving DecidableEq, Repr

def NoInsertionBlock.message : String := "No insertion block"

/-- Something that code can be written to. -/
class Emitter (σ : Type) where
  perform {α : Type} : Op α → EStateM NoInsertionBlock σ α

end ImpFront
