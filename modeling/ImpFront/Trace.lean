import ImpFront.Compile

/-! A recorder that also logs what it is asked to do, one line for each operation that writes
something, with the answer it gave. Comments are neither logged nor recorded. -/

namespace ImpFront

def FunctionId.text (f : FunctionId) : String := "f" ++ toString f.index

def BlockRef.text (b : BlockRef) : String :=
  "b" ++ toString b.function.index ++ "." ++ toString b.block.index

/-- The line of an operation and its answer. Questions have none. -/
def Op.logLine {α : Type} (op : Op α) (a : α) : Option String :=
  let words := " ".intercalate
  match op, a with
  | .constInt _, v => some ("const_int -> " ++ v.text)
  | .constDouble _, v => some ("const_double -> " ++ v.text)
  | .load ty ptr, v => some (words ["load", ty.text, ptr.text, "->", v.text])
  | .store value ptr, _ => some (words ["store", value.text, ptr.text])
  | .arith op ty left right, v =>
    some (words ["arithmetic", op.text, ty.text, left.text, right.text, "->", v.text])
  | .compare predicate ty left right, v =>
    some (words ["compare", predicate.text, ty.text, left.text, right.text, "->", v.text])
  | .cast kind value, v => some (words ["cast", kind.text, value.text, "->", v.text])
  | .stackAlloc ty name, v => some (words ["stack_alloc", ty.text, name, "->", v.text])
  | .heapAlloc ty name, v => some (words ["heap_alloc", ty.text, name, "->", v.text])
  | .heapFree ptr, _ => some (words ["heap_free", ptr.text])
  | .appendBlock f hint, b => some (words ["append_block", f.text, hint, "->", b.text])
  | .branch target, _ => some (words ["branch", target.text])
  | .condBranch cond yes no, _ => some (words ["cond_branch", cond.text, yes.text, no.text])
  | .ret value, _ => some (words ["return", value.text])
  | .unreachable, _ => some "unreachable"
  | .positionAtEnd block, _ => some (words ["position_at_end", block.text])
  | .declareFunction name signature, f =>
    some ("declare_function " ++ signature.ret.keyword ++ " " ++ name ++ "(" ++
      ", ".intercalate (signature.params.map Ty.keyword) ++ ") -> " ++ f.text)
  | .functionParam f index, v =>
    some (words ["function_param", f.text, toString index, "->", v.text])
  | .call f args, v => some ("call " ++ f.text ++ "(" ++ Value.listText args ++ ") -> " ++ v.text)
  | .discardFunction f, _ => some (words ["discard_function", f.text])
  | .clearBody f, _ => some (words ["clear_body", f.text])
  | .isTerminated, _ => none
  | .getFunction _, _ => none
  | .comment _, _ => none

structure Traced where
  recorder : Recorder
  /-- An answer that stands in for the recorder's own when it is asked whether its block is
  terminated. -/
  terminated : Option Bool
  /-- The log, the last line first. -/
  lines : List String

namespace Traced

def ofAnswer (terminated : Option Bool) : Traced := ⟨.empty, terminated, []⟩

def add (line : String) (t : Traced) : Traced := { t with lines := line :: t.lines }

def log (t : Traced) : List String := t.lines.reverse

def perform {α : Type} (op : Op α) : EStateM NoInsertionBlock Traced α := fun t =>
  match op with
  | .comment _ => .ok () t
  | .isTerminated => .ok (t.terminated.getD t.recorder.isTerminated) t
  | op =>
    match Recorder.perform op t.recorder with
    | .ok a r => .ok a { t with recorder := r, lines := (op.logLine a).toList ++ t.lines }
    | .error e r => .error e { t with recorder := r }

def report (d : Diagnostic) (t : Traced) : Traced :=
  t.add ("report " ++ toString d.pos ++ ": " ++ d.message)

instance : Emitter Traced := ⟨perform⟩

end Traced

/-- Compiles a source and logs every operation and diagnostic. -/
def trace (terminated : Option Bool) (text : String) : Traced :=
  (compileWith Traced.report text (Traced.ofAnswer terminated)).2

end ImpFront
