import ImpFront.Code.Recorder
import ImpFront.Lower.Item
import ImpFront.Tree.Parse

/-! Whole sources. Items are read and lowered one at a time. One that cannot be read or lowered is
reported and left behind, and the next one is still processed. -/

namespace ImpFront

inductive Diagnostic where
  | reading (e : SyntaxError)
  | lowering (e : LowerError)
  deriving DecidableEq, Repr

namespace Diagnostic

def pos : Diagnostic → Nat
  | .reading e => e.pos
  | .lowering e => e.pos

def message : Diagnostic → String
  | .reading e => e.message
  | .lowering e => e.fault.message

end Diagnostic

/-- Where reading goes on after a syntax error: a token that starts no item is skipped alone. -/
def Cursor.recover (c : Cursor) (e : SyntaxError) : Cursor :=
  if e.expected = .item then c.advance else c.synchronize

namespace Lowering

variable {σ : Type} [Emitter σ]

/-- Tells the target of a diagnostic. -/
def note (report : Diagnostic → σ → σ) (d : Diagnostic) (s : Lowering σ) : Lowering σ :=
  { s with target := report d s.target }

/-- Reads and lowers items up to the end of the source; `n` bounds their number. -/
def itemsFrom (report : Diagnostic → σ → σ) :
    Nat → Cursor → Lowering σ → List Diagnostic × Lowering σ
  | 0, _, s => ([], s)
  | n + 1, c, s =>
    if c.current = .eof then ([], s)
    else
      match Item.parse c with
      | .ok item c' =>
        match item.lower s with
        | .ok _ s' => itemsFrom report n c' s'
        | .error e s' =>
          let (ds, last) := itemsFrom report n c' (note report (.lowering e) s')
          (.lowering e :: ds, last)
      | .error e c' =>
        let (ds, last) := itemsFrom report n (c'.recover e) (note report (.reading e) s)
        (.reading e :: ds, last)

/-- Reads and lowers a whole source. Each round reads at least one token. -/
def source (report : Diagnostic → σ → σ) (text : String) (s : Lowering σ) :
    List Diagnostic × Lowering σ :=
  let c := Cursor.ofSource text
  itemsFrom report (c.rest.length + 1) c s

/-- Lowers items that are read already. -/
def items : List Item → Lowering σ → List Diagnostic × Lowering σ
  | [], s => ([], s)
  | item :: rest, s =>
    match item.lower s with
    | .ok _ s' => items rest s'
    | .error e s' =>
      let (ds, last) := items rest s'
      (.lowering e :: ds, last)

end Lowering

variable {σ : Type} [Emitter σ]

/-- Compiles a source into a target and tells the target of each diagnostic. -/
def compileWith (report : Diagnostic → σ → σ) (text : String) (target : σ) : List Diagnostic × σ :=
  let (ds, s) := Lowering.source report text (.ofTarget target)
  (ds, s.target)

/-- Compiles a source into a target. -/
def compile (text : String) (target : σ) : List Diagnostic × σ :=
  compileWith (fun _ t => t) text target

/-- Compiles items that are read already into a target. -/
def compileItems (items : List Item) (target : σ) : List Diagnostic × σ :=
  let (ds, s) := Lowering.items items (.ofTarget target)
  (ds, s.target)

end ImpFront
