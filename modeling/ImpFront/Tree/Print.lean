import ImpFront.Tree.Basic
import ImpFront.Number.Shortest

/-! Syntax trees as source text. Blocks are indented by four blanks a level, operands that are
themselves operations stand in parentheses, and an integer is written by its bits, so that it reads
back as the same word. -/

namespace ImpFront

def commas (texts : List String) : String := ", ".intercalate texts

def grouped (needed : Bool) (text : String) : String := if needed then "(" ++ text ++ ")" else text

mutual

def Expr.print : Expr → String
  | .int _ value => toString value.toNat
  | .double _ value => value.literal
  | .var _ name => name
  | .binary _ op left right =>
    grouped left.isBinary left.print ++ " " ++ op.toChar.toString ++ " " ++
      grouped right.isBinary right.print
  | .call _ callee args => callee ++ "(" ++ commas (Expr.printList args) ++ ")"

def Expr.printList : List Expr → List String
  | [] => []
  | e :: es => e.print :: Expr.printList es

end

def indent (depth : Nat) : String := String.ofList (List.replicate (4 * depth) ' ')

mutual

/-- The statement itself; the lines that it continues on are indented for `depth`. -/
def Stmt.printAt (depth : Nat) : Stmt → String
  | .declaration _ ty names => ty.keyword ++ " " ++ commas names ++ ";"
  | .assignment _ target value => target ++ " = " ++ value.print ++ ";"
  | .ret _ value => "return " ++ value.print ++ ";"
  | .ifElse _ cond yes no =>
    "if (" ++ cond.print ++ ") " ++ yes.printAt depth ++ " else " ++ no.printAt depth
  | .loop _ cond body => "while (" ++ cond.print ++ ") " ++ body.printAt depth
  | .block body => body.printAt depth

def Block.printAt (depth : Nat) : Block → String
  | .mk _ statements => "\x7b\n" ++ Stmt.printLines (depth + 1) statements ++ indent depth ++ "\x7d"

def Stmt.printLines (depth : Nat) : List Stmt → String
  | [] => ""
  | s :: ss => indent depth ++ s.printAt depth ++ "\n" ++ Stmt.printLines depth ss

end

/-- A statement on lines of its own. -/
def Stmt.print (s : Stmt) : String := Stmt.printLines 0 [s]

def Block.print (b : Block) : String := b.printAt 0

def Param.print (p : Param) : String := p.ty.keyword ++ " " ++ p.name

def Prototype.print (p : Prototype) : String :=
  p.ret.keyword ++ " " ++ p.name ++ "(" ++ commas (p.params.map Param.print) ++ ")"

def Definition.print (d : Definition) : String := d.prototype.print ++ " " ++ d.body.print

def Item.print : Item → String
  | .external p => "extern " ++ p.print ++ ";"
  | .definition d => d.print

end ImpFront
