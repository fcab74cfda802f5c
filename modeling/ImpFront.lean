import ImpFront.Ty
import ImpFront.Number.Digits
import ImpFront.Number.Double
import ImpFront.Number.Shortest
import ImpFront.Text.Location
import ImpFront.Token
import ImpFront.Token.Scan
import ImpFront.Tree.Basic
import ImpFront.Tree.Same
import ImpFront.Tree.Print
import ImpFront.Tree.Cursor
import ImpFront.Tree.Parse
import ImpFront.Code.Instr
import ImpFront.Code.Module
import ImpFront.Code.Label
import ImpFront.Code.Op
import ImpFront.Code.Recorder
import ImpFront.Lower.Fault
import ImpFront.Lower.Scope
import ImpFront.Lower.Signatures
import ImpFront.Lower.Basic
import ImpFront.Lower.Convert
import ImpFront.Lower.Expr
import ImpFront.Lower.Stmt
import ImpFront.Lower.Item
import ImpFront.Compile
import ImpFront.Trace
import ImpFront.Proofs.Body
import ImpFront.Proofs.Growth
import ImpFront.Proofs.Scopes
import ImpFront.Proofs.Shape
import ImpFront.Proofs.LowerExpr
import ImpFront.Proofs.LowerStmt
import ImpFront.Proofs.LowerFlow
import ImpFront.Proofs.LowerItem
import ImpFront.Proofs.Parametric
import ImpFront.Proofs.Places
import ImpFront.Proofs.Lockstep
import ImpFront.Proofs.Outcome
import ImpFront.Proofs.Session
import ImpFront.Proofs.Heap
import ImpFront.Proofs.Ownership
import ImpFront.Proofs.Discipline
import ImpFront.Proofs.Machine
import ImpFront.Proofs.Meaning
import ImpFront.Proofs.Simulation
import ImpFront.Proofs.Preservation
import ImpFront.Proofs.Grammar
import ImpFront.Proofs.Reading
import ImpFront.Proofs.Budget
import ImpFront.Proofs.Movement
import ImpFront.Proofs.Derivation
import ImpFront.Proofs.Agreement
import ImpFront.Proofs.Acceptance
import ImpFront.Proofs.Numeral
import ImpFront.Proofs.Spelling
import ImpFront.Proofs.Printing
import ImpFront.Proofs.RoundTrip
import ImpFront.Proofs.Draft
import ImpFront.Proofs.ControlFlow
import ImpFront.Proofs.CodeTyping
import ImpFront.Proofs.Registers
import ImpFront.Proofs.WellTyped
import ImpFront.Proofs.Checker
import ImpFront.Proofs.Decision
import ImpFront.Proofs.Chart
import ImpFront.Proofs.Coupling
import ImpFront.Proofs.Failure
import ImpFront.Proofs.History
import ImpFront.Proofs.Seam
import ImpFront.Proofs.Braces
import ImpFront.Proofs.Echo
import ImpFront.Proofs.Relocation
import ImpFront.Proofs.Recovery
import ImpFront.Proofs.Comments
import ImpFront.Proofs.SilentHeap
import ImpFront.Proofs.Insertion
import ImpFront.Proofs.TwoPhase
import ImpFront.Proofs.SourceOrder
import ImpFront.Proofs.Reprinting
import ImpFront.Proofs.Representation
import ImpFront.Proofs.Redefinition
import ImpFront.Proofs.Termination
import ImpFront.Proofs.LongestMatch
import ImpFront.Proofs.Spacing
import ImpFront.Proofs.Viability
import ImpFront.Proofs.NodePlaces
import ImpFront.Proofs.LineBreaks
import ImpFront.Proofs.LineColumn
import ImpFront.Proofs.ScopeLaws
import ImpFront.Proofs.StatementBoundary
import ImpFront.Proofs.BraceAccounting
import ImpFront.Proofs.FreshLabel
import ImpFront.Proofs.IntegerLiteral
