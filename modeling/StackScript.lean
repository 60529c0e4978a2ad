import StackScript.Code.Census
import StackScript.Code.Emission
import StackScript.Code.Folding
import StackScript.Code.Heights
import StackScript.Code.Image
import StackScript.Code.Instruction
import StackScript.Code.Listing
import StackScript.Code.Wire
import StackScript.Command.Options
import StackScript.Command.Session
import StackScript.Decimal.Binary
import StackScript.Decimal.Fixed
import StackScript.Decimal.Numeral
import StackScript.Decimal.Shortest
import StackScript.Decimal.Style
import StackScript.Machine.Basic
import StackScript.Machine.Fault
import StackScript.Machine.Run
import StackScript.Machine.Scopes
import StackScript.Machine.Sink
import StackScript.Machine.Step
import StackScript.Machine.Value
import StackScript.Main
import StackScript.Number
import StackScript.Operator
import StackScript.Proofs.Exec
import StackScript.Proofs.Rounds
import StackScript.Script
import StackScript.Text.Blank
import StackScript.Text.Column
import StackScript.Text.Outline
import StackScript.Text.Quoted
import StackScript.Token.Basic
import StackScript.Token.Lexer
import StackScript.Token.Listing
import StackScript.Tree.Basic
import StackScript.Tree.Outline
import StackScript.Tree.Parser
import StackScript.Proofs.Coupling
import StackScript.Proofs.Grading
import StackScript.Proofs.Scopes
import StackScript.Proofs.Locality
import StackScript.Proofs.Moments
import StackScript.Proofs.Operands
import StackScript.Proofs.ExactHeights
import StackScript.Proofs.Emission
import StackScript.Proofs.Evaluation
import StackScript.Proofs.Shapes
import StackScript.Proofs.CompiledShapes
import StackScript.Proofs.Simulation
import StackScript.Proofs.Compilation
import StackScript.Proofs.Lists
import StackScript.Proofs.FoldedRanges
import StackScript.Proofs.FoldedRuns
import StackScript.Proofs.FoldedPieces
import StackScript.Proofs.TreeFolding
import StackScript.Proofs.ShapedSteps
import StackScript.Proofs.ShapedRuns
import StackScript.Proofs.StackDiscipline
import StackScript.Proofs.Images
import StackScript.Proofs.Actions
import StackScript.Proofs.CallEffects
import StackScript.Proofs.ScopeRenaming
import StackScript.Proofs.LexicalCalls
import StackScript.Proofs.StackBound
import StackScript.Proofs.Output
import StackScript.Proofs.Limits
import StackScript.Proofs.Reuse
import StackScript.Proofs.Grammar
import StackScript.Proofs.Parsing
import StackScript.Proofs.Recognition
import StackScript.Proofs.Lexemes
import StackScript.Proofs.ControlFlow
import StackScript.Proofs.FoldedVerdict
import StackScript.Proofs.FoldedNormal
import StackScript.Proofs.CallChains
import StackScript.Proofs.Backpatching
import StackScript.Proofs.CompileSteps
import StackScript.Proofs.Scoping
import StackScript.Proofs.StepLimit
import StackScript.Proofs.LexicalFaults
import StackScript.Proofs.Layouts
import StackScript.Proofs.DecodedImages
import StackScript.Proofs.FullSinks
import StackScript.Proofs.ScopeHistories
import StackScript.Proofs.Relocation
import StackScript.Proofs.Worklist
import StackScript.Proofs.Cursor
import StackScript.Proofs.CursorEnds
