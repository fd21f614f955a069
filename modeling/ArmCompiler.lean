import ArmCompiler.Ty
import ArmCompiler.Syntax
import ArmCompiler.Literal.Integer
import ArmCompiler.Literal.Escape
import ArmCompiler.Text.Unprintable
import ArmCompiler.Text.Quoted
import ArmCompiler.SymbolTable
import ArmCompiler.Diagnostic
import ArmCompiler.Typing.Report
import ArmCompiler.Typing.Expr
import ArmCompiler.Typing.Stmt
import ArmCompiler.Typing.Program
import ArmCompiler.Arm.Instruction
import ArmCompiler.Arm.Printer
import ArmCompiler.Error
import ArmCompiler.Config
import ArmCompiler.RegisterPool
import ArmCompiler.Frame
import ArmCompiler.WordFrame
import ArmCompiler.Weight
import ArmCompiler.Listing
import ArmCompiler.Routine
import ArmCompiler.Pseudo
import ArmCompiler.Lowering.Basic
import ArmCompiler.Lowering.Expr
import ArmCompiler.Lowering.Rhs
import ArmCompiler.Lowering.Stmt
import ArmCompiler.Buffer
import ArmCompiler.Compile
import ArmCompiler.Proofs.Frames
import ArmCompiler.Proofs.Steps
import ArmCompiler.Proofs.Structured
import ArmCompiler.Proofs.Balance.Expr
import ArmCompiler.Proofs.Balance.Rhs
import ArmCompiler.Proofs.Balance.Stmt
import ArmCompiler.Proofs.Agreement
import ArmCompiler.Proofs.Exhaustion
import ArmCompiler.Proofs.Assembling
import ArmCompiler.Proofs.CheckedPrograms
import ArmCompiler.Proofs.Labels
import ArmCompiler.Proofs.LinkClosed
import ArmCompiler.Proofs.StackDiscipline
import ArmCompiler.Proofs.Preservation.Machine
import ArmCompiler.Proofs.Preservation.Reference
import ArmCompiler.Proofs.Preservation.Words
import ArmCompiler.Proofs.Preservation.State
import ArmCompiler.Proofs.Preservation.Values
import ArmCompiler.Proofs.Preservation.Execution
import ArmCompiler.Proofs.Preservation.Expr
import ArmCompiler.Proofs.Preservation.Control
import ArmCompiler.Proofs.Preservation.Stmt
import ArmCompiler.Proofs.Preservation.Program
import ArmCompiler.Proofs.BasicSteps
import ArmCompiler.Proofs.RegisterCount
import ArmCompiler.Proofs.RegisterDemand
import ArmCompiler.Proofs.Returns
import ArmCompiler.Proofs.TypeAgreement
import ArmCompiler.Proofs.Scopes
import ArmCompiler.Proofs.TableRuns
import ArmCompiler.Proofs.Instances
import ArmCompiler.Proofs.Inspections
import ArmCompiler.Proofs.FunctionOrder
import ArmCompiler.Proofs.Mentions
import ArmCompiler.Proofs.Touches
import ArmCompiler.Proofs.OwnedSlots
import ArmCompiler.Proofs.CallSites
import ArmCompiler.Proofs.ArgumentArea
import ArmCompiler.Proofs.Observers
import ArmCompiler.Proofs.Operations
import ArmCompiler.Proofs.Buffers
import ArmCompiler.Proofs.Interning
import ArmCompiler.Proofs.DirectGeneration
import ArmCompiler.Proofs.Outcomes
import ArmCompiler.Proofs.Assertions
import ArmCompiler.Proofs.NameResolution
import ArmCompiler.Proofs.Renaming.Syntax
import ArmCompiler.Proofs.Renaming.Checking
import ArmCompiler.Proofs.Renaming.Lowering
import ArmCompiler.Proofs.Renaming.Programs
import ArmCompiler.Proofs.Regrouping.HollowScopes
import ArmCompiler.Proofs.Regrouping.Programs
import ArmCompiler.Proofs.StackChunks
import ArmCompiler.Proofs.Expansion
import ArmCompiler.Proofs.Evaluation
import ArmCompiler.Proofs.WrittenRegisters
import ArmCompiler.Proofs.LiveRegisters
import ArmCompiler.Proofs.OnDemand
import ArmCompiler.Proofs.WordFrames
import ArmCompiler.Proofs.WordGeneration
import ArmCompiler.Proofs.FrameLayout
import ArmCompiler.Proofs.Heap.Arena
import ArmCompiler.Proofs.Heap.Execution
import ArmCompiler.Proofs.Heap.Checks
import ArmCompiler.Proofs.Heap.Values
import ArmCompiler.Proofs.Heap.Pairs
import ArmCompiler.Proofs.Heap.Allocator
import ArmCompiler.Proofs.Heap.Arrays
import ArmCompiler.Proofs.EscapedTexts
import ArmCompiler.Proofs.ArrayLiterals
import ArmCompiler.Proofs.Immediates
import ArmCompiler.Proofs.IntegerLiterals
import ArmCompiler.Proofs.LiteralRanges
import ArmCompiler.Proofs.EvaluationOrder
