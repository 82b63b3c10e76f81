import LevelScript.Arithmetic.Integer
import LevelScript.Arithmetic.Real
import LevelScript.Bytecode.Opcode
import LevelScript.Bytecode.Reader
import LevelScript.Bytecode.Writer
import LevelScript.Console
import LevelScript.Decimal.Binary
import LevelScript.Decimal.Digits
import LevelScript.Diagnostic
import LevelScript.Function
import LevelScript.Grammar
import LevelScript.Grammar.Precedence
import LevelScript.Grammar.Stream
import LevelScript.Heap
import LevelScript.Listing
import LevelScript.Machine.Access
import LevelScript.Machine.Call
import LevelScript.Machine.Command
import LevelScript.Machine.Expression
import LevelScript.Machine.Failure
import LevelScript.Machine.Interp
import LevelScript.Machine.Level
import LevelScript.Machine.Operator
import LevelScript.Machine.Run
import LevelScript.Machine.State
import LevelScript.Machine.Struct
import LevelScript.Main
import LevelScript.Memory
import LevelScript.Names
import LevelScript.Native.Action
import LevelScript.Native.CallFrame
import LevelScript.Native.Install
import LevelScript.Native.Library
import LevelScript.Proofs.ArgumentSlots
import LevelScript.Proofs.Balance
import LevelScript.Proofs.Binding
import LevelScript.Proofs.BraceBalance
import LevelScript.Proofs.CallDepth
import LevelScript.Proofs.Captures
import LevelScript.Proofs.Cells
import LevelScript.Proofs.Closing
import LevelScript.Proofs.Comparisons
import LevelScript.Proofs.ConstVariants
import LevelScript.Proofs.Constness
import LevelScript.Proofs.Control
import LevelScript.Proofs.CountingLoops
import LevelScript.Proofs.DamagedCode
import LevelScript.Proofs.Destructors
import LevelScript.Proofs.Embedding
import LevelScript.Proofs.Entry
import LevelScript.Proofs.ExactLayout
import LevelScript.Proofs.Faults
import LevelScript.Proofs.FieldAccess
import LevelScript.Proofs.FunctionNumbers
import LevelScript.Proofs.Functions
import LevelScript.Proofs.Globals
import LevelScript.Proofs.Handles
import LevelScript.Proofs.Indexing
import LevelScript.Proofs.Infix
import LevelScript.Proofs.InlineNesting
import LevelScript.Proofs.IntegerArithmetic
import LevelScript.Proofs.IntegerResults
import LevelScript.Proofs.IntegerRuns
import LevelScript.Proofs.Interning
import LevelScript.Proofs.Interpreter
import LevelScript.Proofs.Items
import LevelScript.Proofs.Law
import LevelScript.Proofs.Lifetimes
import LevelScript.Proofs.Lockstep
import LevelScript.Proofs.Meaning
import LevelScript.Proofs.MemberTypes
import LevelScript.Proofs.NameCycles
import LevelScript.Proofs.NativeEntry
import LevelScript.Proofs.Outcome
import LevelScript.Proofs.Ownership
import LevelScript.Proofs.Parking
import LevelScript.Proofs.Pools
import LevelScript.Proofs.Powers
import LevelScript.Proofs.PrecedenceTree
import LevelScript.Proofs.Quiescence
import LevelScript.Proofs.Quiet
import LevelScript.Proofs.ReadingBack
import LevelScript.Proofs.Rendering
import LevelScript.Proofs.Repeats
import LevelScript.Proofs.Resolved
import LevelScript.Proofs.Steady
import LevelScript.Proofs.Stepping
import LevelScript.Proofs.StructBounds
import LevelScript.Proofs.Stubs
import LevelScript.Proofs.Teardown
import LevelScript.Proofs.TypeNodes
import LevelScript.Proofs.TypeTexts
import LevelScript.Proofs.Unbounded
import LevelScript.Proofs.Variables
import LevelScript.Proofs.Walk
import LevelScript.Scope
import LevelScript.Session
import LevelScript.Settings
import LevelScript.Settings.Json
import LevelScript.Sources
import LevelScript.SyntaxError
import LevelScript.Text.Columns
import LevelScript.Text.Escape
import LevelScript.Text.Utf8
import LevelScript.Token
import LevelScript.Token.Lexer
import LevelScript.Token.Quoted
import LevelScript.Token.Word
import LevelScript.Tree
import LevelScript.Tree.Emit
import LevelScript.Types.Basic
import LevelScript.Types.Display
import LevelScript.Types.Kind
import LevelScript.Types.Layout
import LevelScript.Types.Resolve
import LevelScript.Value
