import PascalStack.Code.Op
import PascalStack.Code.Quoted
import PascalStack.CommandLine.Arguments
import PascalStack.CommandLine.Disk
import PascalStack.CommandLine.Tools
import PascalStack.Compiler.Expr
import PascalStack.Compiler.Program
import PascalStack.Compiler.State
import PascalStack.Compiler.Stmt
import PascalStack.Diagnostic
import PascalStack.Document
import PascalStack.Grammar.Automaton
import PascalStack.Grammar.Parser
import PascalStack.Grammar.Rules
import PascalStack.Grammar.Symbol
import PascalStack.Grammar.Table
import PascalStack.Machine.Exec
import PascalStack.Machine.Image
import PascalStack.Machine.Run
import PascalStack.Machine.State
import PascalStack.Machine.Value
import PascalStack.Main
import PascalStack.Number.Double
import PascalStack.Number.Integer
import PascalStack.Number.Shortest
import PascalStack.Proofs.Compiler.Declarations
import PascalStack.Proofs.Compiler.Expressions
import PascalStack.Proofs.Compiler.Functions
import PascalStack.Proofs.Compiler.Inversion
import PascalStack.Proofs.Compiler.Programs
import PascalStack.Proofs.Compiler.Labels
import PascalStack.Proofs.Compiler.Scopes
import PascalStack.Proofs.Compiler.Slots
import PascalStack.Proofs.Compiler.Statements
import PascalStack.Proofs.Compiler.Translation
import PascalStack.Proofs.Grammar.Accept
import PascalStack.Proofs.Grammar.Budget
import PascalStack.Proofs.Grammar.Complete
import PascalStack.Proofs.Grammar.Derivation
import PascalStack.Proofs.Grammar.Language
import PascalStack.Proofs.Grammar.Run
import PascalStack.Proofs.Semantics.Memory
import PascalStack.Proofs.Machine.Instructions
import PascalStack.Proofs.Machine.Loading
import PascalStack.Proofs.Machine.Operands
import PascalStack.Proofs.Machine.Placed
import PascalStack.Proofs.Machine.Steps
import PascalStack.Proofs.Number.Literal
import PascalStack.Proofs.Semantics.Eval
import PascalStack.Proofs.Simulation.Expressions
import PascalStack.Proofs.Simulation.Programs
import PascalStack.Proofs.Simulation.Statements
import PascalStack.Session
import PascalStack.Text.Blank
import PascalStack.Text.Fold
import PascalStack.Text.Letters
import PascalStack.Token.Basic
import PascalStack.Token.Lexer
import PascalStack.Token.Stream
import PascalStack.Tree.Basic
import PascalStack.Tree.Form
import PascalStack.Tree.Outline
import PascalStack.Tree.Printer
import PascalStack.Typing.Builtin
import PascalStack.Typing.DataType
import PascalStack.Typing.Error
import PascalStack.Typing.Infer
import PascalStack.Typing.Rules
import PascalStack.Typing.Scope
import PascalStack.Proofs.Grammar.Names
import PascalStack.Proofs.Grammar.Gaps
import PascalStack.Proofs.Grammar.Repair
import PascalStack.Proofs.Grammar.Shelter
import PascalStack.Proofs.Machine.Runs
import PascalStack.Proofs.Simulation.Correctness
import PascalStack.Proofs.Number.Fields
import PascalStack.Proofs.Number.Rounding
import PascalStack.Proofs.Number.Reading
import PascalStack.Proofs.Compiler.Listing
import PascalStack.Proofs.Machine.Effects
import PascalStack.Proofs.Machine.Frames
import PascalStack.Proofs.Machine.Linking
import PascalStack.Proofs.Machine.CountedLoops
import PascalStack.Proofs.Simulation.Contained
import PascalStack.Proofs.Simulation.Activations
import PascalStack.Proofs.Token.Pieces
import PascalStack.Proofs.Simulation.Literals
import PascalStack.Proofs.Spelling.Trees
import PascalStack.Proofs.Spelling.Expressions
import PascalStack.Proofs.Spelling.Programs
import PascalStack.Proofs.Storage.Quiet
import PascalStack.Proofs.Storage.Reservations
import PascalStack.Proofs.Storage.Items
import PascalStack.Proofs.Simulation.Indirect
import PascalStack.Proofs.Simulation.Elements
import PascalStack.Proofs.Simulation.Division
import PascalStack.Proofs.Simulation.FirstValues
import PascalStack.Proofs.Simulation.Loops
import PascalStack.Proofs.Soundness.Values
import PascalStack.Proofs.Soundness.Paths
import PascalStack.Proofs.Soundness.Runs
import PascalStack.Proofs.Soundness.Expressions
import PascalStack.Proofs.Soundness.Statements
import PascalStack.Proofs.Soundness.Regions
import PascalStack.Proofs.Soundness.Functions
import PascalStack.Proofs.Soundness.Evaluations
import PascalStack.Proofs.Soundness.Programs
import PascalStack.Proofs.Grammar.Progress
import PascalStack.Proofs.Grammar.Errors
import PascalStack.Proofs.Token.Written
import PascalStack.Proofs.Token.Illegal
import PascalStack.Proofs.Number.Magnitude
import PascalStack.Proofs.Token.Printing
import PascalStack.Proofs.Forward.Identifiers
import PascalStack.Proofs.Forward.Pairs
import PascalStack.Proofs.Forward.Bodies
import PascalStack.Proofs.Forward.Programs
import PascalStack.Proofs.Grammar.Nearest
import PascalStack.Proofs.Token.Cut
import PascalStack.Proofs.Token.Stream
import PascalStack.Proofs.Grammar.OnDemand
import PascalStack.Proofs.Simulation.Bounds
import PascalStack.Proofs.Machine.Failures
import PascalStack.Proofs.Machine.Limits
import PascalStack.Proofs.Simulation.Powers
import PascalStack.Proofs.Compiler.NamedSlots
import PascalStack.Proofs.Storage.Capacity
import PascalStack.Proofs.Printing.Outlines
import PascalStack.Proofs.Printing.Nodes
import PascalStack.Proofs.Printing.Lines
import PascalStack.Proofs.Printing.Indentation
