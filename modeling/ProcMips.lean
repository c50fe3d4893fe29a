import ProcMips.Analysis.Body
import ProcMips.Analysis.Error
import ProcMips.Analysis.Program
import ProcMips.CodeGen
import ProcMips.CommandLine.Arguments
import ProcMips.CommandLine.FileTree
import ProcMips.CommandLine.Libraries
import ProcMips.CommandLine.Options
import ProcMips.CommandLine.Path
import ProcMips.CommandLine.Run
import ProcMips.CommandLine.Session
import ProcMips.Diagnostic
import ProcMips.Document
import ProcMips.Event
import ProcMips.Frame
import ProcMips.Main
import ProcMips.Mips.Instr
import ProcMips.Mips.Register
import ProcMips.Mips.Sequence
import ProcMips.Parse.Cursor
import ProcMips.Parse.Error
import ProcMips.Parse.Expression
import ProcMips.Parse.Program
import ProcMips.Parse.Statement
import ProcMips.Pipeline
import ProcMips.Proofs.Analysis.Acceptance
import ProcMips.Proofs.Analysis.Bodies
import ProcMips.Proofs.Analysis.Checks
import ProcMips.Proofs.Analysis.Occurrences
import ProcMips.Proofs.Analysis.Placement
import ProcMips.Proofs.Analysis.Points
import ProcMips.Proofs.Analysis.Procedures
import ProcMips.Proofs.Analysis.Programs
import ProcMips.Proofs.Analysis.Rejection
import ProcMips.Proofs.Analysis.Scoping
import ProcMips.Proofs.Analysis.WellFormed
import ProcMips.Proofs.Assembly.CodeText
import ProcMips.Proofs.Assembly.Operands
import ProcMips.Proofs.CodeGen.Activations
import ProcMips.Proofs.CodeGen.Addressing
import ProcMips.Proofs.CodeGen.Balance
import ProcMips.Proofs.CodeGen.CallingConvention
import ProcMips.Proofs.CodeGen.Correspondence
import ProcMips.Proofs.CodeGen.Decisions
import ProcMips.Proofs.CodeGen.Emission
import ProcMips.Proofs.CodeGen.Expressions
import ProcMips.Proofs.CodeGen.Generation
import ProcMips.Proofs.CodeGen.Labels
import ProcMips.Proofs.CodeGen.Levels
import ProcMips.Proofs.CodeGen.Linkage
import ProcMips.Proofs.CodeGen.Modularity
import ProcMips.Proofs.CodeGen.Pieces
import ProcMips.Proofs.CodeGen.Preservation
import ProcMips.Proofs.CodeGen.Procedures
import ProcMips.Proofs.CodeGen.References
import ProcMips.Proofs.CodeGen.Renumbering
import ProcMips.Proofs.CodeGen.Statements
import ProcMips.Proofs.CodeGen.Success
import ProcMips.Proofs.CodeGen.Symbols
import ProcMips.Proofs.CodeGen.WordRuns
import ProcMips.Proofs.CodeGen.WordValues
import ProcMips.Proofs.CommandLine.Files
import ProcMips.Proofs.CommandLine.Reports
import ProcMips.Proofs.CommandLine.Runs
import ProcMips.Proofs.CommandLine.Sessions
import ProcMips.Proofs.Frame.Calls
import ProcMips.Proofs.Frame.Canonical
import ProcMips.Proofs.Frame.Finishing
import ProcMips.Proofs.Frame.InPlace
import ProcMips.Proofs.Frame.Insertion
import ProcMips.Proofs.Frame.Layout
import ProcMips.Proofs.Frame.Requests
import ProcMips.Proofs.Frame.Steps
import ProcMips.Proofs.Lex.Gaps
import ProcMips.Proofs.Lex.Munch
import ProcMips.Proofs.Lex.Seams
import ProcMips.Proofs.Lex.Spelling
import ProcMips.Proofs.Lex.Words
import ProcMips.Proofs.Lines.Analysis
import ProcMips.Proofs.Lines.Code
import ProcMips.Proofs.Lines.Compilation
import ProcMips.Proofs.Lines.Parsing
import ProcMips.Proofs.Lines.Reading
import ProcMips.Proofs.Machine.Assembled
import ProcMips.Proofs.Machine.Depth
import ProcMips.Proofs.Machine.Execution
import ProcMips.Proofs.Machine.Flat
import ProcMips.Proofs.Machine.Growth
import ProcMips.Proofs.Machine.Images
import ProcMips.Proofs.Machine.Levels
import ProcMips.Proofs.Machine.Memory
import ProcMips.Proofs.Machine.SaveArea
import ProcMips.Proofs.Machine.SavedWords
import ProcMips.Proofs.Machine.Scratch
import ProcMips.Proofs.Machine.Simulation
import ProcMips.Proofs.Machine.Stack
import ProcMips.Proofs.Outline.GraphText
import ProcMips.Proofs.Outline.Labels
import ProcMips.Proofs.Outline.Nesting
import ProcMips.Proofs.Outline.Numbering
import ProcMips.Proofs.Outline.Plain
import ProcMips.Proofs.Outline.TreeText
import ProcMips.Proofs.Parse.Completeness
import ProcMips.Proofs.Parse.FirstFault
import ProcMips.Proofs.Parse.Grammar
import ProcMips.Proofs.Parse.Language
import ProcMips.Proofs.Parse.Lockstep
import ProcMips.Proofs.Parse.Phrases
import ProcMips.Proofs.Parse.Reading
import ProcMips.Proofs.Parse.RoundTrip
import ProcMips.Proofs.Parse.Sizes
import ProcMips.Proofs.Parse.Soundness
import ProcMips.Proofs.Parse.Starts
import ProcMips.Proofs.Parse.Writing
import ProcMips.Proofs.Pipeline
import ProcMips.Proofs.Semantics.Bounds
import ProcMips.Proofs.Semantics.Flat
import ProcMips.Proofs.Semantics.Image
import ProcMips.Proofs.Semantics.Machine
import ProcMips.Proofs.Semantics.Processor
import ProcMips.Proofs.Semantics.Source
import ProcMips.Proofs.Semantics.Steps
import ProcMips.Proofs.Sequencing
import ProcMips.Proofs.Splits
import ProcMips.Proofs.Syntax.Induction
import ProcMips.Proofs.Syntax.Nodes
import ProcMips.Proofs.Syntax.Unlined
import ProcMips.Proofs.Text.Rows
import ProcMips.Proofs.Trace.Selections
import ProcMips.Scope
import ProcMips.Syntax.Basic
import ProcMips.Syntax.Outline
import ProcMips.Tables
import ProcMips.Tables.Text
import ProcMips.Text.Blank
import ProcMips.Text.Lines
import ProcMips.Text.Printed
import ProcMips.Text.Quoted
import ProcMips.Token.Basic
import ProcMips.Token.Lexer
import ProcMips.Trace.Lexer
import ProcMips.Trace.Parser
import ProcMips.Trace.Selection
import ProcMips.Word
