import ProcMips.Trace.Selection

/-!
The options of the command line: their spellings, the values they take, and what the values ask for.
-/

namespace ProcMips

/-- The stage after which compilation stops. -/
inductive Stage where
  | lexer
  | parser
  | semantic
deriving Repr, DecidableEq

namespace Stage

def text : Stage → String
  | lexer => "lexer"
  | parser => "parser"
  | semantic => "semantic"

def all : List Stage := [lexer, parser, semantic]

def ofText? (s : String) : Option Stage := all.find? (·.text == s)

def unknownMessage (s : String) : String := "Unknown stage: " ++ s

end Stage

/-- What is written to the output file. -/
inductive Emit where
  | asm
  | ast
  | dot
  | tablesJson
  | tablesYaml
deriving Repr, DecidableEq

namespace Emit

def text : Emit → String
  | asm => "asm"
  | ast => "ast"
  | dot => "dot"
  | tablesJson => "tables-json"
  | tablesYaml => "tables-yaml"

def all : List Emit := [asm, ast, dot, tablesJson, tablesYaml]

def ofText? (s : String) : Option Emit := all.find? (·.text == s)

def unknownMessage (s : String) : String := "Unknown emit format: " ++ s

end Emit

inductive LogLevel where
  | error
  | warn
  | info
  | debug
  | trace
deriving Repr, DecidableEq

namespace LogLevel

def text : LogLevel → String
  | error => "error"
  | warn => "warn"
  | info => "info"
  | debug => "debug"
  | trace => "trace"

/-- The name of a level in a log. -/
def label (l : LogLevel) : String := l.text.toUpper

def all : List LogLevel := [error, warn, info, debug, trace]

/-- The level of every event of a compilation. -/
def ofEvents : LogLevel := debug

/-- Whether a log of this level has the events of a compilation. -/
def showsEvents : LogLevel → Bool
  | debug | trace => true
  | _ => false

def ofText? (s : String) : Option LogLevel := all.find? (·.text == s)

end LogLevel

inductive OptionName where
  | input
  | output
  | stage
  | emit
  | log
  | traceLexer
  | traceParser
deriving Repr, DecidableEq

namespace OptionName

def all : List OptionName := [input, output, stage, emit, log, traceLexer, traceParser]

def long : OptionName → String
  | input => "input"
  | output => "output"
  | stage => "stage"
  | emit => "emit"
  | log => "log"
  | traceLexer => "trace-lexer"
  | traceParser => "trace-parser"

def short? : OptionName → Option Char
  | input => some 'i'
  | output => some 'o'
  | _ => none

def ofLong? (s : List Char) : Option OptionName := all.find? (·.long.toList == s)

def ofShort? (c : Char) : Option OptionName := all.find? (·.short? == some c)

/-- Whether the option can have the value `v`. -/
def allows (o : OptionName) (v : String) : Bool :=
  match o with
  | stage => (Stage.ofText? v).isSome
  | emit => (Emit.ofText? v).isSome
  | log => (LogLevel.ofText? v).isSome
  | _ => true

end OptionName

/-- The value that the command line gives to each option, if it gives one. -/
abbrev Matches := OptionName → Option String

/-- Where the assembly goes unless the output is named. -/
def defaultOutput : String := "./target/output.s"

namespace Matches

def stage? (m : Matches) : Except String (Option Stage) :=
  match m .stage with
  | none => .ok none
  | some s => match Stage.ofText? s with
    | some stage => .ok (some stage)
    | none => .error (Stage.unknownMessage s)

def emit (m : Matches) : Except String Emit :=
  match m .emit with
  | none => .ok .asm
  | some s => match Emit.ofText? s with
    | some emit => .ok emit
    | none => .error (Emit.unknownMessage s)

def output (m : Matches) : String := (m .output).getD defaultOutput

/-- A level that is none leaves the log off. -/
def log? (m : Matches) : Option LogLevel := (m .log).bind LogLevel.ofText?

/-- The lines that a stage traces, by the option that selects them. -/
def selection (m : Matches) (o : OptionName) : Except Selection.Malformed Selection :=
  match m o with
  | none => .ok .off
  | some s => Selection.parse s

def missingInputMessage : String := "Expected an input source file to compile"

end Matches

/-- What the command line asks for. A selection that is no selection is reported when it is needed.
-/
structure Options where
  input : String
  output : String
  stage? : Option Stage
  emit : Emit
  log? : Option LogLevel
  traceLexer : Except Selection.Malformed Selection
  traceParser : Except Selection.Malformed Selection

namespace Options

/-- The options that values stand for. A missing input is reported after all else that is wrong. -/
def ofMatches (m : Matches) : Except String Options := do
  let stage? ← m.stage?
  let emit ← m.emit
  let traceLexer := m.selection .traceLexer
  let traceParser := m.selection .traceParser
  match m .input with
  | some input => return ⟨input, m.output, stage?, emit, m.log?, traceLexer, traceParser⟩
  | none =>
    let _ ← traceLexer.mapError Selection.Malformed.message
    let _ ← traceParser.mapError Selection.Malformed.message
    throw Matches.missingInputMessage

end Options

end ProcMips
