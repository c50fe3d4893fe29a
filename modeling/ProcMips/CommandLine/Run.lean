import ProcMips.CommandLine.Libraries
import ProcMips.CommandLine.Path
import ProcMips.Pipeline
import ProcMips.Syntax.Outline
import ProcMips.Tables.Text
import ProcMips.Trace.Lexer
import ProcMips.Trace.Parser

/-!
A run of the compiler, as a function of the options and the text: what it prints, which stages it
completes, what it writes, and how it ends. Traces and the log are printed as the work goes on, so their
lines stand between one another.
-/

namespace ProcMips

/-- The stages whose completion is reported. -/
inductive Phase where
  | lexer
  | parser
  | semantic
  | codegen
deriving Repr, DecidableEq

def Phase.text : Phase → String
  | lexer => "Lexer"
  | parser => "Parser"
  | semantic => "Semantic"
  | codegen => "Codegen"

/-- How a run can fail: at a stage, at the last step of writing, or at the options and paths. -/
inductive RunFailure where
  | semantic
  | noProcedures
  | parser
  | writing
  | lexer
  | usage
  | internal
deriving Repr, DecidableEq

namespace RunFailure

/-- The code that the program returns for a failure. The system does not see it: it sees the status. -/
def code? : RunFailure → Option Nat
  | semantic => some 1
  | noProcedures => some 2
  | parser => some 3
  | writing => some 4
  | lexer => some 5
  | usage => some 6
  | internal => none

def status : RunFailure → Nat
  | internal => 101
  | _ => 1

end RunFailure

/-- What a run does: the lines it prints, the events it comes to, the stages it completes, the text that
goes to the output, and its failure, if any. -/
structure Outcome where
  printed : List String
  log : List Event
  completed : List Phase
  output? : Option String
  failure? : Option RunFailure
deriving Repr, DecidableEq

namespace Outcome

def empty : Outcome := ⟨[], [], [], none, none⟩

def print (o : Outcome) (lines : List String) : Outcome := { o with printed := o.printed ++ lines }

def record (o : Outcome) (events : List Event) : Outcome := { o with log := o.log ++ events }

def complete (o : Outcome) (p : Phase) : Outcome := { o with completed := o.completed ++ [p] }

def write (o : Outcome) (text : String) : Outcome := { o with output? := some text }

def failWith (o : Outcome) (f : RunFailure) (lines : List String) : Outcome :=
  { o.print lines with failure? := some f }

/-- A run that does not start. -/
def misused (message : String) : Outcome := empty.failWith .usage [message]

/-- A run whose output cannot be written. Code generation is not over before its output stands. -/
def failToWrite (o : Outcome) (f : RunFailure) (line : String) : Outcome :=
  { o.failWith f [line] with completed := o.completed.filter (· ≠ .codegen), output? := none }

/-- A run that cannot make the file at a path, or a directory above it. -/
def failToCreate (o : Outcome) (path : String) (e : PathError) : Outcome :=
  o.failToWrite .usage s!"Could not create {path}: {e.message}"

/-- A run whose output has no room at a path. -/
def failToStore (o : Outcome) (path : String) : Outcome :=
  o.failToWrite .writing s!"Failed to write {path}: No space left on device (os error 28)"

/-- The status that a run ends with. -/
def status (o : Outcome) : Nat := (o.failure?.map RunFailure.status).getD 0

end Outcome

/-- What a stage lets be seen of its work: a line of its trace, or an event for the log. -/
inductive Report where
  | traced (line : String)
  | logged (e : Event)
deriving Repr, DecidableEq

/-- The settings of a run, once the selections are known. -/
structure Settings where
  stage? : Option Stage
  emit : Emit
  log? : Option LogLevel
  traceLexer : Selection
  traceParser : Selection
deriving Repr, DecidableEq

namespace Settings

section

variable (lib : Libraries) (s : Settings)

/-- The line of the log for an event behind `n` others, if the level shows it. -/
def logLine? (n : Nat) (e : Event) : Option String :=
  match s.log? with
  | some l => if l.showsEvents then some (lib.logLine l n e) else none
  | none => none

/-- An outcome behind one more report. An event counts also if the log does not show it. -/
def report (o : Outcome) : Report → Outcome
  | .traced line => o.print [line]
  | .logged e => (o.print (s.logLine? lib o.log.length e).toList).record [e]

def reportAll (o : Outcome) (rs : List Report) : Outcome := rs.foldl (s.report lib) o

/-- What the lexer lets be seen of its work on a text. -/
def lexReports (text : String) : List Report :=
  .logged (.tokenizing text.length) :: (lexTrace lib.nameOf s.traceLexer text).map .traced

/-- What the parser lets be seen with a note. -/
def parseReport? : ParseNote → Option Report
  | .entered r t => (r.traceLine? lib.nameOf s.traceParser t).map .traced
  | note => (Event.ofParse? note).map .logged

/-- What the parser lets be seen of its work on a list of tokens. -/
def parseReports (ts : List Token) : List Report :=
  (parseNoting ts).notes.filterMap (s.parseReport? lib)

/-- Code generation, and the end of the run. -/
def runCode (p : Program) (t : Tables) (o : Outcome) : Outcome :=
  match p.assembly t with
  | .error _ => o.failWith .internal []
  | .ok text => ((s.reportAll lib o ((Event.ofCode p).map .logged)).write text).complete .codegen

/-- The symbol tables in a format, and the end of the run. -/
def runTables (written : Except String String) (o : Outcome) : Outcome :=
  match written with
  | .error message => o.failWith .writing [message]
  | .ok text => o.write (text ++ "\n")

/-- The tables of an accepted program if they are asked for, and what follows. -/
def runAccepted (p : Program) (t : Tables) (o : Outcome) : Outcome :=
  match s.emit with
  | .tablesJson => runTables (lib.prettyJson t.document) o
  | .tablesYaml => runTables (lib.yaml t.document) o
  | _ => if s.stage? = some .semantic then o else s.runCode lib p t o

/-- Analysis, and what follows. -/
def runAnalysis (p : Program) (o : Outcome) : Outcome :=
  let o := s.reportAll lib o ((Event.ofAnalysis p).map .logged)
  match analyze p with
  | .error (.rejected e) => o.failWith .semantic [(CompileFailure.semantic e).message]
  | .error (.overflow _) => o.failWith .internal []
  | .ok t => s.runAccepted lib p t (o.complete .semantic)

/-- The syntax tree of a program if it is asked for, and what follows. -/
def runProgram (p : Program) (o : Outcome) : Outcome :=
  match s.emit with
  | .ast => o.write p.treeText
  | .dot => o.write p.graphText
  | _ => if s.stage? = some .parser then o else s.runAnalysis lib p o

/-- Parsing, and what follows. -/
def runParser (ts : List Token) (o : Outcome) : Outcome :=
  let o := s.reportAll lib o (s.parseReports lib ts)
  match parse ts with
  | .error e => o.failWith .parser [(CompileFailure.parser e).message]
  | .ok p =>
    if p.procedures.isEmpty then o.failWith .noProcedures ["No procedures were parsed"]
    else s.runProgram lib p (o.complete .parser)

/-- A run over a text. -/
def run (text : String) : Outcome :=
  let o := s.reportAll lib .empty (s.lexReports lib text)
  match (tokenize text).toExcept with
  | .error e => o.failWith .lexer [(CompileFailure.lexer e).message]
  | .ok ts =>
    let o := o.complete .lexer
    if s.stage? = some .lexer then o else s.runParser lib ts o

end

end Settings

namespace Options

/-- The settings, or the first selection that is malformed. -/
def settings (o : Options) : Except Selection.Malformed Settings := do
  let traceLexer ← o.traceLexer
  let traceParser ← o.traceParser
  return ⟨o.stage?, o.emit, o.log?, traceLexer, traceParser⟩

/-- A run with these options, given the contents of the input if it can be read. -/
def run (lib : Libraries) (o : Options) (contents : Except PathError String) : Outcome :=
  match o.settings with
  | .error e => .misused e.message
  | .ok s =>
    match contents with
    | .error e => .misused s!"Could not read {o.input}: {e.message}"
    | .ok text => s.run lib text

end Options

end ProcMips
