import ProcMips.Analysis.Program
import ProcMips.Parse.Program

/-!
The log of a compilation: what each stage reports, and the text of each report.
-/

namespace ProcMips

inductive Event where
  | tokenizing (characters : Nat)
  | parsedGlobal (name : String)
  | parsedProcedure (name : String)
  | analysis (note : AnalysisNote)
  | codeStarted
  | compiling (procedure : String)
  | codeFinished
deriving Repr, DecidableEq

namespace Event

def ofParse? : ParseNote → Option Event
  | .entered .. => none
  | .parsedGlobal x => some (parsedGlobal x)
  | .parsedProcedure p => some (parsedProcedure p)

/-- The module that logs an event, by the modules around it and its name. -/
def source : Event → List String
  | tokenizing _ => ["blaise_lang", "compiler", "lexer", "lexer"]
  | parsedGlobal _ | parsedProcedure _ => ["blaise_lang", "compiler", "parser", "parser"]
  | analysis _ => ["blaise_lang", "compiler", "semantics", "analyzer"]
  | codeStarted | compiling _ | codeFinished => ["blaise_lang", "compiler", "compiler"]

/-- What the parser reports of a list of tokens. -/
def ofParsing (ts : List Token) : List Event := (parseNoting ts).notes.filterMap ofParse?

/-- What the analysis of a program reports. -/
def ofAnalysis (p : Program) : List Event := (analyzeNoting p).notes.map analysis

/-- What the generation of code for a whole program reports. -/
def ofCode (p : Program) : List Event :=
  codeStarted :: p.procedures.map (fun q => compiling q.name) ++ [codeFinished]

def message : Event → String
  | tokenizing n => s!"Tokenizing {n} characters"
  | parsedGlobal x => s!"Parsed global {x}"
  | parsedProcedure p => s!"Parsed procedure {p}"
  | analysis .started => "Start semantic analysis"
  | analysis (.analyzing p) => s!"Analyzing procedure {p}"
  | analysis (.laidOut p n) => s!"Frame of {p}: {n} bytes"
  | analysis .finished => "Finished semantic analysis"
  | codeStarted => "Start code generation"
  | compiling p => s!"Compiling procedure {p}"
  | codeFinished => "Finished code generation"

end Event

end ProcMips
