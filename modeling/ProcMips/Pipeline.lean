import ProcMips.CodeGen
import ProcMips.Event
import ProcMips.Token.Lexer

/-!
Compilation of a text: tokens, program, symbol tables, assembly. The first stage that fails decides
the outcome, and the log keeps what was reported up to there.
-/

namespace ProcMips

/-- The stage that failed, and why. -/
inductive CompileFailure where
  | lexer (e : Located LexError)
  | parser (e : Located ParseError)
  | semantic (e : Located SemanticError)
  | overflow (op : Overflow)
  | code (e : CodeError)
deriving Repr, DecidableEq

namespace CompileFailure

def ofAnalysis : AnalysisFailure → CompileFailure
  | .rejected e => semantic e
  | .overflow op => overflow op

def message : CompileFailure → String
  | lexer e => "Lexer error @ " ++ e.text LexError.message
  | parser e => "Parser error @ " ++ e.text ParseError.message
  | semantic e => "Semantic error @ " ++ e.text SemanticError.message
  | overflow op => op.message
  | code e => e.message

end CompileFailure

/-- The program that a text writes. -/
def programOf (text : String) : Except CompileFailure Program := do
  let tokens ← (tokenize text).toExcept.mapError .lexer
  (parse tokens).mapError .parser

/-- The symbol tables of the program that a text writes. -/
def tablesOf (text : String) : Except CompileFailure Tables := do
  (analyze (← programOf text)).mapError .ofAnalysis

/-- The assembly of the program that a text writes. -/
def compile (text : String) : Except CompileFailure String := do
  let program ← programOf text
  let tables ← (analyze program).mapError .ofAnalysis
  (program.assembly tables).mapError .code

/-- What is reported while code is generated for a program. -/
def codeLog (p : Program) (t : Tables) : List Event :=
  match p.assembly t with
  | .error _ => []
  | .ok _ => Event.ofCode p

/-- What is reported of a program from its analysis on. -/
def programLog (p : Program) : List Event :=
  Event.ofAnalysis p ++ match analyze p with
    | .error _ => []
    | .ok t => codeLog p t

/-- What is reported while a text is compiled. -/
def compileLog (text : String) : List Event :=
  .tokenizing text.length :: match (tokenize text).toExcept with
    | .error _ => []
    | .ok ts => Event.ofParsing ts ++ match parse ts with
      | .error _ => []
      | .ok p => programLog p

end ProcMips
