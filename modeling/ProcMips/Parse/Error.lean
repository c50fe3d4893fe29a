import ProcMips.Token.Basic

/-!
What a parser can miss, and how it says so.
-/

namespace ProcMips

/-- What was missing; `found` is the lexeme that stands there instead, if any. -/
inductive ParseError where
  | emptyProgram
  | expected (wanted : List TokenClass) (found : Option Lexeme)
  | expectedVarOrProcedure (found : Option Lexeme)
  | expectedProcedure (found : Option Lexeme)
  | expectedInstruction (found : Option Lexeme)
  | expectedExpression (found : Option Lexeme)
  | expectedAssignOrCall (found : Option Lexeme)
  | expectedElseOrEndif (found : Option Lexeme)
  | expectedArraySize (found : Option Lexeme)
  | invalidArraySize (size : Int)
deriving Repr, DecidableEq

namespace ParseError

def foundText : Option Lexeme → String
  | some l => l.text
  | none => "EOF"

def wantedText (wanted : List TokenClass) : String :=
  " or ".intercalate (wanted.map TokenClass.text)

def message : ParseError → String
  | emptyProgram => "Program contains no procedures"
  | expected wanted found => s!"Expected {wantedText wanted}, but found {foundText found}"
  | expectedVarOrProcedure found =>
    s!"Expected variable or procedure declaration, but found {foundText found}"
  | expectedProcedure found => s!"Expected procedure, but found {foundText found}"
  | expectedInstruction found => s!"Expected valid instruction, but found {foundText found}"
  | expectedExpression found => s!"Expected valid expression, but found {foundText found}"
  | expectedAssignOrCall found =>
    s!"Expected := or ( after identifier, but found {foundText found}"
  | expectedElseOrEndif found => s!"Expected endif, but found {foundText found}"
  | expectedArraySize found => s!"Expected integer array size, but found {foundText found}"
  | invalidArraySize size => s!"Array size must be greater than 0, but was {size}"

end ParseError

end ProcMips
