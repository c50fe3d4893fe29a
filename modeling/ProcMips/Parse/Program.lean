import ProcMips.Parse.Statement

/-!
Parsing programs: global variables, then procedures, then nothing.
-/

namespace ProcMips

namespace Parser

def global? : Parser (Option Global) := do
  enter .varDecl
  match ← accept (.keyword .var) with
  | none => return none
  | some l =>
    let _ ← expect (.keyword .int)
    let (_, x) ← identifier
    let shape ← arraySize
    let _ ← expect (.symbol .semicolon)
    note (.parsedGlobal x)
    return some ⟨l, x, shape⟩

def param : Parser Param := do
  let l ← expect (.keyword .int)
  let (_, x) ← identifier
  return ⟨l, x⟩

def parameterList : Parser (List Param) := do
  enter .parameterList
  let _ ← expect (.symbol .leftParen)
  match ← accept (.symbol .rightParen) with
  | some _ => return []
  | none =>
    let params ← bounded (commaList param)
    let _ ← expect (.symbol .rightParen)
    return params

def procedure? : Parser (Option Procedure) := do
  enter .procedureDef
  match ← accept (.keyword .procedure) with
  | none => return none
  | some l =>
    let _ ← expect (.keyword .int)
    let (_, x) ← identifier
    let params ← parameterList
    let body ← statement
    note (.parsedProcedure x)
    return some ⟨l, x, params, body⟩

def program : Parser Program := do
  if (← next?).isNone then
    fail .emptyProgram
  let globals ← bounded (many global?)
  unless ← sees (.keyword .procedure) do
    fail (.expectedVarOrProcedure (← next?))
  let procedures ← bounded (many procedure?)
  if (← next?).isSome then
    fail (.expectedProcedure (← next?))
  return ⟨globals, procedures⟩

end Parser

/-- The outcome of parsing, and what happened on the way, earliest first. -/
structure Parsed where
  outcome : Except (Located ParseError) Program
  notes : List ParseNote
deriving Repr

/-- Parses a list of tokens, and notes what happens. -/
def parseNoting (ts : List Token) : Parsed :=
  match Parser.program (TokenCursor.start ts) with
  | .ok p c => ⟨.ok p, c.notes.reverse⟩
  | .error e c => ⟨.error e, c.notes.reverse⟩

/-- The program that a list of tokens writes. -/
def parse (ts : List Token) : Except (Located ParseError) Program := (parseNoting ts).outcome

end ProcMips
