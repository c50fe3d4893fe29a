import ProcMips.Parse.Expression

/-!
Parsing statements. The first token tells which kind of statement follows. Each rule that contains
statements is given the parser for them.
-/

namespace ProcMips

namespace Parser

/-- An optional array size in brackets, which is positive. -/
def arraySize : Parser Shape := do
  enter .arraySize
  match ← accept (.symbol .leftBracket) with
  | none => return .single
  | some _ =>
    match ← next? with
    | some (.literal n) =>
      if 0 < n then
        advance
        let _ ← expect (.symbol .rightBracket)
        return .array n.toNat
      else fail (.invalidArraySize n)
    | found => fail (.expectedArraySize found)

/-- An optional index in brackets after the name `x`. -/
def targetOf (x : String) : Parser Target := do
  enter .lvalueSuffix
  match ← accept (.symbol .leftBracket) with
  | some _ =>
    let index ← expression
    let _ ← expect (.symbol .rightBracket)
    return .element x index
  | none => return .scalar x

/-- A call, or an assignment. -/
def idInstruction : Parser Stmt := do
  enter .idInstruction
  let (l, x) ← identifier
  if ← sees (.symbol .leftParen) then
    let args ← argumentList expression
    let _ ← expect (.symbol .semicolon)
    return .call l x args
  else
    let target ← targetOf x
    match ← accept (.symbol .assign) with
    | none => fail (.expectedAssignOrCall (← next?))
    | some _ =>
      let value ← expression
      let _ ← expect (.symbol .semicolon)
      return .assign l target value

/-- An expression in parentheses. -/
def condition : Parser Expr := do
  let _ ← expect (.symbol .leftParen)
  let e ← expression
  let _ ← expect (.symbol .rightParen)
  return e

def ifInstruction (stmt : Parser Stmt) : Parser Stmt := do
  enter .ifInstruction
  let l ← expect (.keyword .if_)
  let cond ← condition
  let yes ← stmt
  match ← accept (.keyword .else_) with
  | some _ =>
    let no ← stmt
    let _ ← expect (.keyword .endif)
    return .ifElse l cond yes no
  | none =>
    match ← accept (.keyword .endif) with
    | some _ => return .ifThen l cond yes
    | none => fail (.expectedElseOrEndif (← next?))

def whileInstruction (stmt : Parser Stmt) : Parser Stmt := do
  enter .whileInstruction
  let l ← expect (.keyword .while_)
  let cond ← condition
  return .loop l cond (← stmt)

def outputInstruction : Parser Stmt := do
  enter .outputInstruction
  let l ← expect (.keyword .output)
  let value ← condition
  let _ ← expect (.symbol .semicolon)
  return .output l value

def inputInstruction : Parser Stmt := do
  enter .inputInstruction
  let l ← expect (.keyword .input)
  let _ ← expect (.symbol .leftParen)
  let (_, x) ← identifier
  let target ← targetOf x
  let _ ← expect (.symbol .rightParen)
  let _ ← expect (.symbol .semicolon)
  return .input l target

def returnInstruction : Parser Stmt := do
  enter .returnInstruction
  let l ← expect (.keyword .return_)
  let value ← expression
  let _ ← expect (.symbol .semicolon)
  return .ret l value

def declaration : Parser Stmt := do
  enter .declaration
  let l ← expect (.keyword .int)
  let (_, x) ← identifier
  let shape ← arraySize
  let _ ← expect (.symbol .semicolon)
  return .declare l x shape

/-- A statement, unless the block or the text ends here. -/
def blockItem (stmt : Parser Stmt) : Parser (Option Stmt) := do
  match ← next? with
  | none | some (.symbol .rightBrace) => return none
  | _ => return some (← stmt)

def block (stmt : Parser Stmt) : Parser Stmt := do
  enter .block
  let l ← expect (.symbol .leftBrace)
  let body ← bounded (many (blockItem stmt))
  let _ ← expect (.symbol .rightBrace)
  return .block l body

def instruction (stmt : Parser Stmt) : Parser Stmt := do
  enter .statement
  match ← next? with
  | some (.name _) => idInstruction
  | some (.keyword .if_) => ifInstruction stmt
  | some (.keyword .while_) => whileInstruction stmt
  | some (.keyword .output) => outputInstruction
  | some (.keyword .input) => inputInstruction
  | some (.symbol .leftBrace) => block stmt
  | some (.keyword .return_) => returnInstruction
  | some (.keyword .int) => declaration
  | found => fail (.expectedInstruction found)

/-- Statements nested less than `n` deep. -/
def statementAt : Nat → Parser Stmt
  | 0 => do fail (.expectedInstruction (← next?))
  | n + 1 => instruction (statementAt n)

/-- A statement nests no deeper than it has tokens. -/
def statement : Parser Stmt := bounded statementAt

end Parser

end ProcMips
