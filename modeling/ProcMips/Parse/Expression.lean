import ProcMips.Parse.Cursor
import ProcMips.Syntax.Basic

/-!
Parsing expressions. All binary operators have one precedence, and the right operand is everything
that follows: `1 - 2 - 3` is `1 - (2 - 3)`. Each rule is given the parser for the expressions
inside it.
-/

namespace ProcMips

/-- The operator that a lexeme writes. -/
def BinOp.ofLexeme? : Lexeme → Option BinOp
  | .symbol .plus => some .add
  | .symbol .minus => some .sub
  | .symbol .star => some .mul
  | .symbol .slash => some .div
  | .symbol .percent => some .rem
  | .symbol .less => some .less
  | .symbol .lessEqual => some .lessEqual
  | .symbol .greater => some .greater
  | .symbol .greaterEqual => some .greaterEqual
  | .symbol .equal => some .equal
  | .keyword .and => some .and
  | .keyword .or => some .or
  | _ => none

namespace Parser

/-- Zero or more expressions in parentheses, with commas between them. -/
def argumentList (expr : Parser Expr) : Parser (List Expr) := do
  enter .argumentList
  let _ ← expect (.symbol .leftParen)
  match ← accept (.symbol .rightParen) with
  | some _ => return []
  | none =>
    let args ← bounded (commaList expr)
    let _ ← expect (.symbol .rightParen)
    return args

def identifierOrCall (expr : Parser Expr) : Parser Expr := do
  enter .identifierOrCall
  let (line, x) ← identifier
  if ← sees (.symbol .leftParen) then
    return .call line x (← argumentList expr)
  else
    match ← accept (.symbol .leftBracket) with
    | some _ =>
      let index ← expr
      let _ ← expect (.symbol .rightBracket)
      return .element line x index
    | none => return .scalar line x

def factor (expr : Parser Expr) : Parser Expr := do
  enter .factor
  let l ← line
  match ← next? with
  | some (.keyword .true_) =>
    advance
    return .bool l true
  | some (.keyword .false_) =>
    advance
    return .bool l false
  | some (.symbol .leftParen) =>
    advance
    let e ← expr
    let _ ← expect (.symbol .rightParen)
    return e
  | some (.keyword .not) =>
    advance
    let _ ← expect (.symbol .leftParen)
    let e ← expr
    let _ ← expect (.symbol .rightParen)
    return .not l e
  | some (.literal n) =>
    advance
    return .int l n
  | some (.name _) => identifierOrCall expr
  | found => fail (.expectedExpression found)

/-- A factor, or a factor, an operator and what `expr` reads. A binary node has the line of its
operator. -/
def operation (expr : Parser Expr) : Parser Expr := do
  enter .expression
  let left ← factor expr
  let l ← line
  match (← next?).bind BinOp.ofLexeme? with
  | some op =>
    advance
    return .binary l op left (← expr)
  | none => return left

/-- Expressions nested less than `n` deep. -/
def expressionAt : Nat → Parser Expr
  | 0 => do fail (.expectedExpression (← next?))
  | n + 1 => operation (expressionAt n)

/-- An expression nests no deeper than it has tokens. -/
def expression : Parser Expr := bounded expressionAt

end Parser

end ProcMips
