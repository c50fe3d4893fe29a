import ProcMips.Diagnostic

/-!
The syntax of programs: types and shapes of values, operators, expressions, statements, procedures.
Every node keeps the line it was read from.
-/

namespace ProcMips

inductive Ty where
  | int
  | bool
deriving Repr, DecidableEq

def Ty.text : Ty → String
  | int => "int"
  | bool => "bool"

/-- What a variable stores: one word, or a number of them. -/
inductive Shape where
  | single
  | array (words : Nat)
deriving Repr, DecidableEq

namespace Shape

def words : Shape → Nat
  | single => 1
  | array n => n

def text : Shape → String
  | single => "single"
  | array n => s!"array[{n}]"

end Shape

inductive BinOp where
  | add
  | sub
  | mul
  | div
  | rem
  | less
  | lessEqual
  | equal
  | greaterEqual
  | greater
  | and
  | or
deriving Repr, DecidableEq

inductive OpClass where
  | arithmetic
  | comparison
  | logical
deriving Repr, DecidableEq

namespace BinOp

def text : BinOp → String
  | add => "+"
  | sub => "-"
  | mul => "*"
  | div => "/"
  | rem => "%"
  | less => "<"
  | lessEqual => "<="
  | equal => "="
  | greaterEqual => ">="
  | greater => ">"
  | and => "and"
  | or => "or"

def opClass : BinOp → OpClass
  | add | sub | mul | div | rem => .arithmetic
  | less | lessEqual | equal | greaterEqual | greater => .comparison
  | and | or => .logical

/-- The type of both operands. -/
def operand (op : BinOp) : Ty :=
  match op.opClass with
  | .arithmetic | .comparison => .int
  | .logical => .bool

def result (op : BinOp) : Ty :=
  match op.opClass with
  | .arithmetic => .int
  | .comparison | .logical => .bool

end BinOp

inductive Expr where
  | int (line : Line) (value : Int)
  | bool (line : Line) (value : Bool)
  | scalar (line : Line) (name : String)
  | element (line : Line) (name : String) (index : Expr)
  | call (line : Line) (name : String) (args : List Expr)
  | binary (line : Line) (op : BinOp) (left right : Expr)
  | not (line : Line) (operand : Expr)
deriving Repr

namespace Expr

def line : Expr → Line
  | int l _ | bool l _ | scalar l _ | element l _ _ | call l _ _ | binary l _ _ _ | not l _ => l

/-- The type of an expression is fixed by its outermost node. -/
def type : Expr → Ty
  | int .. | scalar .. | element .. | call .. => .int
  | bool .. | not .. => .bool
  | binary _ op _ _ => op.result

/-- The node itself, without its operands. -/
def head : Expr → String
  | int _ n => toString n
  | bool _ b => toString b
  | scalar _ x => x
  | element _ x _ => x ++ "[]"
  | call _ f _ => f ++ "()"
  | binary _ op _ _ => op.text
  | not .. => "not"

end Expr

/-- What an assignment or an input instruction writes to. -/
inductive Target where
  | scalar (name : String)
  | element (name : String) (index : Expr)
deriving Repr

namespace Target

def name : Target → String
  | scalar x | element x _ => x

def shapeText : Target → String
  | scalar _ => "single"
  | element .. => "array"

end Target

inductive Stmt where
  | declare (line : Line) (name : String) (shape : Shape)
  | assign (line : Line) (target : Target) (value : Expr)
  | block (line : Line) (body : List Stmt)
  | ifThen (line : Line) (condition : Expr) (yes : Stmt)
  | ifElse (line : Line) (condition : Expr) (yes no : Stmt)
  | loop (line : Line) (condition : Expr) (body : Stmt)
  | output (line : Line) (value : Expr)
  | input (line : Line) (target : Target)
  | ret (line : Line) (value : Expr)
  | call (line : Line) (name : String) (args : List Expr)
deriving Repr

namespace Stmt

def line : Stmt → Line
  | declare l _ _ | assign l _ _ | block l _ | ifThen l _ _ | ifElse l _ _ _ | loop l _ _
  | output l _ | input l _ | ret l _ | call l _ _ => l

/-- The node itself, without its parts. -/
def head : Stmt → String
  | declare _ x s => s!"declare {s.text} {x}"
  | assign _ t _ => s!"assign {t.shapeText} {t.name}"
  | block .. => "block"
  | ifThen .. => "if-then"
  | ifElse .. => "if-then-else"
  | loop .. => "while"
  | output .. => "output"
  | input _ t => s!"input {t.shapeText} {t.name}"
  | ret .. => "return"
  | call _ f _ => "call " ++ f

end Stmt

structure Global where
  line : Line
  name : String
  shape : Shape
deriving Repr, DecidableEq

structure Param where
  line : Line
  name : String
deriving Repr, DecidableEq

structure Procedure where
  line : Line
  name : String
  params : List Param
  body : Stmt
deriving Repr

structure Program where
  globals : List Global
  procedures : List Procedure
deriving Repr

/-- The procedure that a program starts with. -/
def mainName : String := "main"

namespace Program

def procedure? (p : Program) (name : String) : Option Procedure :=
  p.procedures.find? (·.name == name)

end Program

end ProcMips
