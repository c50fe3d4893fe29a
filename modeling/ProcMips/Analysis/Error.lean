import ProcMips.Diagnostic
import ProcMips.Syntax.Basic
import ProcMips.Word

/-!
What makes a program ill-formed.
-/

namespace ProcMips

inductive SemanticError where
  | alreadyDeclaredGlobal (name : String)
  | alreadyDeclared (name : String)
  | procAlreadyDeclared (name : String)
  | noMain
  | mainHasArgs
  | notDeclared (name : String)
  | notSingle (name : String)
  | notArray (name : String)
  | procNotDeclared (name : String)
  | wrongArgCount (name : String) (expected found : Nat)
  | argNotInteger (name : String)
  | expected (type : Ty) (construct : String)
  | frameTooLarge (name : String)
deriving Repr, DecidableEq

def SemanticError.message : SemanticError → String
  | alreadyDeclaredGlobal x => s!"already declared a global variable with identifier: {x}"
  | alreadyDeclared x => s!"already declared a variable with identifier: {x}"
  | procAlreadyDeclared p => s!"a procedure with the name {p} has already been declared"
  | noMain => "must have main procedure"
  | mainHasArgs => "main must take no arguments"
  | notDeclared x => s!"{x} is undeclared"
  | notSingle x => s!"{x} is an array and must be indexed"
  | notArray x => s!"{x} is not an array"
  | procNotDeclared p => s!"{p} has not yet been declared"
  | wrongArgCount p n _ => s!"{p} requires {n} arguments"
  | argNotInteger p => s!"arguments to {p} must be integers"
  | expected .int construct => s!"{construct} requires an integer"
  | expected .bool construct => s!"{construct} requires a boolean"
  | frameTooLarge x => s!"declaring {x} makes the stack frame too large"

/-- Why analysis stops: the program is rejected, or the layout of a frame leaves the range of a
word. -/
inductive AnalysisFailure where
  | rejected (e : Located SemanticError)
  | overflow (op : Overflow)
deriving Repr, DecidableEq

end ProcMips
