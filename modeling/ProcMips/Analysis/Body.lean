import ProcMips.Analysis.Error
import ProcMips.Scope
import ProcMips.Tables

/-!
Checking the body of a procedure against the scopes that are open, and laying out its frame. Types
are fixed by the outermost node of an expression, so that a type is checked before the operands
are.
-/

namespace ProcMips

/-- Fails on `line`. -/
def reject {α : Type} (line : Line) (e : SemanticError) : Except AnalysisFailure α :=
  .error (.rejected ⟨line, e⟩)

def Shape.kind : Shape → VarKind
  | single => .single
  | array _ => .array

/-- The number of parameters of each procedure that can be called. -/
abbrev Arities := String → Option Nat

namespace Expr

def expectType (e : Expr) (type : Ty) (construct : String) : Except AnalysisFailure Unit :=
  if e.type = type then .ok () else reject e.line (.expected type construct)

end Expr

namespace ScopeStack

/-- `name` must be visible, with the kind `k`. -/
def expectKind (ss : ScopeStack) (line : Line) (name : String) (k : VarKind) :
    Except AnalysisFailure Unit :=
  match ss.find name, k with
  | .untyped, _ => reject line (.notDeclared name)
  | .array, .single => reject line (.notSingle name)
  | .single, .array => reject line (.notArray name)
  | _, _ => .ok ()

end ScopeStack

/-- What a call must satisfy apart from its arguments being well-formed. -/
def checkCall (arity : Arities) (line : Line) (name : String) (args : List Expr) :
    Except AnalysisFailure Unit :=
  match arity name with
  | none => reject line (.procNotDeclared name)
  | some n =>
    if args.any (·.type != .int) then reject line (.argNotInteger name)
    else if args.length ≠ n then reject line (.wrongArgCount name n args.length)
    else .ok ()

mutual

def Expr.check (ss : ScopeStack) (arity : Arities) : Expr → Except AnalysisFailure Unit
  | .int .. | .bool .. => .ok ()
  | .scalar line x => ss.expectKind line x .single
  | .element line x index => do
    ss.expectKind line x .array
    index.expectType .int "array index"
    index.check ss arity
  | .call line f args => do
    checkCall arity line f args
    Expr.checkAll ss arity args
  | .binary _ op left right => do
    left.expectType op.operand op.text
    right.expectType op.operand op.text
    left.check ss arity
    right.check ss arity
  | .not _ operand => do
    operand.expectType .bool "not"
    operand.check ss arity

def Expr.checkAll (ss : ScopeStack) (arity : Arities) : List Expr → Except AnalysisFailure Unit
  | [] => .ok ()
  | e :: es => do
    e.check ss arity
    Expr.checkAll ss arity es

end

namespace Target

/-- The name of a target must be visible, with the shape that the target has. -/
def checkKind (ss : ScopeStack) (line : Line) : Target → Except AnalysisFailure Unit
  | scalar x => ss.expectKind line x .single
  | element x _ => ss.expectKind line x .array

def checkIndexType : Target → Except AnalysisFailure Unit
  | scalar _ => .ok ()
  | element _ index => index.expectType .int "array index"

def checkIndex (ss : ScopeStack) (arity : Arities) : Target → Except AnalysisFailure Unit
  | scalar _ => .ok ()
  | element _ index => index.check ss arity

end Target

/-- The scopes that are open and the frame that has been laid out, at a point in a body. -/
structure BodyState where
  scopes : ScopeStack
  frame : Frame
deriving Repr, DecidableEq

/-- A check of a part of a body. Its state is known even if it fails. -/
abbrev BodyCheck := EStateM AnalysisFailure BodyState

namespace BodyCheck

/-- A check that only looks at the scopes. -/
def look (p : ScopeStack → Except AnalysisFailure Unit) : BodyCheck Unit := fun s =>
  match p s.scopes with
  | .ok () => .ok () s
  | .error e => .error e s

/-- Runs `p` in a scope of its own, which is closed however `p` ends. -/
def inScope (p : BodyCheck Unit) : BodyCheck Unit := fun s =>
  match p { s with scopes := [] :: s.scopes } with
  | .ok () s => .ok () { s with scopes := s.scopes.tail }
  | .error e s => .error e { s with scopes := s.scopes.tail }

/-- Declares a name that is not visible yet. -/
def declare (line : Line) (name : String) (k : VarKind) : BodyCheck Unit := fun s =>
  if s.scopes.isDeclared name then .error (.rejected ⟨line, .alreadyDeclared name⟩) s
  else .ok () { s with scopes := s.scopes.declare name k }

/-- Changes the frame, on behalf of `name`. -/
def layOut (line : Line) (name : String) (p : Frame → Except Frame.Refusal Frame) :
    BodyCheck Unit := fun s =>
  match p s.frame with
  | .ok frame => .ok () { s with frame }
  | .error .tooLarge => .error (.rejected ⟨line, .frameTooLarge name⟩) s
  | .error (.overflow op) => .error (.overflow op) s

end BodyCheck

open BodyCheck

mutual

def Stmt.check (arity : Arities) : Stmt → BodyCheck Unit
  | .declare line x shape => do
    BodyCheck.declare line x shape.kind
    layOut line x (·.insert x shape.words)
  | .assign line target value => look fun ss => do
    value.expectType .int "assignment"
    target.checkIndexType
    target.checkKind ss line
    value.check ss arity
    target.checkIndex ss arity
  | .input line target => look fun ss => do
    target.checkKind ss line
    target.checkIndexType
    target.checkIndex ss arity
  | .block _ body => inScope (Stmt.checkAll arity body)
  | .ifThen _ cond yes => do
    look fun ss => do
      cond.expectType .bool "if condition"
      cond.check ss arity
    inScope (yes.check arity)
  | .ifElse _ cond yes no => do
    look fun ss => do
      cond.expectType .bool "if condition"
      cond.check ss arity
    inScope (yes.check arity)
    inScope (no.check arity)
  | .loop _ cond body => do
    look fun ss => do
      cond.expectType .bool "while condition"
      cond.check ss arity
    inScope (body.check arity)
  | .output _ value => look fun ss => do
    value.expectType .int "output"
    value.check ss arity
  | .ret _ value => look fun ss => do
    value.expectType .int "return"
    value.check ss arity
  | .call line f args => look fun ss => do
    checkCall arity line f args
    Expr.checkAll ss arity args

def Stmt.checkAll (arity : Arities) : List Stmt → BodyCheck Unit
  | [] => return ()
  | s :: ss => do
    s.check arity
    Stmt.checkAll arity ss

end

namespace Param

/-- A parameter is a variable of one word, which the caller stores. -/
def check (p : Param) : BodyCheck Unit := do
  declare p.line p.name .single
  layOut p.line p.name (·.insertArg p.name)

def checkAll : List Param → BodyCheck Unit
  | [] => return ()
  | p :: ps => do
    p.check
    checkAll ps

end Param

end ProcMips
