import Mathlib.Logic.Function.Basic
import ProcMips.Analysis.Body
import ProcMips.Proofs.Frame.Requests
import ProcMips.Proofs.Syntax.Induction

/-! Well-formed programs, by rules over the syntax: what is visible at a point, which type an
expression has there, and what a statement, a procedure and a program must satisfy. No scope is pushed
or popped here, and nothing is laid out. -/

namespace ProcMips

/-- What each name stands for at a point, untyped if it is not visible there. -/
abbrev Visible := String → VarKind

namespace Visible

def nothing : Visible := fun _ => .untyped

/-- What is visible behind a declaration of `x`. -/
def declaring (v : Visible) (x : String) (k : VarKind) : Visible := Function.update v x k

end Visible

section

variable (v : Visible) (callable : List Procedure)

/-- The type of an expression from which the procedures `callable` can be called. -/
inductive Expr.HasType : Expr → Ty → Prop
  | int (l : Line) (n : Int) : HasType (.int l n) .int
  | bool (l : Line) (b : Bool) : HasType (.bool l b) .bool
  | scalar (l : Line) {x : String} (hx : v x = .single) : HasType (.scalar l x) .int
  | element (l : Line) {x : String} {index : Expr} (hx : v x = .array) (hi : HasType index .int) :
    HasType (.element l x index) .int
  | call (l : Line) {q : Procedure} {args : List Expr} (hq : q ∈ callable)
    (hn : args.length = q.params.length) (ha : ∀ a ∈ args, HasType a .int) :
    HasType (.call l q.name args) .int
  | binary (l : Line) {op : BinOp} {left right : Expr} (hl : HasType left op.operand)
    (hr : HasType right op.operand) : HasType (.binary l op left right) op.result
  | not (l : Line) {operand : Expr} (h : HasType operand .bool) : HasType (.not l operand) .bool

inductive Target.WellFormed : Target → Prop
  | scalar {x : String} (hx : v x = .single) : WellFormed (.scalar x)
  | element {x : String} {index : Expr} (hx : v x = .array)
    (hi : index.HasType v callable .int) : WellFormed (.element x index)

end

/-- What is visible behind a statement. Only a declaration adds to it. -/
def Stmt.after (v : Visible) : Stmt → Visible
  | declare _ x shape => v.declaring x shape.kind
  | _ => v

section

variable (callable : List Procedure)

/-- A statement of a block sees what the statements before it declare. -/
inductive Stmt.WellFormed : Visible → Stmt → Prop
  | declare {v : Visible} (l : Line) {x : String} (shape : Shape) (hx : v x = .untyped) :
    WellFormed v (.declare l x shape)
  | assign {v : Visible} (l : Line) {target : Target} {value : Expr}
    (ht : target.WellFormed v callable) (hv : value.HasType v callable .int) :
    WellFormed v (.assign l target value)
  | block {v : Visible} (l : Line) {body : List Stmt}
    (h : ∀ before s rest, body = before ++ s :: rest → WellFormed (before.foldl Stmt.after v) s) :
    WellFormed v (.block l body)
  | ifThen {v : Visible} (l : Line) {cond : Expr} {yes : Stmt}
    (hc : cond.HasType v callable .bool) (hy : WellFormed v yes) : WellFormed v (.ifThen l cond yes)
  | ifElse {v : Visible} (l : Line) {cond : Expr} {yes no : Stmt}
    (hc : cond.HasType v callable .bool) (hy : WellFormed v yes) (hn : WellFormed v no) :
    WellFormed v (.ifElse l cond yes no)
  | loop {v : Visible} (l : Line) {cond : Expr} {body : Stmt}
    (hc : cond.HasType v callable .bool) (hb : WellFormed v body) :
    WellFormed v (.loop l cond body)
  | output {v : Visible} (l : Line) {value : Expr} (hv : value.HasType v callable .int) :
    WellFormed v (.output l value)
  | input {v : Visible} (l : Line) {target : Target} (ht : target.WellFormed v callable) :
    WellFormed v (.input l target)
  | ret {v : Visible} (l : Line) {value : Expr} (hv : value.HasType v callable .int) :
    WellFormed v (.ret l value)
  | call {v : Visible} (l : Line) {q : Procedure} {args : List Expr} (hq : q ∈ callable)
    (hn : args.length = q.params.length) (ha : ∀ a ∈ args, a.HasType v callable .int) :
    WellFormed v (.call l q.name args)

end

mutual

/-- The declarations in a statement, at any depth, with the words that they ask for. -/
def Stmt.declared : Stmt → Requests
  | .declare _ x shape => [(x, shape.words)]
  | .block _ body => Stmt.declaredAll body
  | .ifThen _ _ yes => yes.declared
  | .ifElse _ _ yes no => yes.declared ++ no.declared
  | .loop _ _ body => body.declared
  | .assign .. | .output .. | .input .. | .ret .. | .call .. => []

def Stmt.declaredAll : List Stmt → Requests
  | [] => []
  | s :: ss => s.declared ++ Stmt.declaredAll ss

end

def Param.after (v : Visible) (p : Param) : Visible := v.declaring p.name .single

namespace Procedure

/-- What the parameters and the body of a procedure ask for. -/
def requests (p : Procedure) : Requests := p.params.map (fun q => (q.name, 1)) ++ p.body.declared

/-- A procedure among the globals `v`. Parameters are declared one behind the other. -/
structure WellFormed (v : Visible) (callable : List Procedure) (p : Procedure) : Prop where
  params : ∀ before q rest, p.params = before ++ q :: rest →
    before.foldl Param.after v q.name = .untyped
  body : p.body.WellFormed callable (p.params.foldl Param.after v)

end Procedure

def Global.after (v : Visible) (g : Global) : Visible := v.declaring g.name g.shape.kind

namespace Program

/-- What is visible outside all procedures. -/
def globalsVisible (p : Program) : Visible := p.globals.foldl Global.after .nothing

/-- The rules about names, calls and types. A procedure sees itself and those before it. -/
structure WellScoped (p : Program) : Prop where
  globals : (p.globals.map Global.name).Nodup
  procedures : (p.procedures.map Procedure.name).Nodup
  main : ∃ q ∈ p.procedures, q.name = mainName ∧ q.params = []
  bodies : ∀ before q rest, p.procedures = before ++ q :: rest →
    q.WellFormed p.globalsVisible (before ++ [q])

/-- The variables of each procedure fit into the largest frame besides. -/
structure WellFormed (p : Program) : Prop extends p.WellScoped where
  frames : ∀ q ∈ p.procedures, (q.requests.bytes : Int) ≤ maxFrameSize

end Program

def Shape.Positive : Shape → Prop
  | single => True
  | array n => 0 < n

instance : DecidablePred Shape.Positive
  | .single => inferInstanceAs (Decidable True)
  | .array n => inferInstanceAs (Decidable (0 < n))

/-- All array sizes are at least 1. -/
structure Program.Positive (p : Program) : Prop where
  globals : ∀ g ∈ p.globals, g.shape.Positive
  bodies : ∀ q ∈ p.procedures, ∀ r ∈ q.body.declared, 0 < r.2

instance (p : Program) : Decidable p.Positive :=
  decidable_of_iff ((∀ g ∈ p.globals, g.shape.Positive) ∧
    ∀ q ∈ p.procedures, ∀ r ∈ q.body.declared, 0 < r.2) ⟨fun h => ⟨h.1, h.2⟩, fun h => ⟨h.1, h.2⟩⟩

end ProcMips
