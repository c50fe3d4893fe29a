import Mathlib.Logic.Function.Basic
import ProcMips.Syntax.Basic
import ProcMips.Word

/-! What a program means, as an interpreter of its tree. A run that indexes outside an array, reads a
cell before it is assigned, divides by zero, leaves the range of a word or wants more input than there
is has no meaning, and neither has one that needs more than the given depth of calls or turns of a
loop: a run terminates if some bound is enough. -/

namespace ProcMips

inductive Value where
  | int (n : Int)
  | bool (b : Bool)
deriving Repr, DecidableEq

namespace Value

def int? : Value → Option Int
  | int n => some n
  | bool _ => none

def bool? : Value → Option Bool
  | bool b => some b
  | int _ => none

@[simp] theorem int?_eq_some {v : Value} {n : Int} : v.int? = some n ↔ v = .int n := by
  cases v <;> simp [int?]

@[simp] theorem bool?_eq_some {v : Value} {b : Bool} : v.bool? = some b ↔ v = .bool b := by
  cases v <;> simp [bool?]

end Value

/-- The contents of a variable. A cell that was not assigned is empty. -/
inductive Var where
  | single (cell : Option Int)
  | array (cells : List (Option Int))
deriving Repr, DecidableEq

namespace Var

/-- A variable of a shape, with the same contents in each cell. -/
def ofShape (cell : Option Int) : Shape → Var
  | .single => single cell
  | .array n => array (List.replicate n cell)

/-- The value at an index, or of a variable without one. -/
def get? : Var → Option Int → Option Int
  | single cell, none => cell
  | array cells, some i => if 0 ≤ i then (cells[i.toNat]?).join else none
  | _, _ => none

def set? : Var → Option Int → Int → Option Var
  | single _, none, n => some (single (some n))
  | array cells, some i, n =>
    if 0 ≤ i ∧ i.toNat < cells.length then some (array (cells.set i.toNat (some n))) else none
  | _, _, _ => none

end Var

/-- Variables by name. -/
abbrev Env := String → Option Var

/-- What outlives a procedure: the globals, the inputs that were read and the output, earliest
first. -/
structure World where
  globals : Env
  reads : Nat
  output : List Int

/-- The locals of a procedure, and the world. -/
structure RunState where
  locals : Env
  world : World

/-- Evaluation, in which the locals do not change. -/
abbrev Eval := StateT World Option

/-- Execution of a statement. -/
abbrev Exec := StateT RunState Option

namespace Eval

def undefined {α : Type} : Eval α := fun _ => none

def need {α : Type} (a : Option α) : Eval α := fun w => a.map (·, w)

theorem need_eq_some {α : Type} {a : Option α} {b : α} {w w' : World} :
    need a w = some (b, w') ↔ a = some b ∧ w = w' := by
  cases a <;> simp [need]

/-- The value of a variable, which is a local one if there is one of that name. -/
def read (locals : Env) (x : String) (index : Option Int) : Eval Int := fun w =>
  (((locals x).or (w.globals x)).bind (·.get? index)).map (·, w)

end Eval

namespace BinOp

/-- `>` and `>=` evaluate their right operand first. -/
def rightFirst (op : BinOp) : Bool := op = .greater || op = .greaterEqual

/-- The value of the left operand that decides the result by itself. -/
def decisive : BinOp → Option Bool
  | and => some false
  | or => some true
  | _ => none

/-- An arithmetic result must be a word; a remainder needs a quotient that is one. -/
def apply : BinOp → Int → Int → Option Value
  | add, a, b => if Word.Fits (a + b) then some (.int (a + b)) else none
  | sub, a, b => if Word.Fits (a - b) then some (.int (a - b)) else none
  | mul, a, b => if Word.Fits (a * b) then some (.int (a * b)) else none
  | div, a, b => if b ≠ 0 ∧ Word.Fits (a.tdiv b) then some (.int (a.tdiv b)) else none
  | rem, a, b => if b ≠ 0 ∧ Word.Fits (a.tdiv b) then some (.int (a.tmod b)) else none
  | less, a, b => some (.bool (a < b))
  | lessEqual, a, b => some (.bool (a ≤ b))
  | equal, a, b => some (.bool (a = b))
  | greaterEqual, a, b => some (.bool (a ≥ b))
  | greater, a, b => some (.bool (a > b))
  | and, _, _ | or, _, _ => none

end BinOp

section

variable (call : String → List Int → Eval Int)

mutual

def Expr.eval (locals : Env) : Expr → Eval Value
  | .int _ n => return .int n
  | .bool _ b => return .bool b
  | .scalar _ x => return .int (← Eval.read locals x none)
  | .element _ x index => do
    let i ← Eval.need (← index.eval locals).int?
    return .int (← Eval.read locals x (some i))
  | .call _ f args => return .int (← call f (← Expr.evalAll locals args))
  | .binary _ op left right =>
    match op.decisive with
    | some decisive => do
      let a ← Eval.need (← left.eval locals).bool?
      if a = decisive then return .bool decisive
      else return .bool (← Eval.need (← right.eval locals).bool?)
    | none =>
      if op.rightFirst then do
        let b ← Eval.need (← right.eval locals).int?
        let a ← Eval.need (← left.eval locals).int?
        Eval.need (op.apply a b)
      else do
        let a ← Eval.need (← left.eval locals).int?
        let b ← Eval.need (← right.eval locals).int?
        Eval.need (op.apply a b)
  | .not _ operand => return .bool (! (← Eval.need (← operand.eval locals).bool?))

/-- Integer values, from left to right. -/
def Expr.evalAll (locals : Env) : List Expr → Eval (List Int)
  | [] => return []
  | e :: es => do
    let n ← Eval.need (← e.eval locals).int?
    return n :: (← Expr.evalAll locals es)

end

end

namespace Exec

def eval {α : Type} (e : Env → Eval α) : Exec α := fun s =>
  (e s.locals s.world).map fun (a, world) => (a, { s with world })

/-- No name is declared where it is visible, so that a scope only has to forget the names that it
declared. -/
def inScope {α : Type} (p : Exec α) : Exec α := fun s =>
  (p s).map fun (a, s') =>
    (a, { s' with locals := fun x => if (s.locals x).isSome then s'.locals x else none })

def declare (x : String) (shape : Shape) : Exec Unit := fun s =>
  some ((), { s with locals := Function.update s.locals x (some (.ofShape none shape)) })

def assign (x : String) (index : Option Int) (n : Int) : Exec Unit := fun s =>
  match s.locals x with
  | some v => (v.set? index n).map fun v =>
    ((), { s with locals := Function.update s.locals x (some v) })
  | none => ((s.world.globals x).bind (·.set? index n)).map fun v =>
    ((), { s with world.globals := Function.update s.world.globals x (some v) })

def output (n : Int) : Exec Unit := fun s =>
  some ((), { s with world.output := s.world.output ++ [n] })

def input (inputs : List Int) : Exec Int := fun s =>
  (inputs[s.world.reads]?).map fun n => (n, { s with world.reads := s.world.reads + 1 })

/-- Runs `body` while `condition` holds, at most `n` times. A body that returns ends the loop. -/
def iterate (condition : Exec Bool) (body : Exec (Option Int)) : Nat → Exec (Option Int)
  | 0 => fun _ => none
  | n + 1 => do
    if ← condition then
      match ← body with
      | some r => return some r
      | none => iterate condition body n
    else return none

end Exec

section

variable (call : String → List Int → Eval Int) (inputs : List Int) (fuel : Nat)

def Expr.execInt (e : Expr) : Exec Int :=
  Exec.eval fun locals => do Eval.need (← e.eval call locals).int?

def Expr.execBool (e : Expr) : Exec Bool :=
  Exec.eval fun locals => do Eval.need (← e.eval call locals).bool?

/-- The name and the index that a target stands for. -/
def Target.exec : Target → Exec (String × Option Int)
  | scalar x => return (x, none)
  | element x index => return (x, some (← index.execInt call))

mutual

/-- Execution gives the value that is returned, if the statement returns. -/
def Stmt.exec : Stmt → Exec (Option Int)
  | .declare _ x shape => do
    Exec.declare x shape
    return none
  | .assign _ target value => do
    let (x, index) ← target.exec call
    let n ← value.execInt call
    Exec.assign x index n
    return none
  | .block _ body => Exec.inScope (Stmt.execAll body)
  | .ifThen _ condition yes => do
    if ← condition.execBool call then Exec.inScope yes.exec else return none
  | .ifElse _ condition yes no => do
    if ← condition.execBool call then Exec.inScope yes.exec else Exec.inScope no.exec
  | .loop _ condition body =>
    Exec.iterate (condition.execBool call) (Exec.inScope body.exec) fuel
  | .output _ value => do
    Exec.output (← value.execInt call)
    return none
  | .input _ target => do
    let (x, index) ← target.exec call
    Exec.assign x index (← Exec.input inputs)
    return none
  | .ret _ value => return some (← value.execInt call)
  | .call _ f args => do
    let ns ← Exec.eval fun locals => Expr.evalAll call locals args
    let _ ← Exec.eval fun _ => call f ns
    return none

def Stmt.execAll : List Stmt → Exec (Option Int)
  | [] => return none
  | s :: ss => do
    match ← s.exec with
    | some r => return some r
    | none => Stmt.execAll ss

end

end

/-- The locals that a procedure starts with. -/
def Procedure.bound (p : Procedure) (args : List Int) : Env := fun x =>
  (((p.params.map Param.name).zip args).lookup x).map fun n => .single (some n)

namespace Program

/-- A call, with at most `n` calls inside one another. A body that does not return gives 0. -/
def call (p : Program) (inputs : List Int) : Nat → String → List Int → Eval Int
  | 0, _, _ => Eval.undefined
  | n + 1, f, args => fun world =>
    match p.procedure? f with
    | none => none
    | some q =>
      if args.length = q.params.length then
        (q.body.exec (p.call inputs n) inputs n ⟨q.bound args, world⟩).map fun (r, s) =>
          (r.getD 0, s.world)
      else none

/-- Every global variable starts at 0. -/
def startWorld (p : Program) : World where
  globals x := (p.globals.find? (·.name == x)).map fun g => .ofShape (some 0) g.shape
  reads := 0
  output := []

/-- What a run prints, what `main` returns, and how many inputs are read. -/
structure Outcome where
  output : List Int
  result : Int
  reads : Nat
deriving Repr, DecidableEq

/-- A run with the given inputs, if `n` is enough for its calls and loops. -/
def run (p : Program) (inputs : List Int) (n : Nat) : Option Outcome :=
  (p.call inputs n mainName [] p.startWorld).map fun (r, w) => ⟨w.output, r, w.reads⟩

end Program

end ProcMips
