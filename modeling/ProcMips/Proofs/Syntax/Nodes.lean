import ProcMips.Proofs.Syntax.Induction

/-! A node by its parts: the expressions and the statements right below it, and the names in it. -/

namespace ProcMips

/-- The expressions right below an expression. -/
def Expr.children : Expr → List Expr
  | int .. | bool .. | scalar .. => []
  | element _ _ index => [index]
  | call _ _ args => args
  | binary _ _ left right => [left, right]
  | not _ operand => [operand]

def Target.exprs : Target → List Expr
  | scalar _ => []
  | element _ index => [index]

/-- The expressions right below a statement. They stand in front of its statements. -/
def Stmt.exprs : Stmt → List Expr
  | declare .. | block .. => []
  | assign _ target value => target.exprs ++ [value]
  | ifThen _ condition _ | ifElse _ condition _ _ | loop _ condition _ => [condition]
  | output _ value | ret _ value => [value]
  | input _ target => target.exprs
  | call _ _ args => args

/-- The statements right below a statement. -/
def Stmt.stmts : Stmt → List Stmt
  | block _ body => body
  | ifThen _ _ yes => [yes]
  | ifElse _ _ yes no => [yes, no]
  | loop _ _ body => [body]
  | _ => []

@[elab_as_elim]
theorem Expr.induction_children {P : Expr → Prop} (h : ∀ e, (∀ c ∈ e.children, P c) → P e)
    (e : Expr) : P e := by
  induction e with
  | int l n => exact h _ nofun
  | bool l b => exact h _ nofun
  | scalar l x => exact h _ nofun
  | element l x index ih => exact h _ (List.forall_mem_singleton.2 ih)
  | call l f args ih => exact h _ ih
  | binary l op left right hl hr => exact h _ (List.forall_mem_cons.2 ⟨hl, List.forall_mem_singleton.2 hr⟩)
  | not l operand ih => exact h _ (List.forall_mem_singleton.2 ih)

@[elab_as_elim]
theorem Stmt.induction_stmts {P : Stmt → Prop} (h : ∀ s, (∀ t ∈ s.stmts, P t) → P s)
    (s : Stmt) : P s := by
  induction s with
  | block l body ih => exact h _ ih
  | ifThen l cond yes ih => exact h _ (List.forall_mem_singleton.2 ih)
  | ifElse l cond yes no hy hn => exact h _ (List.forall_mem_cons.2 ⟨hy, List.forall_mem_singleton.2 hn⟩)
  | loop l cond body ih => exact h _ (List.forall_mem_singleton.2 ih)
  | declare | assign | output | input | ret | call => exact h _ nofun

mutual

def Expr.names : Expr → List String
  | .int .. | .bool .. => []
  | .scalar _ x => [x]
  | .element _ x index => x :: index.names
  | .call _ f args => f :: Expr.namesAll args
  | .binary _ _ left right => left.names ++ right.names
  | .not _ operand => operand.names

def Expr.namesAll : List Expr → List String
  | [] => []
  | e :: es => e.names ++ Expr.namesAll es

end

def Target.names : Target → List String
  | scalar x => [x]
  | element x index => x :: index.names

mutual

def Stmt.names : Stmt → List String
  | .declare _ x _ => [x]
  | .assign _ target value => target.names ++ value.names
  | .block _ body => Stmt.namesAll body
  | .ifThen _ condition yes => condition.names ++ yes.names
  | .ifElse _ condition yes no => condition.names ++ yes.names ++ no.names
  | .loop _ condition body => condition.names ++ body.names
  | .output _ value | .ret _ value => value.names
  | .input _ target => target.names
  | .call _ f args => f :: Expr.namesAll args

def Stmt.namesAll : List Stmt → List String
  | [] => []
  | s :: ss => s.names ++ Stmt.namesAll ss

end

def Procedure.names (q : Procedure) : List String :=
  q.name :: q.params.map Param.name ++ q.body.names

/-- Every name that a program declares or uses. -/
def Program.names (p : Program) : List String :=
  p.globals.map Global.name ++ p.procedures.flatMap Procedure.names

theorem Expr.namesAll_eq_flatMap (es : List Expr) : Expr.namesAll es = es.flatMap Expr.names := by
  induction es with
  | nil => rfl
  | cons e es ih => rw [Expr.namesAll, ih, List.flatMap_cons]

theorem Stmt.namesAll_eq_flatMap (ss : List Stmt) : Stmt.namesAll ss = ss.flatMap Stmt.names := by
  induction ss with
  | nil => rfl
  | cons s ss ih => rw [Stmt.namesAll, ih, List.flatMap_cons]

variable {x : String}

theorem Expr.mem_names_of_child {e c : Expr} (h : c ∈ e.children) (hx : x ∈ c.names) : x ∈ e.names := by
  cases e <;> grind [children, names, namesAll_eq_flatMap]

theorem Target.mem_names_of_expr {t : Target} {e : Expr} (h : e ∈ t.exprs) (hx : x ∈ e.names) :
    x ∈ t.names := by
  cases t <;> grind [exprs, names]

theorem Stmt.mem_names_of_expr {s : Stmt} {e : Expr} (h : e ∈ s.exprs) (hx : x ∈ e.names) :
    x ∈ s.names := by
  cases s <;> grind [exprs, names, Target.mem_names_of_expr, Expr.namesAll_eq_flatMap]

theorem Stmt.mem_names_of_stmt {s t : Stmt} (h : t ∈ s.stmts) (hx : x ∈ t.names) : x ∈ s.names := by
  cases s <;> grind [stmts, names, namesAll_eq_flatMap]

end ProcMips
