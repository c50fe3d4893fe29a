import ProcMips.Syntax.Basic

/-! Trees without their lines: every node has the line 0, which no text has. -/

namespace ProcMips

mutual

def Expr.unlined : Expr → Expr
  | .int _ n => .int 0 n
  | .bool _ b => .bool 0 b
  | .scalar _ x => .scalar 0 x
  | .element _ x index => .element 0 x index.unlined
  | .call _ f args => .call 0 f (Expr.unlinedAll args)
  | .binary _ op left right => .binary 0 op left.unlined right.unlined
  | .not _ operand => .not 0 operand.unlined

def Expr.unlinedAll : List Expr → List Expr
  | [] => []
  | e :: es => e.unlined :: Expr.unlinedAll es

end

def Target.unlined : Target → Target
  | scalar x => .scalar x
  | element x index => .element x index.unlined

mutual

def Stmt.unlined : Stmt → Stmt
  | .declare _ x shape => .declare 0 x shape
  | .assign _ target value => .assign 0 target.unlined value.unlined
  | .block _ body => .block 0 (Stmt.unlinedAll body)
  | .ifThen _ condition yes => .ifThen 0 condition.unlined yes.unlined
  | .ifElse _ condition yes no => .ifElse 0 condition.unlined yes.unlined no.unlined
  | .loop _ condition body => .loop 0 condition.unlined body.unlined
  | .output _ value => .output 0 value.unlined
  | .input _ target => .input 0 target.unlined
  | .ret _ value => .ret 0 value.unlined
  | .call _ f args => .call 0 f (Expr.unlinedAll args)

def Stmt.unlinedAll : List Stmt → List Stmt
  | [] => []
  | s :: ss => s.unlined :: Stmt.unlinedAll ss

end

def Global.unlined (g : Global) : Global := { g with line := 0 }

def Param.unlined (p : Param) : Param := { p with line := 0 }

def Procedure.unlined (p : Procedure) : Procedure :=
  ⟨0, p.name, p.params.map Param.unlined, p.body.unlined⟩

def Program.unlined (p : Program) : Program :=
  ⟨p.globals.map Global.unlined, p.procedures.map Procedure.unlined⟩

theorem Expr.unlinedAll_eq_map (es : List Expr) : Expr.unlinedAll es = es.map Expr.unlined := by
  induction es with
  | nil => rfl
  | cons e es ih => rw [Expr.unlinedAll, ih, List.map_cons]

theorem Stmt.unlinedAll_eq_map (ss : List Stmt) : Stmt.unlinedAll ss = ss.map Stmt.unlined := by
  induction ss with
  | nil => rfl
  | cons s ss ih => rw [Stmt.unlinedAll, ih, List.map_cons]

end ProcMips
