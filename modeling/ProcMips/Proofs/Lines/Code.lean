import ProcMips.CodeGen
import ProcMips.Proofs.Syntax.Induction
import ProcMips.Proofs.Syntax.Unlined

/-! Code generation does not look at lines: the code of a tree is that of the tree without its lines,
labels included. -/

namespace ProcMips

variable {s : Storage}

theorem Expr.codes_unlinedAll {es : List Expr} (h : ∀ e ∈ es, e.unlined.code s = e.code s) :
    Expr.codes s (Expr.unlinedAll es) = Expr.codes s es := by
  induction es with
  | nil => rfl
  | cons e es ih =>
    rw [List.forall_mem_cons] at h
    rw [Expr.unlinedAll, Expr.codes, Expr.codes, h.1, ih h.2]

theorem Expr.code_unlined (e : Expr) : e.unlined.code s = e.code s := by
  induction e with
  | int l n => rfl
  | bool l b => rfl
  | scalar l x => rfl
  | element l x index ih => rw [Expr.unlined, Expr.code, Expr.code, ih]
  | call l f args ih => rw [Expr.unlined, Expr.code, Expr.code, Expr.codes_unlinedAll ih]
  | binary l op left right ihl ihr => rw [Expr.unlined, Expr.code, Expr.code, ihl, ihr]
  | not l operand ih => rw [Expr.unlined, Expr.code, Expr.code, ih]

theorem Expr.branchCode_unlined (e : Expr) (onFalse : String) :
    e.unlined.branchCode s onFalse = e.branchCode s onFalse := by
  rw [Expr.branchCode, Expr.branchCode, Expr.code_unlined]

theorem Stmt.codes_unlinedAll {ss : List Stmt} (h : ∀ t ∈ ss, t.unlined.code s = t.code s) :
    Stmt.codes s (Stmt.unlinedAll ss) = Stmt.codes s ss := by
  induction ss with
  | nil => rfl
  | cons t ts ih =>
    rw [List.forall_mem_cons] at h
    rw [Stmt.unlinedAll, Stmt.codes, Stmt.codes, h.1, ih h.2]

theorem Stmt.code_unlined (t : Stmt) : t.unlined.code s = t.code s := by
  induction t with
  | declare l x shape => rfl
  | assign l target value =>
    cases target with
    | scalar x => rw [Stmt.unlined, Target.unlined, Stmt.code, Stmt.code, Expr.code_unlined]
    | element x index =>
      rw [Stmt.unlined, Target.unlined, Stmt.code, Stmt.code, Expr.code_unlined, Expr.code_unlined]
  | block l body ih => rw [Stmt.unlined, Stmt.code, Stmt.code, Stmt.codes_unlinedAll ih]
  | ifThen l cond yes ih =>
    simp only [Stmt.unlined, Stmt.code, Expr.branchCode_unlined, ih]
  | ifElse l cond yes no ihy ihn =>
    simp only [Stmt.unlined, Stmt.code, Expr.branchCode_unlined, ihy, ihn]
  | loop l cond body ih =>
    simp only [Stmt.unlined, Stmt.code, Expr.branchCode_unlined, ih]
  | output l value => rw [Stmt.unlined, Stmt.code, Stmt.code, Expr.code_unlined]
  | input l target =>
    cases target with
    | scalar x => rfl
    | element x index =>
      rw [Stmt.unlined, Target.unlined, Stmt.code, Stmt.code, Expr.code_unlined]
  | ret l value => rw [Stmt.unlined, Stmt.code, Stmt.code, Expr.code_unlined]
  | call l f args =>
    rw [Stmt.unlined, Stmt.code, Stmt.code,
      Expr.codes_unlinedAll fun e _ => Expr.code_unlined e]

variable {t : Tables}

theorem Procedure.bodyCode_unlined (p : Procedure) : p.unlined.bodyCode s = p.bodyCode s := by
  rw [bodyCode, bodyCode, unlined, Stmt.code_unlined]

theorem Procedure.code_unlined (p : Procedure) : p.unlined.code t = p.code t := by
  unfold code
  simp only [bodyCode_unlined]
  rfl

theorem Program.proceduresCode_unlined (ps : List Procedure) :
    proceduresCode t (ps.map Procedure.unlined) = proceduresCode t ps := by
  induction ps with
  | nil => rfl
  | cons p ps ih => rw [List.map_cons, proceduresCode, proceduresCode, Procedure.code_unlined, ih]

theorem Program.assembly_unlined (p : Program) : p.unlined.assembly t = p.assembly t := by
  rw [assembly, assembly, code, code, unlined, proceduresCode_unlined]

end ProcMips
