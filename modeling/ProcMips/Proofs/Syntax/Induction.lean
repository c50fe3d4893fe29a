import ProcMips.Syntax.Basic

/-! Induction over expressions and statements. The hypothesis for a list of parts, the arguments of a
call or the body of a block, is given for each member. -/

namespace ProcMips

@[elab_as_elim, induction_eliminator]
theorem Expr.induction {P : Expr → Prop}
    (int : ∀ l n, P (.int l n)) (bool : ∀ l b, P (.bool l b)) (scalar : ∀ l x, P (.scalar l x))
    (element : ∀ l x index, P index → P (.element l x index))
    (call : ∀ l f args, (∀ a ∈ args, P a) → P (.call l f args))
    (binary : ∀ l op left right, P left → P right → P (.binary l op left right))
    (not : ∀ l operand, P operand → P (.not l operand)) (e : Expr) : P e :=
  @Expr.rec P (fun es => ∀ a ∈ es, P a) int bool scalar element call binary not
    (fun _ h => nomatch h) (fun _ _ ha has _ h => (List.mem_cons.1 h).elim (· ▸ ha) (has _)) e

@[elab_as_elim, induction_eliminator]
theorem Stmt.induction {P : Stmt → Prop}
    (declare : ∀ l x shape, P (.declare l x shape))
    (assign : ∀ l target value, P (.assign l target value))
    (block : ∀ l body, (∀ s ∈ body, P s) → P (.block l body))
    (ifThen : ∀ l cond yes, P yes → P (.ifThen l cond yes))
    (ifElse : ∀ l cond yes no, P yes → P no → P (.ifElse l cond yes no))
    (loop : ∀ l cond body, P body → P (.loop l cond body))
    (output : ∀ l value, P (.output l value)) (input : ∀ l target, P (.input l target))
    (ret : ∀ l value, P (.ret l value)) (call : ∀ l f args, P (.call l f args)) (s : Stmt) :
    P s :=
  @Stmt.rec P (fun ss => ∀ t ∈ ss, P t) declare assign block ifThen ifElse loop output input ret call
    (fun _ h => nomatch h)
    (fun _ _ ht hts _ h => (List.mem_cons.1 h).elim (· ▸ ht) (hts _)) s

end ProcMips
