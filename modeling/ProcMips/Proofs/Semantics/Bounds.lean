import Mathlib.Tactic.SplitIfs
import ProcMips.Proofs.Sequencing
import ProcMips.Proofs.Semantics.Source
import ProcMips.Proofs.Syntax.Induction

/-! The bound of a run is only there so that the interpreter ends. A run that ends under some bound
has the same outcome under every larger one, so no program has two outcomes. -/

namespace ProcMips

/-- Wherever `x` has a result, `y` has the same. -/
def Approximates {σ α : Type} (x y : StateT σ Option α) : Prop :=
  ∀ ⦃s : σ⦄ ⦃r : α × σ⦄, x s = some r → y s = some r

namespace Approximates

variable {σ α β : Type} {x y : StateT σ Option α} {f g : α → StateT σ Option β}

theorem refl (x : StateT σ Option α) : Approximates x x := fun _ _ h => h

theorem bind (hx : Approximates x y) (hf : ∀ a, Approximates (f a) (g a)) :
    Approximates (x >>= f) (y >>= g) := by
  rintro s ⟨b, u⟩ h
  obtain ⟨a, t, hxa, hfa⟩ := run_bind_eq_some.1 h
  exact run_bind_eq_some.2 ⟨a, t, hx hxa, hf a hfa⟩

end Approximates

variable {call call' : String → List Int → Eval Int}

theorem Expr.approximates_evalAll {locals : Env} {es : List Expr}
    (h : ∀ e ∈ es, Approximates (e.eval call locals) (e.eval call' locals)) :
    Approximates (Expr.evalAll call locals es) (Expr.evalAll call' locals es) := by
  induction es with
  | nil =>
    rw [Expr.evalAll, Expr.evalAll]
    exact .refl _
  | cons e es ih =>
    rw [List.forall_mem_cons] at h
    rw [Expr.evalAll, Expr.evalAll]
    refine .bind h.1 fun v => .bind (.refl _) fun n => ?_
    exact .bind (ih h.2) fun ns => .refl _

theorem Expr.approximates_eval (hcall : ∀ f args, Approximates (call f args) (call' f args))
    (locals : Env) (e : Expr) : Approximates (e.eval call locals) (e.eval call' locals) := by
  induction e with
  | int | bool | scalar =>
    rw [Expr.eval, Expr.eval]
    exact .refl _
  | element l x index ih =>
    rw [Expr.eval, Expr.eval]
    exact .bind ih fun v => .refl _
  | call l f args ih =>
    rw [Expr.eval, Expr.eval]
    refine .bind (Expr.approximates_evalAll ih) fun ns => ?_
    exact .bind (hcall f ns) fun n => .refl _
  | binary l op left right ihl ihr =>
    rw [Expr.eval, Expr.eval]
    cases op.decisive with
    | some d =>
      refine .bind ihl fun v => .bind (.refl _) fun a => ?_
      split_ifs
      · exact .refl _
      · exact .bind ihr fun v => .refl _
    | none =>
      dsimp only
      split_ifs
      · refine .bind ihr fun v => .bind (.refl _) fun b => ?_
        exact .bind ihl fun v => .refl _
      · refine .bind ihl fun v => .bind (.refl _) fun a => ?_
        exact .bind ihr fun v => .refl _
  | not l operand ih =>
    rw [Expr.eval, Expr.eval]
    exact .bind ih fun v => .refl _

namespace Exec

variable {α : Type}

theorem approximates_eval {e e' : Env → Eval α} (h : ∀ locals, Approximates (e locals) (e' locals)) :
    Approximates (eval e) (eval e') := by
  intro σ r hr
  obtain ⟨⟨a, w⟩, ha, rfl⟩ := Option.map_eq_some_iff.1 hr
  exact Option.map_eq_some_iff.2 ⟨(a, w), h σ.locals ha, rfl⟩

theorem approximates_inScope {x y : Exec α} (h : Approximates x y) :
    Approximates (inScope x) (inScope y) := by
  intro σ r hr
  obtain ⟨⟨a, σ'⟩, ha, rfl⟩ := Option.map_eq_some_iff.1 hr
  exact Option.map_eq_some_iff.2 ⟨(a, σ'), h ha, rfl⟩

theorem approximates_iterate {condition condition' : Exec Bool} {body body' : Exec (Option Int)}
    (hcondition : Approximates condition condition') (hbody : Approximates body body') {n m : Nat}
    (hnm : n ≤ m) : Approximates (iterate condition body n) (iterate condition' body' m) := by
  induction n generalizing m with
  | zero =>
    intro σ r h
    cases h
  | succ n ih =>
    obtain ⟨m, rfl⟩ : ∃ k, m = k + 1 := ⟨m - 1, by omega⟩
    rw [iterate, iterate]
    refine .bind hcondition fun b => ?_
    cases b with
    | false => exact .refl _
    | true =>
      refine .bind hbody fun ret => ?_
      cases ret with
      | none => exact ih (by omega)
      | some r => exact .refl _

end Exec

section

variable (hcall : ∀ f args, Approximates (call f args) (call' f args))

include hcall

theorem Expr.approximates_execInt (e : Expr) : Approximates (e.execInt call) (e.execInt call') :=
  Exec.approximates_eval fun locals => .bind (e.approximates_eval hcall locals) fun _ => .refl _

theorem Expr.approximates_execBool (e : Expr) : Approximates (e.execBool call) (e.execBool call') :=
  Exec.approximates_eval fun locals => .bind (e.approximates_eval hcall locals) fun _ => .refl _

theorem Target.approximates_exec (target : Target) :
    Approximates (target.exec call) (target.exec call') := by
  cases target with
  | scalar x => exact .refl _
  | element x index => exact .bind (index.approximates_execInt hcall) fun _ => .refl _

variable {inputs : List Int} {fuel fuel' : Nat}

omit hcall in
theorem Stmt.approximates_execAll {ss : List Stmt}
    (h : ∀ t ∈ ss, Approximates (t.exec call inputs fuel) (t.exec call' inputs fuel')) :
    Approximates (Stmt.execAll call inputs fuel ss) (Stmt.execAll call' inputs fuel' ss) := by
  induction ss with
  | nil =>
    rw [Stmt.execAll, Stmt.execAll]
    exact .refl _
  | cons t ss ih =>
    rw [List.forall_mem_cons] at h
    rw [Stmt.execAll, Stmt.execAll]
    refine .bind h.1 fun ret => ?_
    cases ret with
    | none => exact ih h.2
    | some r => exact .refl _

theorem Stmt.approximates_exec (hfuel : fuel ≤ fuel') (t : Stmt) :
    Approximates (t.exec call inputs fuel) (t.exec call' inputs fuel') := by
  induction t with
  | declare =>
    rw [Stmt.exec, Stmt.exec]
    exact .refl _
  | assign l target value =>
    rw [Stmt.exec, Stmt.exec]
    refine .bind (target.approximates_exec hcall) fun x => ?_
    exact .bind (value.approximates_execInt hcall) fun n => .refl _
  | block l body ih =>
    rw [Stmt.exec, Stmt.exec]
    exact Exec.approximates_inScope (Stmt.approximates_execAll ih)
  | ifThen l condition yes ih =>
    rw [Stmt.exec, Stmt.exec]
    refine .bind (condition.approximates_execBool hcall) fun b => ?_
    cases b with
    | true => exact Exec.approximates_inScope ih
    | false => exact .refl _
  | ifElse l condition yes no ihy ihn =>
    rw [Stmt.exec, Stmt.exec]
    refine .bind (condition.approximates_execBool hcall) fun b => ?_
    cases b with
    | true => exact Exec.approximates_inScope ihy
    | false => exact Exec.approximates_inScope ihn
  | loop l condition body ih =>
    rw [Stmt.exec, Stmt.exec]
    exact Exec.approximates_iterate (condition.approximates_execBool hcall)
      (Exec.approximates_inScope ih) hfuel
  | output l value =>
    rw [Stmt.exec, Stmt.exec]
    exact .bind (value.approximates_execInt hcall) fun n => .refl _
  | input l target =>
    rw [Stmt.exec, Stmt.exec]
    exact .bind (target.approximates_exec hcall) fun x => .refl _
  | ret l value =>
    rw [Stmt.exec, Stmt.exec]
    exact .bind (value.approximates_execInt hcall) fun n => .refl _
  | call l f args =>
    rw [Stmt.exec, Stmt.exec]
    refine .bind (Exec.approximates_eval fun locals => ?_) fun ns => ?_
    · exact Expr.approximates_evalAll fun e _ => e.approximates_eval hcall locals
    · exact .bind (Exec.approximates_eval fun _ => hcall f ns) fun _ => .refl _

end

namespace Program

variable (p : Program) {inputs : List Int} {n m : Nat}

theorem approximates_call (hnm : n ≤ m) (f : String) (args : List Int) :
    Approximates (p.call inputs n f args) (p.call inputs m f args) := by
  induction n generalizing m f args with
  | zero =>
    intro w r h
    cases h
  | succ n ih =>
    obtain ⟨m, rfl⟩ : ∃ k, m = k + 1 := ⟨m - 1, by omega⟩
    intro w r h
    unfold call at h ⊢
    cases hq : p.procedure? f with
    | none => simp [hq] at h
    | some q =>
      rw [hq] at h
      dsimp only at h ⊢
      split_ifs at h ⊢
      obtain ⟨s, hs, rfl⟩ := Option.map_eq_some_iff.1 h
      have hbody := q.body.approximates_exec (ih (Nat.le_of_succ_le_succ hnm))
        (Nat.le_of_succ_le_succ hnm) hs
      exact Option.map_eq_some_iff.2 ⟨s, hbody, rfl⟩

theorem run_mono {o : Outcome} (h : p.run inputs n = some o) (hnm : n ≤ m) :
    p.run inputs m = some o := by
  obtain ⟨s, hs, rfl⟩ := Option.map_eq_some_iff.1 h
  exact Option.map_eq_some_iff.2 ⟨s, p.approximates_call hnm mainName [] hs, rfl⟩

/-- A program has at most one outcome on the same inputs. -/
theorem run_unique {o o' : Outcome} (h : p.run inputs n = some o) (h' : p.run inputs m = some o') :
    o = o' := by
  rcases Nat.le_total n m with hnm | hmn
  · exact Option.some.inj ((p.run_mono h hnm).symm.trans h')
  · exact Option.some.inj (h.symm.trans (p.run_mono h' hmn))

end Program

end ProcMips
