import Mathlib.Tactic.SplitIfs
import ProcMips.Analysis.Program
import ProcMips.Proofs.Syntax.Induction
import ProcMips.Proofs.Syntax.Unlined

/-! Analysis does not look at lines. In a program without its lines it finds what it finds in the
program, except for the lines that it reports. -/

namespace ProcMips

/-- A failure without its line. -/
def AnalysisFailure.unlined : AnalysisFailure → AnalysisFailure
  | .rejected e => .rejected ⟨0, e.cause⟩
  | .overflow op => .overflow op

/-- The same result, or the same failure up to its line. -/
inductive SameFinding {α : Type} : Except AnalysisFailure α → Except AnalysisFailure α → Prop
  | ok (a : α) : SameFinding (.ok a) (.ok a)
  | error {e e' : AnalysisFailure} (h : e.unlined = e'.unlined) : SameFinding (.error e) (.error e')

/-- The same result or failure in the same state. -/
inductive SameEnd {σ α : Type} : EStateM.Result AnalysisFailure σ α →
    EStateM.Result AnalysisFailure σ α → Prop
  | ok (a : α) (s : σ) : SameEnd (.ok a s) (.ok a s)
  | error {e e' : AnalysisFailure} (h : e.unlined = e'.unlined) (s : σ) :
    SameEnd (.error e s) (.error e' s)

/-- Steps that end the same, wherever they start. -/
def SameSteps {σ α : Type} (p q : EStateM AnalysisFailure σ α) : Prop := ∀ s, SameEnd (p s) (q s)

section

variable {σ α β : Type}

theorem SameFinding.refl (x : Except AnalysisFailure α) : SameFinding x x := by
  cases x with
  | error e => exact .error rfl
  | ok a => exact .ok a

theorem SameFinding.symm {x y : Except AnalysisFailure α} (h : SameFinding x y) :
    SameFinding y x := by
  cases h with
  | ok a => exact .ok a
  | error h => exact .error h.symm

theorem SameFinding.trans {x y z : Except AnalysisFailure α} (h : SameFinding x y)
    (h' : SameFinding y z) : SameFinding x z := by
  cases h with
  | ok a => exact h'
  | error h =>
    cases h' with
    | error h' => exact .error (h.trans h')

theorem SameFinding.eq_ok {x : Except AnalysisFailure α} {a : α} (h : SameFinding x (.ok a)) :
    x = .ok a := by
  cases h
  rfl

theorem sameFinding_reject (l l' : Line) (e : SemanticError) :
    SameFinding (reject l e : Except AnalysisFailure α) (reject l' e) := .error rfl

theorem sameEnd_rejected (l l' : Line) (e : SemanticError) (s : σ) :
    SameEnd (.error (.rejected ⟨l, e⟩) s : EStateM.Result AnalysisFailure σ α)
      (.error (.rejected ⟨l', e⟩) s) := by
  refine .error ?_ s
  rfl

theorem SameFinding.bind {x y : Except AnalysisFailure α} {f g : α → Except AnalysisFailure β}
    (h : SameFinding x y) (hf : ∀ a, SameFinding (f a) (g a)) :
    SameFinding (x >>= f) (y >>= g) := by
  cases h with
  | ok a => exact hf a
  | error h => exact .error h

theorem SameSteps.refl (p : EStateM AnalysisFailure σ α) : SameSteps p p := by
  intro s
  cases p s with
  | ok a t => exact .ok a t
  | error e t => exact .error rfl t

theorem SameSteps.bind {p q : EStateM AnalysisFailure σ α}
    {f g : α → EStateM AnalysisFailure σ β} (h : SameSteps p q) (hf : ∀ a, SameSteps (f a) (g a)) :
    SameSteps (p >>= f) (q >>= g) := by
  intro s
  have hs := h s
  change SameEnd (EStateM.bind p f s) (EStateM.bind q g s)
  unfold EStateM.bind
  revert hs
  generalize p s = x
  generalize q s = y
  rintro (⟨a, t⟩ | ⟨h, t⟩)
  · exact hf a t
  · exact .error h t

end

@[simp] theorem Expr.type_unlined (e : Expr) : e.unlined.type = e.type := by cases e <;> rfl

section

variable {ss : ScopeStack} {arity : Arities}

theorem sameFinding_expectType (e : Expr) (t : Ty) (c : String) :
    SameFinding (e.unlined.expectType t c) (e.expectType t c) := by
  unfold Expr.expectType
  rw [Expr.type_unlined]
  split_ifs
  · exact .ok ()
  · exact sameFinding_reject _ _ _

theorem sameFinding_expectKind (l l' : Line) (x : String) (k : VarKind) :
    SameFinding (ss.expectKind l x k) (ss.expectKind l' x k) := by
  unfold ScopeStack.expectKind
  split
  · exact sameFinding_reject _ _ _
  · exact sameFinding_reject _ _ _
  · exact sameFinding_reject _ _ _
  · exact .ok ()

theorem sameFinding_checkCall (l l' : Line) (f : String) (args : List Expr) :
    SameFinding (checkCall arity l f (Expr.unlinedAll args)) (checkCall arity l' f args) := by
  unfold checkCall
  rw [Expr.unlinedAll_eq_map, List.length_map, List.any_map]
  simp only [Function.comp_def, Expr.type_unlined]
  split
  · exact sameFinding_reject _ _ _
  · split_ifs
    · exact sameFinding_reject _ _ _
    · exact sameFinding_reject _ _ _
    · exact .ok ()

theorem sameFinding_checkAll {es : List Expr}
    (h : ∀ e ∈ es, SameFinding (e.unlined.check ss arity) (e.check ss arity)) :
    SameFinding (Expr.checkAll ss arity (Expr.unlinedAll es)) (Expr.checkAll ss arity es) := by
  induction es with
  | nil => exact .ok ()
  | cons e es ih =>
    rw [List.forall_mem_cons] at h
    rw [Expr.unlinedAll, Expr.checkAll, Expr.checkAll]
    exact h.1.bind fun _ => ih h.2

theorem sameFinding_check (e : Expr) :
    SameFinding (e.unlined.check ss arity) (e.check ss arity) := by
  induction e with
  | int l n => exact .ok ()
  | bool l b => exact .ok ()
  | scalar l x =>
    rw [Expr.unlined, Expr.check, Expr.check]
    exact sameFinding_expectKind _ _ _ _
  | element l x index ih =>
    rw [Expr.unlined, Expr.check, Expr.check]
    refine (sameFinding_expectKind _ _ _ _).bind fun _ => ?_
    exact (sameFinding_expectType index _ _).bind fun _ => ih
  | call l f args ih =>
    rw [Expr.unlined, Expr.check, Expr.check]
    exact (sameFinding_checkCall _ _ f args).bind fun _ => sameFinding_checkAll ih
  | binary l op left right ihl ihr =>
    rw [Expr.unlined, Expr.check, Expr.check]
    refine (sameFinding_expectType left _ _).bind fun _ => ?_
    refine (sameFinding_expectType right _ _).bind fun _ => ?_
    exact ihl.bind fun _ => ihr
  | not l operand ih =>
    rw [Expr.unlined, Expr.check, Expr.check]
    exact (sameFinding_expectType operand _ _).bind fun _ => ih

theorem sameFinding_checkKind (l l' : Line) (t : Target) :
    SameFinding (t.unlined.checkKind ss l) (t.checkKind ss l') := by
  cases t with
  | scalar x => exact sameFinding_expectKind _ _ _ _
  | element x index => exact sameFinding_expectKind _ _ _ _

theorem sameFinding_checkIndexType (t : Target) :
    SameFinding t.unlined.checkIndexType t.checkIndexType := by
  cases t with
  | scalar x => exact .ok ()
  | element x index => exact sameFinding_expectType index _ _

theorem sameFinding_checkIndex (t : Target) :
    SameFinding (t.unlined.checkIndex ss arity) (t.checkIndex ss arity) := by
  cases t with
  | scalar x => exact .ok ()
  | element x index => exact sameFinding_check index

end

namespace BodyCheck

theorem sameSteps_look {p q : ScopeStack → Except AnalysisFailure Unit}
    (h : ∀ ss, SameFinding (p ss) (q ss)) : SameSteps (look p) (look q) := by
  intro s
  have hs := h s.scopes
  unfold look
  revert hs
  generalize p s.scopes = x
  generalize q s.scopes = y
  rintro (_ | h)
  · exact .ok () s
  · exact .error h s

theorem sameSteps_inScope {p q : BodyCheck Unit} (h : SameSteps p q) :
    SameSteps (inScope p) (inScope q) := by
  intro s
  have hs := h { s with scopes := [] :: s.scopes }
  unfold inScope
  revert hs
  generalize p { s with scopes := [] :: s.scopes } = x
  generalize q { s with scopes := [] :: s.scopes } = y
  rintro (⟨_, t⟩ | ⟨h, t⟩)
  · exact .ok () _
  · exact .error h _

theorem sameSteps_declare (l l' : Line) (x : String) (k : VarKind) :
    SameSteps (declare l x k) (declare l' x k) := by
  intro s
  unfold declare
  split_ifs
  · exact sameEnd_rejected _ _ _ s
  · exact .ok () _

theorem sameSteps_layOut (l l' : Line) (x : String) (p : Frame → Except Frame.Refusal Frame) :
    SameSteps (layOut l x p) (layOut l' x p) := by
  intro s
  unfold layOut
  split
  · exact .ok () _
  · exact sameEnd_rejected _ _ _ s
  · exact .error rfl s

end BodyCheck

open BodyCheck

section

variable {arity : Arities}

theorem sameSteps_checkAll {body : List Stmt}
    (h : ∀ s ∈ body, SameSteps (s.unlined.check arity) (s.check arity)) :
    SameSteps (Stmt.checkAll arity (Stmt.unlinedAll body)) (Stmt.checkAll arity body) := by
  induction body with
  | nil => exact .refl _
  | cons s body ih =>
    rw [List.forall_mem_cons] at h
    rw [Stmt.unlinedAll, Stmt.checkAll, Stmt.checkAll]
    exact h.1.bind fun _ => ih h.2

/-- The check of a condition, or of the value of an output or a return. -/
theorem sameSteps_typed (e : Expr) (t : Ty) (c : String) :
    SameSteps (look fun ss => do e.unlined.expectType t c; e.unlined.check ss arity)
      (look fun ss => do e.expectType t c; e.check ss arity) :=
  sameSteps_look fun _ => (sameFinding_expectType e t c).bind fun _ => sameFinding_check e

theorem sameSteps_check (s : Stmt) : SameSteps (s.unlined.check arity) (s.check arity) := by
  induction s with
  | declare l x shape =>
    rw [Stmt.unlined, Stmt.check, Stmt.check]
    exact (sameSteps_declare _ _ x _).bind fun _ => sameSteps_layOut _ _ x _
  | assign l target value =>
    rw [Stmt.unlined, Stmt.check, Stmt.check]
    refine sameSteps_look fun ss => (sameFinding_expectType value _ _).bind fun _ => ?_
    refine (sameFinding_checkIndexType target).bind fun _ => ?_
    refine (sameFinding_checkKind _ _ target).bind fun _ => ?_
    exact (sameFinding_check value).bind fun _ => sameFinding_checkIndex target
  | block l body ih =>
    rw [Stmt.unlined, Stmt.check, Stmt.check]
    exact sameSteps_inScope (sameSteps_checkAll ih)
  | ifThen l cond yes ih =>
    rw [Stmt.unlined, Stmt.check, Stmt.check]
    exact (sameSteps_typed cond _ _).bind fun _ => sameSteps_inScope ih
  | ifElse l cond yes no ihy ihn =>
    rw [Stmt.unlined, Stmt.check, Stmt.check]
    refine (sameSteps_typed cond _ _).bind fun _ => (sameSteps_inScope ihy).bind fun _ => ?_
    exact sameSteps_inScope ihn
  | loop l cond body ih =>
    rw [Stmt.unlined, Stmt.check, Stmt.check]
    exact (sameSteps_typed cond _ _).bind fun _ => sameSteps_inScope ih
  | output l value =>
    rw [Stmt.unlined, Stmt.check, Stmt.check]
    exact sameSteps_typed value _ _
  | input l target =>
    rw [Stmt.unlined, Stmt.check, Stmt.check]
    refine sameSteps_look fun ss => (sameFinding_checkKind _ _ target).bind fun _ => ?_
    exact (sameFinding_checkIndexType target).bind fun _ => sameFinding_checkIndex target
  | ret l value =>
    rw [Stmt.unlined, Stmt.check, Stmt.check]
    exact sameSteps_typed value _ _
  | call l f args =>
    rw [Stmt.unlined, Stmt.check, Stmt.check]
    refine sameSteps_look fun ss => (sameFinding_checkCall _ _ f args).bind fun _ => ?_
    exact sameFinding_checkAll fun e _ => sameFinding_check e

theorem sameSteps_checkParams (ps : List Param) :
    SameSteps (Param.checkAll (ps.map Param.unlined)) (Param.checkAll ps) := by
  induction ps with
  | nil => exact .refl _
  | cons p ps ih =>
    rw [List.map_cons, Param.checkAll, Param.checkAll, Param.check, Param.check]
    refine SameSteps.bind ?_ fun _ => ih
    exact (sameSteps_declare _ _ p.name _).bind fun _ => sameSteps_layOut _ _ p.name _

end

/-- Globals and procedures one behind the other. -/
theorem sameSteps_forM {σ α : Type} {f : α → α} {check : α → EStateM AnalysisFailure σ PUnit}
    (h : ∀ a, SameSteps (check (f a)) (check a)) (as : List α) :
    SameSteps ((as.map f).forM check) (as.forM check) := by
  induction as with
  | nil => exact .refl _
  | cons a as ih =>
    simp only [List.forM_eq_forM, List.map_cons, List.forM_cons] at ih ⊢
    exact (h a).bind fun _ => ih

theorem Global.sameSteps_check (g : Global) : SameSteps g.unlined.check g.check := by
  intro s
  unfold Global.check
  rw [show g.unlined.name = g.name from rfl, show g.unlined.shape = g.shape from rfl]
  split_ifs
  · exact sameEnd_rejected _ _ _ s
  · exact .ok () _

namespace Procedure

theorem sameFinding_layout (p : Procedure) (outer : Scope) (arity : Arities) :
    SameFinding (p.unlined.layout outer arity) (p.layout outer arity) := by
  have hbody : SameSteps (do Param.checkAll p.unlined.params; p.unlined.body.check arity)
      (do Param.checkAll p.params; p.body.check arity) :=
    (sameSteps_checkParams p.params).bind fun _ => sameSteps_check p.body
  have hs := hbody ⟨[[], outer], .empty⟩
  unfold layout
  dsimp only
  revert hs
  generalize (do Param.checkAll p.unlined.params; p.unlined.body.check arity : BodyCheck Unit)
    ⟨[[], outer], .empty⟩ = x
  generalize (do Param.checkAll p.params; p.body.check arity : BodyCheck Unit)
    ⟨[[], outer], .empty⟩ = y
  rintro (⟨_, s⟩ | ⟨h, s⟩)
  · exact .refl _
  · exact .error h

theorem arities_unlined (s : AnalysisState) (p : Procedure) : s.arities p.unlined = s.arities p := by
  unfold AnalysisState.arities unlined
  simp only [List.length_map]

theorem sameSteps_check (p : Procedure) : SameSteps p.unlined.check p.check := by
  intro s
  unfold check
  dsimp only
  rw [arities_unlined, show p.unlined.name = p.name from rfl]
  have hlayout := p.sameFinding_layout (s.note (.analyzing p.name)).scope
    ((s.note (.analyzing p.name)).arities p)
  revert hlayout
  generalize p.unlined.layout _ _ = x
  generalize p.layout _ _ = y
  intro hlayout
  split_ifs
  · exact sameEnd_rejected _ _ _ _
  · cases hlayout with
    | error h => exact .error h _
    | ok f =>
      dsimp only
      split
      · exact .error rfl _
      · exact .ok () _

end Procedure

namespace Program

theorem sameFinding_checkMain (p : Program) : SameFinding p.unlined.checkMain p.checkMain := by
  have hmain : p.unlined.procedure? mainName = (p.procedure? mainName).map Procedure.unlined := by
    rw [procedure?, unlined, List.find?_map]
    rfl
  unfold checkMain
  rw [hmain]
  cases p.procedure? mainName with
  | none => exact sameFinding_reject _ _ _
  | some main =>
    rw [Option.map_some]
    dsimp only
    rw [show main.unlined.params.isEmpty = main.params.isEmpty from List.isEmpty_map]
    split_ifs
    · exact .ok ()
    · exact sameFinding_reject _ _ _

theorem sameSteps_check (p : Program) : SameSteps p.unlined.check p.check := by
  refine (sameSteps_forM Global.sameSteps_check p.globals).bind fun _ => ?_
  refine (sameSteps_forM Procedure.sameSteps_check p.procedures).bind fun _ => ?_
  have hmain := p.sameFinding_checkMain
  revert hmain
  generalize p.unlined.checkMain = x
  generalize p.checkMain = y
  rintro (_ | h)
  · exact .refl _
  · exact fun s => .error h s

end Program

theorem sameFinding_analyze_unlined (p : Program) : SameFinding (analyze p.unlined) (analyze p) := by
  have hcheck := p.sameSteps_check .start
  unfold analyze analyzeNoting
  revert hcheck
  generalize p.unlined.check .start = x
  generalize p.check .start = y
  rintro (⟨_, s⟩ | ⟨h, s⟩)
  · exact .ok _
  · exact .error h

/-- Analysis finds the same in programs that differ in their lines only. -/
theorem sameFinding_analyze {p q : Program} (h : p.unlined = q.unlined) :
    SameFinding (analyze p) (analyze q) := by
  have hp := (sameFinding_analyze_unlined p).symm
  rw [h] at hp
  exact hp.trans (sameFinding_analyze_unlined q)

end ProcMips
