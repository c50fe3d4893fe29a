import ProcMips.Proofs.Analysis.Occurrences

/-! Analysis fails by rejecting the program. A frame is the picture of a layout wherever it is laid out,
so that no size and no offset leaves the range of a word. -/

namespace ProcMips

/-- A check that fails, if it fails, by rejecting the program. -/
inductive Rejects {α : Type} : Except AnalysisFailure α → Prop
  | ok (a : α) : Rejects (.ok a)
  | rejected (e : Located SemanticError) : Rejects (.error (.rejected e))

/-- A step that ends where `I` holds, or rejects the program. -/
inductive RejectsOr {σ α : Type} (I : σ → Prop) : EStateM.Result AnalysisFailure σ α → Prop
  | ok (a : α) {s : σ} (h : I s) : RejectsOr I (.ok a s)
  | rejected (e : Located SemanticError) (s : σ) : RejectsOr I (.error (.rejected e) s)

/-- Steps that keep `I`, or reject the program. -/
def Keeps {σ α : Type} (I : σ → Prop) (p : EStateM AnalysisFailure σ α) : Prop :=
  ∀ s, I s → RejectsOr I (p s)

section

variable {σ α β : Type} {I : σ → Prop}

theorem rejects_reject (l : Line) (e : SemanticError) :
    Rejects (reject l e : Except AnalysisFailure α) := .rejected ⟨l, e⟩

theorem Rejects.bind {x : Except AnalysisFailure α} {f : α → Except AnalysisFailure β}
    (h : Rejects x) (hf : ∀ a, Rejects (f a)) : Rejects (x >>= f) := by
  cases h with
  | ok a => exact hf a
  | rejected e => exact .rejected e

theorem keeps_pure (a : α) : Keeps I (pure a) := fun _ hs => .ok a hs

theorem Keeps.bind {p : EStateM AnalysisFailure σ α} {f : α → EStateM AnalysisFailure σ β}
    (h : Keeps I p) (hf : ∀ a, Keeps I (f a)) : Keeps I (p >>= f) := by
  intro s hs
  have hp := h s hs
  change RejectsOr I (EStateM.bind p f s)
  unfold EStateM.bind
  revert hp
  generalize p s = x
  rintro (⟨a, ht⟩ | ⟨e, t⟩)
  · exact hf a _ ht
  · exact .rejected e t

theorem Keeps.of_ok {p : EStateM AnalysisFailure σ α} (h : Keeps I p) {s t : σ} {a : α} (hs : I s)
    (hrun : p s = .ok a t) : I t := by
  have hp := h s hs
  rw [hrun] at hp
  cases hp with
  | ok _ ht => exact ht

theorem keeps_forM {f : α → EStateM AnalysisFailure σ PUnit} {as : List α}
    (h : ∀ a ∈ as, Keeps I (f a)) : Keeps I (as.forM f) := by
  induction as with
  | nil => exact keeps_pure _
  | cons a as ih =>
    rw [List.forall_mem_cons] at h
    simp only [List.forM_eq_forM, List.forM_cons] at ih ⊢
    exact h.1.bind fun _ => ih h.2

end

section

variable {ss : ScopeStack} {arity : Arities}

theorem rejects_expectType (e : Expr) (t : Ty) (c : String) : Rejects (e.expectType t c) := by
  unfold Expr.expectType
  split_ifs
  · exact .ok ()
  · exact rejects_reject _ _

theorem rejects_expectKind (l : Line) (x : String) (k : VarKind) : Rejects (ss.expectKind l x k) := by
  unfold ScopeStack.expectKind
  split
  · exact rejects_reject _ _
  · exact rejects_reject _ _
  · exact rejects_reject _ _
  · exact .ok ()

theorem rejects_checkCall (l : Line) (f : String) (args : List Expr) :
    Rejects (checkCall arity l f args) := by
  unfold checkCall
  split
  · exact rejects_reject _ _
  · split_ifs
    · exact rejects_reject _ _
    · exact rejects_reject _ _
    · exact .ok ()

theorem rejects_checkAll {es : List Expr} (h : ∀ e ∈ es, Rejects (e.check ss arity)) :
    Rejects (Expr.checkAll ss arity es) := by
  induction es with
  | nil => exact .ok ()
  | cons e es ih =>
    rw [List.forall_mem_cons] at h
    rw [Expr.checkAll]
    exact h.1.bind fun _ => ih h.2

theorem Expr.rejects_check (e : Expr) : Rejects (e.check ss arity) := by
  induction e with
  | int l n => exact .ok ()
  | bool l b => exact .ok ()
  | scalar l x =>
    rw [Expr.check]
    exact rejects_expectKind _ _ _
  | element l x index ih =>
    rw [Expr.check]
    exact (rejects_expectKind _ _ _).bind fun _ => (rejects_expectType _ _ _).bind fun _ => ih
  | call l f args ih =>
    rw [Expr.check]
    exact (rejects_checkCall _ _ _).bind fun _ => rejects_checkAll ih
  | binary l op left right ihl ihr =>
    rw [Expr.check]
    refine (rejects_expectType _ _ _).bind fun _ => (rejects_expectType _ _ _).bind fun _ => ?_
    exact ihl.bind fun _ => ihr
  | not l operand ih =>
    rw [Expr.check]
    exact (rejects_expectType _ _ _).bind fun _ => ih

namespace Target

theorem rejects_checkKind (l : Line) (t : Target) : Rejects (t.checkKind ss l) := by
  cases t with
  | scalar x => exact rejects_expectKind _ _ _
  | element x index => exact rejects_expectKind _ _ _

theorem rejects_checkIndexType (t : Target) : Rejects t.checkIndexType := by
  cases t with
  | scalar x => exact .ok ()
  | element x index => exact rejects_expectType _ _ _

theorem rejects_checkIndex (t : Target) : Rejects (t.checkIndex ss arity) := by
  cases t with
  | scalar x => exact .ok ()
  | element x index => exact index.rejects_check

end Target

end

/-- The frame that is laid out is the picture of a layout. -/
def BodyState.Pictured (s : BodyState) : Prop :=
  ∃ l args, Layout.Valid l ∧ s.frame = Frame.ofLayout l args

namespace BodyCheck

theorem keeps_look {p : ScopeStack → Except AnalysisFailure Unit} (h : ∀ ss, Rejects (p ss)) :
    Keeps BodyState.Pictured (look p) := by
  intro s hs
  have hp := h s.scopes
  unfold look
  revert hp
  generalize p s.scopes = x
  rintro (_ | e)
  · exact .ok () hs
  · exact .rejected e s

theorem keeps_inScope {p : BodyCheck Unit} (h : Keeps BodyState.Pictured p) :
    Keeps BodyState.Pictured (inScope p) := by
  intro s hs
  have hp := h { s with scopes := [] :: s.scopes } hs
  unfold inScope
  revert hp
  generalize p { s with scopes := [] :: s.scopes } = x
  rintro (⟨_, ht⟩ | ⟨e, t⟩)
  · exact .ok () ht
  · exact .rejected e _

theorem keeps_declare (l : Line) (x : String) (k : VarKind) :
    Keeps BodyState.Pictured (declare l x k) := by
  intro s hs
  unfold declare
  split_ifs
  · exact .rejected _ s
  · exact .ok () hs

/-- A request on a pictured frame that gives a pictured frame, or is too large. -/
theorem keeps_layOut {l : Line} {x : String} {p : Frame → Except Frame.Refusal Frame}
    (h : ∀ l args, Layout.Valid l → p (Frame.ofLayout l args) = .error .tooLarge ∨
      ∃ l' args', Layout.Valid l' ∧ p (Frame.ofLayout l args) = .ok (Frame.ofLayout l' args')) :
    Keeps BodyState.Pictured (layOut l x p) := by
  rintro s ⟨l, args, hv, hframe⟩
  unfold layOut
  rw [hframe]
  rcases h l args hv with hp | ⟨l', args', hv', hp⟩
  · rw [hp]
    exact .rejected _ s
  · rw [hp]
    exact .ok () ⟨l', args', hv', rfl⟩

theorem keeps_insert {l : Line} {x : String} {n : Nat} (hn : 0 < n) :
    Keeps BodyState.Pictured (layOut l x (·.insert x n)) := by
  refine keeps_layOut fun l args hv => ?_
  rw [Frame.insert_ofLayout hv]
  split_ifs with hsmall
  · exact .inr ⟨_, args, hv.request hn hsmall, rfl⟩
  · exact .inl rfl

theorem keeps_insertArg (l : Line) (x : String) :
    Keeps BodyState.Pictured (layOut l x (·.insertArg x)) := by
  refine keeps_layOut fun l args hv => ?_
  rw [Frame.insertArg, Frame.insert_ofLayout hv]
  split_ifs with hsmall
  · exact .inr ⟨_, args ++ [x], hv.request Nat.one_pos hsmall, rfl⟩
  · exact .inl rfl

end BodyCheck

open BodyCheck

section

variable {arity : Arities}

theorem keeps_typed (e : Expr) (t : Ty) (c : String) :
    Keeps BodyState.Pictured (look fun ss => do e.expectType t c; e.check ss arity) :=
  keeps_look fun _ => (rejects_expectType e t c).bind fun _ => e.rejects_check

theorem keeps_checkAll {body : List Stmt}
    (h : ∀ s ∈ body, (∀ r ∈ s.declared, 0 < r.2) → Keeps BodyState.Pictured (s.check arity))
    (hpos : ∀ r ∈ Stmt.declaredAll body, 0 < r.2) :
    Keeps BodyState.Pictured (Stmt.checkAll arity body) := by
  induction body with
  | nil => exact keeps_pure ()
  | cons s body ih =>
    rw [List.forall_mem_cons] at h
    rw [Stmt.declaredAll, List.forall_mem_append] at hpos
    rw [Stmt.checkAll]
    exact (h.1 hpos.1).bind fun _ => ih h.2 hpos.2

theorem Stmt.keeps_check {s : Stmt} (hpos : ∀ r ∈ s.declared, 0 < r.2) :
    Keeps BodyState.Pictured (s.check arity) := by
  induction s with
  | declare l x shape =>
    rw [Stmt.check]
    rw [Stmt.declared, List.forall_mem_singleton] at hpos
    exact (keeps_declare _ _ _).bind fun _ => keeps_insert hpos
  | assign l target value =>
    rw [Stmt.check]
    refine keeps_look fun ss => (rejects_expectType _ _ _).bind fun _ => ?_
    refine target.rejects_checkIndexType.bind fun _ => (target.rejects_checkKind _).bind fun _ => ?_
    exact value.rejects_check.bind fun _ => target.rejects_checkIndex
  | block l body ih =>
    rw [Stmt.check]
    exact keeps_inScope (keeps_checkAll (fun s hs hpos => ih s hs hpos) hpos)
  | ifThen l cond yes ih =>
    rw [Stmt.check]
    exact (keeps_typed _ _ _).bind fun _ => keeps_inScope (ih hpos)
  | ifElse l cond yes no ihy ihn =>
    rw [Stmt.declared, List.forall_mem_append] at hpos
    rw [Stmt.check]
    refine (keeps_typed _ _ _).bind fun _ => (keeps_inScope (ihy hpos.1)).bind fun _ => ?_
    exact keeps_inScope (ihn hpos.2)
  | loop l cond body ih =>
    rw [Stmt.check]
    exact (keeps_typed _ _ _).bind fun _ => keeps_inScope (ih hpos)
  | output l value =>
    rw [Stmt.check]
    exact keeps_typed _ _ _
  | input l target =>
    rw [Stmt.check]
    refine keeps_look fun ss => (target.rejects_checkKind _).bind fun _ => ?_
    exact target.rejects_checkIndexType.bind fun _ => target.rejects_checkIndex
  | ret l value =>
    rw [Stmt.check]
    exact keeps_typed _ _ _
  | call l f args =>
    rw [Stmt.check]
    refine keeps_look fun ss => (rejects_checkCall _ _ _).bind fun _ => ?_
    exact rejects_checkAll fun e _ => e.rejects_check

theorem Param.keeps_checkAll (ps : List Param) : Keeps BodyState.Pictured (Param.checkAll ps) := by
  induction ps with
  | nil => exact keeps_pure ()
  | cons p ps ih =>
    rw [Param.checkAll, Param.check]
    refine Keeps.bind ?_ fun _ => ih
    exact (keeps_declare _ _ _).bind fun _ => keeps_insertArg _ _

end

namespace Procedure

variable {p : Procedure}

/-- The frame of a procedure is finished and has a size, unless the procedure is rejected. -/
theorem layout_cases (hpos : ∀ r ∈ p.body.declared, 0 < r.2) (outer : Scope) (arity : Arities) :
    (∃ e, p.layout outer arity = .error (.rejected e)) ∨
      ∃ f n, p.layout outer arity = .ok f ∧ f.size = .ok n := by
  have hbody : Keeps BodyState.Pictured (do Param.checkAll p.params; p.body.check arity) :=
    (Param.keeps_checkAll p.params).bind fun _ => Stmt.keeps_check hpos
  have hs := hbody ⟨[[], outer], .empty⟩ ⟨[], [], .nil, rfl⟩
  unfold layout
  dsimp only
  revert hs
  generalize (do Param.checkAll p.params; p.body.check arity : BodyCheck Unit)
    ⟨[[], outer], .empty⟩ = x
  rintro (⟨_, l, args, hv, hframe⟩ | ⟨e, s⟩)
  · right
    dsimp only
    rw [hframe, Frame.finish_ofLayout hv]
    exact ⟨_, _, rfl, Frame.size_finishedLayout hv⟩
  · exact .inl ⟨e, rfl⟩

theorem keeps_check (hpos : ∀ r ∈ p.body.declared, 0 < r.2) : Keeps (fun _ => True) p.check := by
  intro s _
  unfold check
  dsimp only
  split_ifs
  · exact .rejected _ _
  · rcases layout_cases hpos (s.note (.analyzing p.name)).scope
      ((s.note (.analyzing p.name)).arities p) with ⟨e, he⟩ | ⟨f, n, hf, hn⟩
    · rw [he]
      exact .rejected e _
    · rw [hf]
      dsimp only
      rw [hn]
      exact .ok () trivial

end Procedure

theorem Global.keeps_check (g : Global) : Keeps (fun _ => True) g.check := by
  intro s _
  unfold Global.check
  split_ifs
  · exact .rejected _ _
  · exact .ok () trivial

namespace Program

variable {p : Program}

theorem rejects_checkMain (p : Program) : Rejects p.checkMain := by
  unfold checkMain
  split
  · exact rejects_reject _ _
  · split_ifs
    · exact .ok ()
    · exact rejects_reject _ _

theorem keeps_check (hpos : p.Positive) : Keeps (fun _ => True) p.check := by
  refine (keeps_forM fun g _ => g.keeps_check).bind fun _ => ?_
  refine (keeps_forM fun q hq => Procedure.keeps_check (hpos.bodies q hq)).bind fun _ => ?_
  have hmain := p.rejects_checkMain
  revert hmain
  generalize p.checkMain = x
  rintro (_ | e)
  · exact fun s _ => .ok () trivial
  · exact fun s _ => .rejected e s

/-- What analysis does not accept it rejects. -/
theorem exists_rejected_of_analyze (hpos : p.Positive) {f : AnalysisFailure}
    (h : analyze p = .error f) : ∃ e, f = .rejected e := by
  have hcheck := keeps_check hpos .start trivial
  unfold analyze analyzeNoting at h
  cases hrun : p.check .start with
  | ok _ s =>
    rw [hrun] at h
    cases h
  | error f' s =>
    rw [hrun] at h hcheck
    cases h
    cases hcheck with
    | rejected e => exact ⟨e, rfl⟩

end Program

end ProcMips
