import ProcMips.Proofs.Analysis.WellFormed

/-! What the checks of a body accept. A check that succeeds finds its part well-formed in what the
open scopes make visible, leaves the scopes with what the part declares, and makes the requests of
the part on the frame; and it succeeds whenever these hold. -/

namespace ProcMips

namespace ScopeStack

theorem find_cons_eq_untyped {s : Scope} {ss : ScopeStack} {x : String} :
    ScopeStack.find (s :: ss) x = .untyped ↔ s.kind x = .untyped ∧ ss.find x = .untyped := by
  rw [find]
  split_ifs with h <;> simp [h]

theorem find_declare (ss : ScopeStack) (hss : ss ≠ []) {x : String} {k : VarKind}
    (hk : k ≠ .untyped) (hx : ss.find x = .untyped) :
    (ss.declare x k).find = Visible.declaring ss.find x k := by
  cases ss with
  | nil => exact absurd rfl hss
  | cons s ss =>
    obtain ⟨hs, -⟩ := find_cons_eq_untyped.1 hx
    funext y
    simp only [declare, declare?, Option.getD_some, find, Scope.kind_bind, Visible.declaring]
    by_cases hy : y = x
    · subst hy
      simp [hk]
    · simp [hy]

theorem find_nil_cons (ss : ScopeStack) : ScopeStack.find ([] :: ss) = ss.find := by
  funext x
  simp [find, Scope.kind]

theorem isDeclared_eq_false {ss : ScopeStack} {x : String} :
    ss.isDeclared x = false ↔ ss.find x = .untyped := by
  simp [isDeclared]

theorem expectKind_eq_ok {ss : ScopeStack} {l : Line} {x : String} {k : VarKind}
    (hk : k ≠ .untyped) : ss.expectKind l x k = .ok () ↔ ss.find x = k := by
  unfold expectKind reject
  cases ss.find x <;> cases k <;> simp at *

end ScopeStack

theorem Shape.kind_ne_untyped (s : Shape) : s.kind ≠ .untyped := by cases s <;> simp [Shape.kind]

/-- The numbers of parameters that `arity` knows are those of the procedures that can be called. -/
def Arities.Agree (arity : Arities) (callable : List Procedure) : Prop :=
  ∀ f n, arity f = some n ↔ ∃ q ∈ callable, q.name = f ∧ q.params.length = n

theorem Expr.expectType_eq_ok {e : Expr} {t : Ty} {c : String} :
    e.expectType t c = .ok () ↔ e.type = t := by
  unfold Expr.expectType reject
  split_ifs with h <;> simp [h]

theorem checkCall_eq_ok {arity : Arities} {l : Line} {f : String} {args : List Expr} :
    checkCall arity l f args = .ok () ↔
      arity f = some args.length ∧ ∀ a ∈ args, a.type = .int := by
  unfold checkCall reject
  cases arity f with
  | none => simp
  | some n =>
    by_cases hany : args.any (·.type != .int) = true
    · simp only [hany, if_true, reduceCtorEq, false_iff, not_and]
      intro _ h
      obtain ⟨a, ha, hne⟩ := List.any_eq_true.1 hany
      exact (bne_iff_ne.1 hne) (h a ha)
    · have hall : ∀ a ∈ args, a.type = .int := by
        intro a ha
        by_contra hne
        exact hany (List.any_eq_true.2 ⟨a, ha, bne_iff_ne.2 hne⟩)
      by_cases hn : args.length = n
      · simpa [hany, hn] using hall
      · simp [hany, hn, Ne.symm hn]

theorem Expr.checkAll_eq_ok {ss : ScopeStack} {arity : Arities} {es : List Expr} :
    Expr.checkAll ss arity es = .ok () ↔ ∀ e ∈ es, e.check ss arity = .ok () := by
  induction es with
  | nil => simp [Expr.checkAll]
  | cons e es ih => simp only [Expr.checkAll, except_seq_eq_ok, ih, List.forall_mem_cons]

section

variable {ss : ScopeStack} {arity : Arities} {callable : List Procedure}

/-- An expression has the type of its outermost node if it passes its checks. -/
theorem Expr.hasType_iff (hcall : arity.Agree callable) {e : Expr} {t : Ty} :
    e.HasType ss.find callable t ↔ e.type = t ∧ e.check ss arity = .ok () := by
  induction e generalizing t with
  | int l n =>
    refine ⟨fun h => ?_, ?_⟩
    · cases h
      exact ⟨rfl, rfl⟩
    · rintro ⟨rfl, -⟩
      exact .int l n
  | bool l b =>
    refine ⟨fun h => ?_, ?_⟩
    · cases h
      exact ⟨rfl, rfl⟩
    · rintro ⟨rfl, -⟩
      exact .bool l b
  | scalar l x =>
    simp only [Expr.check, ScopeStack.expectKind_eq_ok (k := .single) (by simp)]
    refine ⟨fun h => ?_, ?_⟩
    · cases h with
      | scalar _ hx => exact ⟨rfl, hx⟩
    · rintro ⟨rfl, hx⟩
      exact .scalar l hx
  | element l x index ih =>
    simp only [Expr.check, except_seq_eq_ok, expectType_eq_ok,
      ScopeStack.expectKind_eq_ok (k := .array) (by simp)]
    refine ⟨fun h => ?_, ?_⟩
    · cases h with
      | element _ hx hi => exact ⟨rfl, hx, ih.1 hi⟩
    · rintro ⟨rfl, hx, hi⟩
      exact .element l hx (ih.2 hi)
  | call l f args ih =>
    simp only [Expr.check, except_seq_eq_ok, checkCall_eq_ok, checkAll_eq_ok]
    refine ⟨fun h => ?_, ?_⟩
    · cases h with
      | call _ hq hn ha =>
        have hargs := fun a h => (ih a h).1 (ha a h)
        exact ⟨rfl, ⟨(hcall _ _).2 ⟨_, hq, rfl, hn.symm⟩, fun a h => (hargs a h).1⟩,
          fun a h => (hargs a h).2⟩
    · rintro ⟨rfl, ⟨hf, ht⟩, ha⟩
      obtain ⟨q, hq, rfl, hn⟩ := (hcall _ _).1 hf
      exact .call l hq hn.symm fun a h => (ih a h).2 ⟨ht a h, ha a h⟩
  | binary l op left right ihl ihr =>
    simp only [Expr.check, except_seq_eq_ok, expectType_eq_ok]
    refine ⟨fun h => ?_, ?_⟩
    · cases h with
      | binary _ hl hr =>
        have hl := ihl.1 hl
        have hr := ihr.1 hr
        exact ⟨rfl, hl.1, hr.1, hl.2, hr.2⟩
    · rintro ⟨rfl, htl, htr, hl, hr⟩
      exact .binary l (ihl.2 ⟨htl, hl⟩) (ihr.2 ⟨htr, hr⟩)
  | not l operand ih =>
    simp only [Expr.check, except_seq_eq_ok, expectType_eq_ok]
    refine ⟨fun h => ?_, ?_⟩
    · cases h with
      | not _ h => exact ⟨rfl, ih.1 h⟩
    · rintro ⟨rfl, h⟩
      exact .not l (ih.2 h)

theorem Expr.checkAll_iff (hcall : arity.Agree callable) {es : List Expr} :
    ((∀ e ∈ es, e.type = .int) ∧ Expr.checkAll ss arity es = .ok ()) ↔
      ∀ e ∈ es, e.HasType ss.find callable .int := by
  simp only [Expr.checkAll_eq_ok, Expr.hasType_iff hcall]
  exact ⟨fun h e he => ⟨h.1 e he, h.2 e he⟩, fun h => ⟨fun e he => (h e he).1, fun e he => (h e he).2⟩⟩

/-- The three checks of a target, which different statements make in different orders. -/
theorem Target.wellFormed_iff (hcall : arity.Agree callable) {l : Line} {target : Target} :
    target.WellFormed ss.find callable ↔ target.checkIndexType = .ok () ∧
      target.checkKind ss l = .ok () ∧ target.checkIndex ss arity = .ok () := by
  cases target with
  | scalar x =>
    simp only [Target.checkIndexType, Target.checkKind, Target.checkIndex, true_and, and_true,
      ScopeStack.expectKind_eq_ok (k := .single) (by simp)]
    refine ⟨fun h => ?_, .scalar⟩
    cases h with
    | scalar hx => exact hx
  | element x index =>
    simp only [Target.checkIndexType, Target.checkKind, Target.checkIndex, Expr.expectType_eq_ok,
      ScopeStack.expectKind_eq_ok (k := .array) (by simp)]
    refine ⟨fun h => ?_, fun ⟨ht, hx, hi⟩ => .element hx ((Expr.hasType_iff hcall).2 ⟨ht, hi⟩)⟩
    cases h with
    | element hx hi =>
      have hi := (Expr.hasType_iff hcall).1 hi
      exact ⟨hi.1, hx, hi.2⟩

end

namespace BodyCheck

theorem look_eq_ok {p : ScopeStack → Except AnalysisFailure Unit} {s t : BodyState} :
    look p s = .ok () t ↔ p s.scopes = .ok () ∧ t = s := by
  unfold look
  cases p s.scopes with
  | error e => simp
  | ok u => simp [eq_comm]

theorem inScope_eq_ok {p : BodyCheck Unit} {s t : BodyState} :
    inScope p s = .ok () t ↔
      ∃ u, p { s with scopes := [] :: s.scopes } = .ok () u ∧ t = { u with scopes := u.scopes.tail } := by
  unfold inScope
  cases p { s with scopes := [] :: s.scopes } with
  | error e u => simp
  | ok a u => simp [eq_comm]

theorem declare_eq_ok {l : Line} {x : String} {k : VarKind} {s t : BodyState} :
    declare l x k s = .ok () t ↔
      s.scopes.find x = .untyped ∧ t = { s with scopes := s.scopes.declare x k } := by
  unfold declare
  rw [← ScopeStack.isDeclared_eq_false]
  split_ifs with h <;> simp [h, eq_comm]

theorem layOut_eq_ok {l : Line} {x : String} {p : Frame → Except Frame.Refusal Frame}
    {s t : BodyState} :
    layOut l x p s = .ok () t ↔ ∃ f, p s.frame = .ok f ∧ t = { s with frame := f } := by
  unfold layOut
  cases p s.frame with
  | error r => cases r <;> simp
  | ok f => simp [eq_comm]

end BodyCheck

end ProcMips
