import ProcMips.Proofs.Analysis.Checks
import ProcMips.Proofs.Splits

/-! What the check of a statement accepts. It succeeds exactly if the statement is well-formed in what
is visible and its declarations fit into the frame; afterwards the scopes hold what the statement
itself declares, whatever is declared inside it. -/

namespace ProcMips

namespace Stmt

/-- The open scopes behind a statement. -/
def scopesAfter (ss : ScopeStack) : Stmt → ScopeStack
  | declare _ x shape => ss.declare x shape.kind
  | _ => ss

theorem exists_scopesAfter (sc : Scope) (ss : ScopeStack) (s : Stmt) :
    ∃ sc', s.scopesAfter (sc :: ss) = sc' :: ss := by
  cases s with
  | declare _ x shape => exact ⟨sc.bind x shape.kind, rfl⟩
  | _ => exact ⟨sc, rfl⟩

theorem exists_foldl_scopesAfter (sc : Scope) (ss : ScopeStack) (body : List Stmt) :
    ∃ sc', body.foldl scopesAfter (sc :: ss) = sc' :: ss := by
  induction body generalizing sc with
  | nil => exact ⟨sc, rfl⟩
  | cons s body ih =>
    obtain ⟨sc', h⟩ := exists_scopesAfter sc ss s
    rw [List.foldl_cons, h]
    exact ih sc'

theorem scopesAfter_ne_nil {ss : ScopeStack} (hss : ss ≠ []) (s : Stmt) : s.scopesAfter ss ≠ [] := by
  obtain ⟨sc, ss, rfl⟩ := List.exists_cons_of_ne_nil hss
  obtain ⟨sc', h⟩ := exists_scopesAfter sc ss s
  simp [h]

variable {callable : List Procedure}

theorem find_scopesAfter {ss : ScopeStack} (hss : ss ≠ []) {s : Stmt}
    (hs : s.WellFormed callable ss.find) : (s.scopesAfter ss).find = s.after ss.find := by
  cases hs with
  | declare _ shape hx => exact ScopeStack.find_declare _ hss shape.kind_ne_untyped hx
  | _ => rfl

/-- Each statement is well-formed in what those before it make visible. -/
def AllWellFormed (callable : List Procedure) (v : Visible) (body : List Stmt) : Prop :=
  ∀ before s rest, body = before ++ s :: rest → s.WellFormed callable (before.foldl after v)

theorem allWellFormed_cons {v : Visible} {s : Stmt} {body : List Stmt} :
    AllWellFormed callable v (s :: body) ↔
      s.WellFormed callable v ∧ AllWellFormed callable (s.after v) body :=
  forall_split_cons (P := fun (before : List Stmt) (t : Stmt) _ =>
    t.WellFormed callable (before.foldl after v))

theorem wellFormed_block_iff {v : Visible} {l : Line} {body : List Stmt} :
    (block l body).WellFormed callable v ↔ AllWellFormed callable v body := by
  constructor
  · intro h
    cases h with
    | block _ h => exact h
  · exact WellFormed.block l

/-- What the check of `s` does from `st`. -/
def Accepts (callable : List Procedure) (s : Stmt) (st st' : BodyState) : Prop :=
  s.WellFormed callable st.scopes.find ∧ st'.scopes = s.scopesAfter st.scopes ∧
    st.frame.insertAll s.declared = .ok st'.frame

theorem accepts_of_same {s : Stmt} {st st' : BodyState} (hd : s.declared = [])
    (hs : s.scopesAfter st.scopes = st.scopes) :
    Accepts callable s st st' ↔ s.WellFormed callable st.scopes.find ∧ st' = st := by
  obtain ⟨scopes', frame'⟩ := st'
  unfold Accepts
  rw [hd, hs, Frame.insertAll_nil]
  constructor
  · rintro ⟨h, rfl, hf⟩
    cases hf
    exact ⟨h, rfl⟩
  · rintro ⟨h, rfl⟩
    exact ⟨h, rfl, rfl⟩

variable {arity : Arities}

/-- The check of `s` succeeds exactly if `s` is well-formed and its declarations fit into the frame. -/
def CheckExact (arity : Arities) (callable : List Procedure) (s : Stmt) : Prop :=
  ∀ st st', st.scopes ≠ [] → (s.check arity st = .ok () st' ↔ Accepts callable s st st')

theorem checkAll_eq_ok_of {body : List Stmt} (h : ∀ s ∈ body, CheckExact arity callable s) :
    ∀ st st', st.scopes ≠ [] →
      (Stmt.checkAll arity body st = .ok () st' ↔
        AllWellFormed callable st.scopes.find body ∧
          st'.scopes = body.foldl scopesAfter st.scopes ∧
          st.frame.insertAll (Stmt.declaredAll body) = .ok st'.frame) := by
  induction body with
  | nil =>
    intro st st' _
    simp only [Stmt.checkAll, step_pure_eq_ok, Stmt.declaredAll, Frame.insertAll_nil,
      List.foldl_nil, true_and, Except.ok.injEq]
    constructor
    · rintro rfl
      exact ⟨forall_split_nil, rfl, rfl⟩
    · rintro ⟨-, hs, hf⟩
      cases st; cases st'
      simp_all
  | cons s body ih =>
    intro st st' hss
    have ih := ih fun t ht => h t (List.mem_cons_of_mem _ ht)
    simp only [Stmt.checkAll, step_seq_eq_ok, h s List.mem_cons_self _ _ hss, allWellFormed_cons,
      Stmt.declaredAll, Frame.insertAll_append, except_bind_eq_ok, List.foldl_cons]
    constructor
    · rintro ⟨u, ⟨hs, hscopes, hframe⟩, hrest⟩
      have hu : u.scopes ≠ [] := hscopes ▸ scopesAfter_ne_nil hss s
      rw [ih u st' hu, hscopes, find_scopesAfter hss hs] at hrest
      exact ⟨⟨hs, hrest.1⟩, hrest.2.1, u.frame, hframe, hrest.2.2⟩
    · rintro ⟨⟨hs, hbody⟩, hscopes, f, hframe, hrest⟩
      refine ⟨⟨s.scopesAfter st.scopes, f⟩, ⟨hs, rfl, hframe⟩, ?_⟩
      rw [ih _ _ (scopesAfter_ne_nil hss s)]
      exact ⟨by rwa [find_scopesAfter hss hs], hscopes, hrest⟩

/-- A part that is checked in a scope of its own leaves the scopes as they were. -/
theorem inScope_eq_ok_of {s : Stmt} (h : CheckExact arity callable s) (st st' : BodyState) :
    BodyCheck.inScope (s.check arity) st = .ok () st' ↔
      s.WellFormed callable st.scopes.find ∧ st'.scopes = st.scopes ∧
        st.frame.insertAll s.declared = .ok st'.frame := by
  simp only [BodyCheck.inScope_eq_ok, h ⟨[] :: st.scopes, st.frame⟩ _ (by simp), Accepts,
    ScopeStack.find_nil_cons]
  obtain ⟨sc, hsc⟩ := exists_scopesAfter [] st.scopes s
  constructor
  · rintro ⟨u, ⟨hs, hscopes, hframe⟩, rfl⟩
    exact ⟨hs, by rw [hscopes, hsc]; rfl, hframe⟩
  · rintro ⟨hs, hscopes, hframe⟩
    exact ⟨⟨sc :: st.scopes, st'.frame⟩, ⟨hs, hsc.symm, hframe⟩, by cases st'; simp_all⟩

theorem checkExact_declare (l : Line) (x : String) (shape : Shape) :
    CheckExact arity callable (declare l x shape) := by
  intro st st' hss
  simp only [Stmt.check, step_seq_eq_ok, BodyCheck.declare_eq_ok, BodyCheck.layOut_eq_ok,
    Accepts, Stmt.declared, Frame.insertAll_singleton]
  constructor
  · rintro ⟨u, ⟨hx, rfl⟩, f, hf, rfl⟩
    exact ⟨.declare l shape hx, rfl, hf⟩
  · rintro ⟨hs, hscopes, hf⟩
    cases hs with
    | declare _ _ hx => exact ⟨_, ⟨hx, rfl⟩, st'.frame, hf, by cases st'; simp_all [scopesAfter]⟩

theorem checkExact_block (l : Line) {body : List Stmt}
    (h : ∀ s ∈ body, CheckExact arity callable s) : CheckExact arity callable (block l body) := by
  intro st st' hss
  have hbody := checkAll_eq_ok_of h
  simp only [Stmt.check, BodyCheck.inScope_eq_ok, hbody ⟨[] :: st.scopes, st.frame⟩ _ (by simp),
    Accepts, Stmt.declared, wellFormed_block_iff, scopesAfter, ScopeStack.find_nil_cons]
  obtain ⟨sc, hsc⟩ := exists_foldl_scopesAfter [] st.scopes body
  constructor
  · rintro ⟨u, ⟨hs, hscopes, hframe⟩, rfl⟩
    exact ⟨hs, by rw [hscopes, hsc]; rfl, hframe⟩
  · rintro ⟨hs, hscopes, hframe⟩
    exact ⟨⟨sc :: st.scopes, st'.frame⟩, ⟨hs, hsc.symm, hframe⟩, by cases st'; simp_all⟩

section

variable (hcall : arity.Agree callable)

include hcall

theorem checkExact_assign (l : Line) (target : Target) (value : Expr) :
    CheckExact arity callable (assign l target value) := by
  intro st st' _
  rw [accepts_of_same rfl rfl]
  simp only [Stmt.check, BodyCheck.look_eq_ok, except_seq_eq_ok, Expr.expectType_eq_ok]
  refine and_congr_left fun _ => ⟨?_, fun h => ?_⟩
  · rintro ⟨ht, htype, hkind, hv, hindex⟩
    exact .assign l ((Target.wellFormed_iff hcall).2 ⟨htype, hkind, hindex⟩)
      ((Expr.hasType_iff hcall).2 ⟨ht, hv⟩)
  · cases h with
    | assign _ htarget hvalue =>
      have hv := (Expr.hasType_iff hcall).1 hvalue
      have ht := (Target.wellFormed_iff hcall (l := l)).1 htarget
      exact ⟨hv.1, ht.1, ht.2.1, hv.2, ht.2.2⟩

theorem checkExact_input (l : Line) (target : Target) :
    CheckExact arity callable (input l target) := by
  intro st st' _
  rw [accepts_of_same rfl rfl]
  simp only [Stmt.check, BodyCheck.look_eq_ok, except_seq_eq_ok]
  refine and_congr_left fun _ => ⟨?_, fun h => ?_⟩
  · rintro ⟨hkind, htype, hindex⟩
    exact .input l ((Target.wellFormed_iff hcall).2 ⟨htype, hkind, hindex⟩)
  · cases h with
    | input _ htarget =>
      have ht := (Target.wellFormed_iff hcall (l := l)).1 htarget
      exact ⟨ht.2.1, ht.1, ht.2.2⟩

theorem checkExact_call (l : Line) (f : String) (args : List Expr) :
    CheckExact arity callable (call l f args) := by
  intro st st' _
  rw [accepts_of_same rfl rfl]
  simp only [Stmt.check, BodyCheck.look_eq_ok, except_seq_eq_ok, checkCall_eq_ok]
  refine and_congr_left fun _ => ⟨?_, fun h => ?_⟩
  · rintro ⟨⟨hf, ht⟩, ha⟩
    obtain ⟨q, hq, rfl, hn⟩ := (hcall _ _).1 hf
    exact .call l hq hn.symm ((Expr.checkAll_iff hcall).1 ⟨ht, ha⟩)
  · cases h with
    | call _ hq hn ha =>
      have ha := (Expr.checkAll_iff hcall).2 ha
      exact ⟨⟨(hcall _ _).2 ⟨_, hq, rfl, hn.symm⟩, ha.1⟩, ha.2⟩

theorem checkExact_ifThen (l : Line) (cond : Expr) {yes : Stmt} (h : CheckExact arity callable yes) :
    CheckExact arity callable (ifThen l cond yes) := by
  intro st st' hss
  simp only [Stmt.check, step_seq_eq_ok, BodyCheck.look_eq_ok, except_seq_eq_ok,
    Expr.expectType_eq_ok, ← Expr.hasType_iff hcall, inScope_eq_ok_of h, Accepts, Stmt.declared,
    scopesAfter]
  constructor
  · rintro ⟨u, ⟨hc, rfl⟩, hy, hrest⟩
    exact ⟨.ifThen l hc hy, hrest⟩
  · rintro ⟨hs, hrest⟩
    cases hs with
    | ifThen _ hc hy => exact ⟨st, ⟨hc, rfl⟩, hy, hrest⟩

theorem checkExact_ifElse (l : Line) (cond : Expr) {yes no : Stmt}
    (hyes : CheckExact arity callable yes) (hno : CheckExact arity callable no) :
    CheckExact arity callable (ifElse l cond yes no) := by
  intro st st' hss
  simp only [Stmt.check, step_seq_eq_ok, BodyCheck.look_eq_ok, except_seq_eq_ok,
    Expr.expectType_eq_ok, ← Expr.hasType_iff hcall, inScope_eq_ok_of hyes, inScope_eq_ok_of hno,
    Accepts, Stmt.declared, scopesAfter]
  simp only [Frame.insertAll_append, except_bind_eq_ok]
  constructor
  · rintro ⟨u, ⟨hc, rfl⟩, w, ⟨hy, hscopes, hframe⟩, hn, hscopes', hframe'⟩
    rw [hscopes] at hn hscopes'
    exact ⟨.ifElse l hc hy hn, hscopes', w.frame, hframe, hframe'⟩
  · rintro ⟨hs, hscopes, f, hframe, hframe'⟩
    cases hs with
    | ifElse _ hc hy hn =>
      exact ⟨st, ⟨hc, rfl⟩, ⟨st.scopes, f⟩, ⟨hy, rfl, hframe⟩, hn, hscopes, hframe'⟩

theorem checkExact_loop (l : Line) (cond : Expr) {body : Stmt} (h : CheckExact arity callable body) :
    CheckExact arity callable (loop l cond body) := by
  intro st st' hss
  simp only [Stmt.check, step_seq_eq_ok, BodyCheck.look_eq_ok, except_seq_eq_ok,
    Expr.expectType_eq_ok, ← Expr.hasType_iff hcall, inScope_eq_ok_of h, Accepts, Stmt.declared,
    scopesAfter]
  constructor
  · rintro ⟨u, ⟨hc, rfl⟩, hb, hrest⟩
    exact ⟨.loop l hc hb, hrest⟩
  · rintro ⟨hs, hrest⟩
    cases hs with
    | loop _ hc hb => exact ⟨st, ⟨hc, rfl⟩, hb, hrest⟩

theorem checkExact (s : Stmt) : CheckExact arity callable s := by
  induction s with
  | declare l x shape => exact checkExact_declare l x shape
  | assign l target value => exact checkExact_assign hcall l target value
  | block l body ih => exact checkExact_block l ih
  | ifThen l cond yes ih => exact checkExact_ifThen hcall l cond ih
  | ifElse l cond yes no ihy ihn => exact checkExact_ifElse hcall l cond ihy ihn
  | loop l cond body ih => exact checkExact_loop hcall l cond ih
  | input l target => exact checkExact_input hcall l target
  | call l f args => exact checkExact_call hcall l f args
  | output l value =>
    intro st st' _
    rw [accepts_of_same rfl rfl]
    simp only [Stmt.check, BodyCheck.look_eq_ok, except_seq_eq_ok, Expr.expectType_eq_ok,
      ← Expr.hasType_iff hcall]
    refine and_congr_left fun _ => ⟨.output l, fun h => ?_⟩
    cases h with
    | output _ hv => exact hv
  | ret l value =>
    intro st st' _
    rw [accepts_of_same rfl rfl]
    simp only [Stmt.check, BodyCheck.look_eq_ok, except_seq_eq_ok, Expr.expectType_eq_ok,
      ← Expr.hasType_iff hcall]
    refine and_congr_left fun _ => ⟨.ret l, fun h => ?_⟩
    cases h with
    | ret _ hv => exact hv

end

end Stmt

end ProcMips
