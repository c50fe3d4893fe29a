import ProcMips.Analysis.Program
import ProcMips.Proofs.Analysis.Bodies

/-! What the check of a procedure accepts, and the frame that it computes: the parameters first, then
the declarations of the body in the order of the text, whatever blocks they stand in. -/

namespace ProcMips

namespace Param

/-- The open scopes behind a parameter. -/
def scopesAfter (ss : ScopeStack) (p : Param) : ScopeStack := ss.declare p.name .single

/-- No parameter has a name that is visible where it stands. -/
def AllFresh (v : Visible) (ps : List Param) : Prop :=
  ∀ before q rest, ps = before ++ q :: rest → before.foldl Param.after v q.name = .untyped

theorem allFresh_cons {v : Visible} {p : Param} {ps : List Param} :
    AllFresh v (p :: ps) ↔ v p.name = .untyped ∧ AllFresh (p.after v) ps :=
  forall_split_cons (P := fun (before : List Param) (q : Param) _ =>
    before.foldl Param.after v q.name = .untyped)

theorem AllFresh.nodup {v : Visible} {ps : List Param} (h : AllFresh v ps) :
    (ps.map Param.name).Nodup := by
  suffices hall : (ps.map Param.name).Nodup ∧ ∀ p ∈ ps, v p.name = .untyped from hall.1
  induction ps generalizing v with
  | nil => simp
  | cons p ps ih =>
    rw [allFresh_cons] at h
    obtain ⟨hnodup, hfresh⟩ := ih h.2
    -- a later parameter is not visible behind `p`, so it has another name and is not visible before
    have hother (q : Param) (hq : q ∈ ps) : q.name ≠ p.name ∧ v q.name = .untyped := by
      have h := hfresh q hq
      rw [Param.after, Visible.declaring, Function.update_apply] at h
      split_ifs at h with hne
      exact ⟨hne, h⟩
    refine ⟨List.nodup_cons.2 ⟨?_, hnodup⟩, List.forall_mem_cons.2 ⟨h.1, fun q hq => (hother q hq).2⟩⟩
    rw [List.mem_map]
    rintro ⟨q, hq, he⟩
    exact (hother q hq).1 he

theorem find_foldl_scopesAfter {sc : Scope} {ss : ScopeStack} {ps : List Param}
    (h : AllFresh (ScopeStack.find (sc :: ss)) ps) :
    (∃ sc', ps.foldl scopesAfter (sc :: ss) = sc' :: ss) ∧
      (ps.foldl scopesAfter (sc :: ss)).find =
        ps.foldl Param.after (ScopeStack.find (sc :: ss)) := by
  induction ps generalizing sc with
  | nil => exact ⟨⟨sc, rfl⟩, rfl⟩
  | cons p ps ih =>
    rw [allFresh_cons] at h
    have hfind := ScopeStack.find_declare (sc :: ss) (by simp) (k := .single) (by simp) h.1
    rw [Param.after, ← hfind] at h
    rw [List.foldl_cons, List.foldl_cons, Param.after, ← hfind]
    exact ih (h.2 : AllFresh (ScopeStack.find (sc.bind p.name .single :: ss)) ps)

theorem checkAll_eq_ok_iff {sc : Scope} {ss : ScopeStack} {f : Frame} {ps : List Param}
    {st : BodyState} :
    Param.checkAll ps ⟨sc :: ss, f⟩ = .ok () st ↔
      AllFresh (ScopeStack.find (sc :: ss)) ps ∧ st.scopes = ps.foldl scopesAfter (sc :: ss) ∧
        f.insertArgs (ps.map Param.name) = .ok st.frame := by
  induction ps generalizing sc f with
  | nil =>
    simp only [Param.checkAll, step_pure_eq_ok, true_and, List.foldl_nil, List.map_nil,
      Frame.insertArgs_nil, Except.ok.injEq]
    constructor
    · rintro rfl
      exact ⟨forall_split_nil, rfl, rfl⟩
    · rintro ⟨-, hs, hf⟩
      cases st
      simp_all
  | cons p ps ih =>
    simp only [Param.checkAll, Param.check, step_seq_eq_ok, BodyCheck.declare_eq_ok,
      BodyCheck.layOut_eq_ok, allFresh_cons, List.foldl_cons, List.map_cons,
      Frame.insertArgs_cons, except_bind_eq_ok]
    have hdeclare : ScopeStack.declare (sc :: ss) p.name .single = sc.bind p.name .single :: ss := rfl
    constructor
    · rintro ⟨_, ⟨_, ⟨hx, rfl⟩, g, hg, rfl⟩, hrest⟩
      have hfind := ScopeStack.find_declare (sc :: ss) (by simp) (k := .single) (by simp) hx
      dsimp only at hrest
      rw [hdeclare] at hrest hfind
      rw [ih, hfind] at hrest
      exact ⟨⟨hx, hrest.1⟩, hrest.2.1, g, hg, hrest.2.2⟩
    · rintro ⟨⟨hx, hfresh⟩, hscopes, g, hg, hrest⟩
      have hfind := ScopeStack.find_declare (sc :: ss) (by simp) (k := .single) (by simp) hx
      refine ⟨_, ⟨_, ⟨hx, rfl⟩, g, hg, rfl⟩, ?_⟩
      dsimp only
      rw [hdeclare] at hfind ⊢
      rw [ih, hfind]
      exact ⟨hfresh, hscopes, hrest⟩

end Param

namespace Procedure

/-- The frame of a procedure before it is finished. -/
def unfinishedFrame (p : Procedure) : Except Frame.Refusal Frame := do
  let f ← Frame.empty.insertArgs (p.params.map Param.name)
  f.insertAll p.body.declared

/-- The frame that analysis computes for a procedure. -/
def HasFrame (p : Procedure) (f : Frame) : Prop :=
  ∃ g, p.unfinishedFrame = .ok g ∧ g.finish = .ok f

variable {arity : Arities} {callable : List Procedure}

theorem layout_eq_ok_iff (hcall : arity.Agree callable) {p : Procedure} {outer : Scope} {f : Frame} :
    p.layout outer arity = .ok f ↔
      p.WellFormed (ScopeStack.find [outer]) callable ∧ p.HasFrame f := by
  have hbody (st : BodyState) :
      (do Param.checkAll p.params; p.body.check arity : BodyCheck Unit) ⟨[[], outer], .empty⟩ =
        .ok () st ↔ p.WellFormed (ScopeStack.find [outer]) callable ∧
          (∃ sc, st.scopes = p.body.scopesAfter sc ∧
            sc = p.params.foldl Param.scopesAfter [[], outer]) ∧
          p.unfinishedFrame = .ok st.frame := by
    simp only [step_seq_eq_ok, Param.checkAll_eq_ok_iff, unfinishedFrame, except_bind_eq_ok,
      ScopeStack.find_nil_cons]
    constructor
    · rintro ⟨⟨scopes, g⟩, ⟨hfresh, hscopes, hargs⟩, hcheck⟩
      dsimp only at hscopes hargs
      rw [← ScopeStack.find_nil_cons] at hfresh
      have hfind := Param.find_foldl_scopesAfter hfresh
      rw [← hscopes] at hfind
      have hne : scopes ≠ [] := by
        obtain ⟨⟨sc', h⟩, -⟩ := hfind
        simp [h]
      obtain ⟨hwf, hafter, hlocals⟩ := (Stmt.checkExact hcall _ _ _ hne).1 hcheck
      rw [ScopeStack.find_nil_cons] at hfresh hfind
      rw [hfind.2] at hwf
      exact ⟨⟨hfresh, hwf⟩, ⟨scopes, hafter, hscopes⟩, g, hargs, hlocals⟩
    · rintro ⟨⟨hfresh, hwf⟩, ⟨sc, hafter, hscopes⟩, g, hargs, hlocals⟩
      rw [← ScopeStack.find_nil_cons] at hfresh
      have hfind := Param.find_foldl_scopesAfter hfresh
      rw [ScopeStack.find_nil_cons] at hfresh hfind
      rw [← hscopes] at hfind
      refine ⟨⟨sc, g⟩, ⟨hfresh, hscopes, hargs⟩, ?_⟩
      have hne : sc ≠ [] := by
        obtain ⟨⟨sc', h⟩, -⟩ := hfind
        simp [h]
      refine (Stmt.checkExact hcall _ _ _ hne).2 ⟨?_, hafter, hlocals⟩
      dsimp only
      rwa [hfind.2]
  unfold layout HasFrame
  dsimp only
  cases hrun : (do Param.checkAll p.params; p.body.check arity : BodyCheck Unit)
      ⟨[[], outer], .empty⟩ with
  | error e s =>
    simp only [reduceCtorEq, false_iff, not_and, not_exists]
    intro hwf g hg _
    have := (hbody ⟨_, g⟩).2 ⟨hwf, ⟨_, rfl, rfl⟩, hg⟩
    simp [hrun] at this
  | ok u s =>
    obtain ⟨hwf, -, hframe⟩ := (hbody s).1 hrun
    simp only [hwf, hframe, true_and, Except.ok.injEq, exists_eq_left']
    cases s.frame.finish <;> simp

theorem unfinishedFrame_eq_ok_iff {p : Procedure} (hpos : ∀ r ∈ p.body.declared, 0 < r.2)
    {g : Frame} :
    p.unfinishedFrame = .ok g ↔ (p.requests.bytes : Int) ≤ maxFrameSize ∧
      g = Frame.ofLayout (Layout.requestAll p.requests []) (p.params.map Param.name) := by
  have hnames : (p.params.map Param.name).map (·, 1) = p.params.map fun q => (q.name, 1) := by
    rw [List.map_map]
    rfl
  rw [unfinishedFrame, except_bind_eq_ok, ← Layout.bytes_requestAll, requests,
    Layout.requestAll_append]
  simp only [← Frame.ofLayout_nil, Frame.insertArgs_ofLayout Layout.Valid.nil, List.nil_append,
    hnames]
  have hmono := Layout.bytes_le_bytes_requestAll p.body.declared
    (Layout.requestAll (p.params.map fun q => (q.name, 1)) [])
  have hvalid (h : (Layout.requestAll (p.params.map fun q => (q.name, 1)) []).bytes ≤ maxFrameSize) :
      Layout.Valid (Layout.requestAll (p.params.map fun q => (q.name, 1)) []) :=
    Layout.Valid.nil.requestAll (by simp) h
  constructor
  · rintro ⟨f, ⟨hsmall, rfl⟩, hlocals⟩
    exact (Frame.insertAll_ofLayout (hvalid hsmall) hpos).1 hlocals
  · rintro ⟨hsmall, rfl⟩
    have hsmall' := hmono.trans hsmall
    exact ⟨_, ⟨hsmall', rfl⟩, (Frame.insertAll_ofLayout (hvalid hsmall') hpos).2 ⟨hsmall, rfl⟩⟩

end Procedure

end ProcMips
