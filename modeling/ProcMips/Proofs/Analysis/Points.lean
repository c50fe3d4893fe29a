import ProcMips.Proofs.Analysis.Occurrences

/-! The places in a body, with the blocks that are open there and what they declare. Analysis comes to
every place, and finds the same declarations in its scopes there. No name is declared twice among the
blocks that are open, so it does not matter which of them is searched first. -/

namespace ProcMips

/-- The declarations of a block so far. -/
abbrev Block := List (String × Shape)

/-- What a name refers to, and whether it is declared outside all procedures. -/
structure Declaration where
  global : Bool
  shape : Shape
deriving Repr, DecidableEq

/-- The scope that holds the declarations of a block. -/
def Block.scope (b : Block) : Scope := b.foldl (fun s d => s.bind d.1 d.2.kind) []

namespace Blocks

/-- The scopes of open blocks, innermost first. -/
def scopes (bs : List Block) : ScopeStack := bs.map Block.scope

def names (bs : List Block) : List String := bs.flatten.map Prod.fst

/-- Adds a declaration to the innermost block. -/
def declare (x : String) (shape : Shape) : List Block → List Block
  | [] => []
  | b :: bs => (b ++ [(x, shape)]) :: bs

/-- The innermost declaration of a name. The outermost block holds the globals. -/
def declaration? (x : String) : List Block → Option Declaration
  | [] => none
  | b :: bs =>
    match b.lookup x with
    | some shape => some ⟨bs.isEmpty, shape⟩
    | none => declaration? x bs

end Blocks

namespace Stmt

/-- The open blocks behind a statement. -/
def blocksAfter (bs : List Block) : Stmt → List Block
  | declare _ x shape => Blocks.declare x shape bs
  | _ => bs

/-- A statement `t` stands in `s`. The blocks in the first place are open in front of `s`, those in the
second in front of `t`. -/
inductive Contains : List Block → Stmt → List Block → Stmt → Prop
  | here (bs : List Block) (s : Stmt) : Contains bs s bs s
  | block {bs cs : List Block} {l : Line} {before rest : List Stmt} {s t : Stmt}
    (h : Contains (before.foldl blocksAfter ([] :: bs)) s cs t) :
    Contains bs (.block l (before ++ s :: rest)) cs t
  | ifThen {bs cs : List Block} {l : Line} {cond : Expr} {yes t : Stmt}
    (h : Contains ([] :: bs) yes cs t) : Contains bs (.ifThen l cond yes) cs t
  | ifElseYes {bs cs : List Block} {l : Line} {cond : Expr} {yes no t : Stmt}
    (h : Contains ([] :: bs) yes cs t) : Contains bs (.ifElse l cond yes no) cs t
  | ifElseNo {bs cs : List Block} {l : Line} {cond : Expr} {yes no t : Stmt}
    (h : Contains ([] :: bs) no cs t) : Contains bs (.ifElse l cond yes no) cs t
  | loop {bs cs : List Block} {l : Line} {cond : Expr} {body t : Stmt}
    (h : Contains ([] :: bs) body cs t) : Contains bs (.loop l cond body) cs t

/-- The check of a statement from the first state checks the other one from the second state. -/
inductive Visits (arity : Arities) : BodyState → Stmt → BodyState → Stmt → Prop
  | here (st : BodyState) (s : Stmt) : Visits arity st s st s
  | block {st st' u : BodyState} {l : Line} {before rest : List Stmt} {s t : Stmt}
    (hb : Stmt.checkAll arity before ⟨[] :: st.scopes, st.frame⟩ = .ok () st')
    (h : Visits arity st' s u t) : Visits arity st (.block l (before ++ s :: rest)) u t
  | ifThen {st u : BodyState} {l : Line} {cond : Expr} {yes t : Stmt}
    (h : Visits arity ⟨[] :: st.scopes, st.frame⟩ yes u t) :
    Visits arity st (.ifThen l cond yes) u t
  | ifElseYes {st u : BodyState} {l : Line} {cond : Expr} {yes no t : Stmt}
    (h : Visits arity ⟨[] :: st.scopes, st.frame⟩ yes u t) :
    Visits arity st (.ifElse l cond yes no) u t
  | ifElseNo {st st' u : BodyState} {l : Line} {cond : Expr} {yes no t : Stmt}
    (hy : BodyCheck.inScope (yes.check arity) st = .ok () st')
    (h : Visits arity ⟨[] :: st'.scopes, st'.frame⟩ no u t) :
    Visits arity st (.ifElse l cond yes no) u t
  | loop {st u : BodyState} {l : Line} {cond : Expr} {body t : Stmt}
    (h : Visits arity ⟨[] :: st.scopes, st.frame⟩ body u t) :
    Visits arity st (.loop l cond body) u t

/-- The variables that a statement uses itself, apart from those in the statements inside it. -/
def uses : Stmt → List String
  | declare .. | block .. => []
  | assign _ target value => target.variables ++ value.variables
  | ifThen _ cond _ | ifElse _ cond _ _ | loop _ cond _ => cond.variables
  | output _ value | ret _ value => value.variables
  | input _ target => target.variables
  | call _ _ args => Expr.variablesAll args

end Stmt

/-- The block of the globals. -/
def Program.globalBlock (p : Program) : Block := p.globals.map fun g => (g.name, g.shape)

/-- The blocks that are open in front of the body of a procedure: its parameters among the globals. -/
def Procedure.blocks (q : Procedure) (p : Program) : List Block :=
  [q.params.map fun x => (x.name, .single), p.globalBlock]

/-- Analysis comes to the body of `q` in the state `st`. -/
def Program.ComesTo (p : Program) (q : Procedure) (arity : Arities) (st : BodyState) : Prop :=
  ∃ before rest a, p.procedures = before ++ q :: rest ∧
    (do p.globals.forM Global.check; before.forM Procedure.check : Analysis Unit) .start = .ok () a ∧
    arity = a.arities q ∧ Param.checkAll q.params ⟨[[], a.scope], .empty⟩ = .ok () st

theorem Block.scope_concat (b : Block) (x : String) (shape : Shape) :
    scope (b ++ [(x, shape)]) = b.scope.bind x shape.kind := by
  rw [scope, List.foldl_append]
  rfl

theorem Block.kind_scope_eq_untyped_iff {b : Block} {x : String} :
    b.scope.kind x = .untyped ↔ x ∉ b.map Prod.fst := by
  induction b using List.reverseRecOn with
  | nil => simp [scope, Scope.kind]
  | append_singleton b d ih =>
    obtain ⟨y, shape⟩ := d
    rw [scope_concat, Scope.kind_bind]
    split_ifs with hx
    · simp [hx, shape.kind_ne_untyped]
    · rw [ih]
      simp [hx]

namespace Blocks

@[simp] theorem scopes_cons (b : Block) (bs : List Block) : scopes (b :: bs) = b.scope :: scopes bs :=
  rfl

@[simp] theorem names_cons (b : Block) (bs : List Block) :
    names (b :: bs) = b.map Prod.fst ++ names bs := by
  simp [names]

theorem scopes_ne_nil {bs : List Block} (h : bs ≠ []) : scopes bs ≠ [] := by
  simpa [scopes] using h

theorem find_scopes_eq_untyped_iff {bs : List Block} {x : String} :
    (scopes bs).find x = .untyped ↔ x ∉ names bs := by
  induction bs with
  | nil => simp [scopes, ScopeStack.find, names]
  | cons b bs ih =>
    rw [scopes_cons, ScopeStack.find_cons_eq_untyped, names_cons, List.mem_append, not_or,
      Block.kind_scope_eq_untyped_iff, ih]

theorem isSome_declaration?_iff {bs : List Block} {x : String} :
    (declaration? x bs).isSome = true ↔ x ∈ names bs := by
  induction bs with
  | nil => simp [declaration?, names]
  | cons b bs ih =>
    rw [declaration?, names_cons, List.mem_append, ← ih]
    cases hb : b.lookup x with
    | none => simp [lookup_eq_none_iff_not_mem.1 hb]
    | some shape =>
      have hmem : x ∈ b.map Prod.fst := by
        by_contra hx
        rw [lookup_eq_none_iff_not_mem.2 hx] at hb
        cases hb
      simp [hmem]

theorem mem_of_lookup {b : Block} {x : String} {shape : Shape} (h : b.lookup x = some shape) :
    (x, shape) ∈ b := by
  obtain ⟨before, rest, rfl, -⟩ := List.lookup_eq_some_iff.1 h
  simp

/-- A declaration among local blocks and the block of the globals. -/
theorem mem_of_declaration? {locals : List Block} {globals : Block} {x : String} {d : Declaration}
    (h : declaration? x (locals ++ [globals]) = some d) :
    (d.global = true ∧ (x, d.shape) ∈ globals) ∨
      (d.global = false ∧ (x, d.shape) ∈ locals.flatten) := by
  induction locals with
  | nil =>
    rw [List.nil_append, declaration?] at h
    cases hb : globals.lookup x with
    | none =>
      rw [hb] at h
      cases h
    | some shape =>
      rw [hb] at h
      cases h
      exact .inl ⟨rfl, mem_of_lookup hb⟩
  | cons b locals ih =>
    rw [List.cons_append, declaration?] at h
    cases hb : b.lookup x with
    | none =>
      rw [hb] at h
      refine (ih h).imp id ?_
      intro ⟨hd, hmem⟩
      exact ⟨hd, by simp [hmem]⟩
    | some shape =>
      rw [hb] at h
      cases h
      exact .inr ⟨by simp, by simp [mem_of_lookup hb]⟩

theorem names_declare {bs : List Block} (hbs : bs ≠ []) (x : String) (shape : Shape) :
    (names (declare x shape bs)).Perm (x :: names bs) := by
  obtain ⟨b, bs, rfl⟩ := List.exists_cons_of_ne_nil hbs
  simp only [declare, names_cons, List.map_append, List.map_cons, List.map_nil, List.append_assoc,
    List.cons_append, List.nil_append]
  exact List.perm_middle

/-- The blocks in the body of a procedure: local ones, which declare what is requested in `rs`, among
the globals. No name is declared twice. -/
structure Among (rs : Requests) (globals : Block) (bs : List Block) : Prop where
  split : ∃ b locals, bs = b :: locals ++ [globals] ∧
    ∀ d ∈ (b :: locals).flatten, (d.1, d.2.words) ∈ rs
  distinct : (names bs).Nodup

namespace Among

variable {rs : Requests} {globals : Block} {bs : List Block}

theorem ne_nil (h : Among rs globals bs) : bs ≠ [] := by
  obtain ⟨b, locals, rfl, -⟩ := h.split
  simp

theorem opened (h : Among rs globals bs) : Among rs globals ([] :: bs) := by
  obtain ⟨b, locals, rfl, hrs⟩ := h.split
  exact ⟨⟨[], b :: locals, rfl, by simpa using hrs⟩, h.distinct⟩

theorem declare (h : Among rs globals bs) {x : String} {shape : Shape} (hx : x ∉ names bs)
    (hrs : (x, shape.words) ∈ rs) : Among rs globals (Blocks.declare x shape bs) where
  split := by
    obtain ⟨b, locals, rfl, hall⟩ := h.split
    refine ⟨b ++ [(x, shape)], locals, rfl, ?_⟩
    simp only [List.flatten_cons, List.append_assoc, List.forall_mem_append] at hall ⊢
    exact ⟨hall.1, by simpa using hrs, hall.2⟩
  distinct := (names_declare h.ne_nil x shape).nodup_iff.2 (List.nodup_cons.2 ⟨hx, h.distinct⟩)

end Among

end Blocks

namespace Stmt

open Blocks

theorem scopes_blocksAfter (bs : List Block) (s : Stmt) :
    scopes (s.blocksAfter bs) = s.scopesAfter (scopes bs) := by
  cases s with
  | declare _ x shape =>
    cases bs with
    | nil => rfl
    | cons b bs =>
      rw [blocksAfter, Blocks.declare, scopes_cons, Block.scope_concat]
      rfl
  | _ => rfl

theorem scopes_foldl_blocksAfter (bs : List Block) (body : List Stmt) :
    scopes (body.foldl blocksAfter bs) = body.foldl scopesAfter (scopes bs) := by
  induction body generalizing bs with
  | nil => rfl
  | cons s body ih => rw [List.foldl_cons, List.foldl_cons, ih, scopes_blocksAfter]

section

variable {rs : Requests} {globals : Block} {callable : List Procedure}

/-- Behind a well-formed statement. -/
theorem among_blocksAfter {bs : List Block} (h : Among rs globals bs) {s : Stmt}
    (hs : s.WellFormed callable (scopes bs).find) (hrs : ∀ r ∈ s.declared, r ∈ rs) :
    Among rs globals (s.blocksAfter bs) := by
  cases hs with
  | declare _ shape hx => exact h.declare (find_scopes_eq_untyped_iff.1 hx) (hrs _ (by simp [declared]))
  | _ => exact h

theorem among_foldl_blocksAfter {bs : List Block} {body rest : List Stmt}
    (h : Among rs globals bs) (hbody : AllWellFormed callable (scopes bs).find (body ++ rest))
    (hrs : ∀ s ∈ body, ∀ r ∈ s.declared, r ∈ rs) :
    Among rs globals (body.foldl blocksAfter bs) ∧
      AllWellFormed callable (scopes (body.foldl blocksAfter bs)).find rest := by
  induction body generalizing bs with
  | nil => exact ⟨h, hbody⟩
  | cons s body ih =>
    rw [List.cons_append, allWellFormed_cons] at hbody
    rw [List.forall_mem_cons] at hrs
    have hnext := among_blocksAfter h hbody.1 hrs.1
    rw [← find_scopesAfter (scopes_ne_nil h.ne_nil) hbody.1, ← scopes_blocksAfter] at hbody
    exact ih hnext hbody.2 hrs.2

/-- What holds in front of a statement, for every statement inside it. -/
theorem Contains.among {bs cs : List Block} {s t : Stmt} (h : Contains bs s cs t)
    (hbs : Among rs globals bs) (hs : s.WellFormed callable (scopes bs).find)
    (hrs : ∀ r ∈ s.declared, r ∈ rs) :
    Among rs globals cs ∧ t.WellFormed callable (scopes cs).find ∧ ∀ r ∈ t.declared, r ∈ rs := by
  have hopen (bs : List Block) : (scopes ([] :: bs)).find = (scopes bs).find :=
    ScopeStack.find_nil_cons _
  induction h with
  | here => exact ⟨hbs, hs, hrs⟩
  | @block bs _ _ before rest s _ _ ih =>
    rw [wellFormed_block_iff, ← hopen] at hs
    have hdeclared (t : Stmt) (ht : t ∈ before ++ s :: rest) : ∀ r ∈ t.declared, r ∈ rs :=
      fun r hr => hrs r (mem_declaredAll.2 ⟨t, ht, hr⟩)
    obtain ⟨hbefore, hrest⟩ :=
      among_foldl_blocksAfter hbs.opened hs fun t ht => hdeclared t (by simp [ht])
    exact ih hbefore (allWellFormed_cons.1 hrest).1 (hdeclared s (by simp))
  | ifThen _ ih =>
    cases hs with
    | ifThen _ _ hy => exact ih hbs.opened (hopen _ ▸ hy) hrs
  | ifElseYes _ ih =>
    cases hs with
    | ifElse _ _ hy _ => exact ih hbs.opened (hopen _ ▸ hy) fun r hr => hrs r (by simp [declared, hr])
  | ifElseNo _ ih =>
    cases hs with
    | ifElse _ _ _ hn => exact ih hbs.opened (hopen _ ▸ hn) fun r hr => hrs r (by simp [declared, hr])
  | loop _ ih =>
    cases hs with
    | loop _ _ hb => exact ih hbs.opened (hopen _ ▸ hb) hrs

end

theorem uses_visible {callable : List Procedure} {v : Visible} {s : Stmt}
    (h : s.WellFormed callable v) : ∀ x ∈ s.uses, v x ≠ .untyped := by
  cases h with
  | declare | block => simp [uses]
  | assign _ ht hv =>
    intro x hx
    exact (List.mem_append.1 hx).elim (ht.visible x) (hv.visible x)
  | ifThen _ hc _ => exact hc.visible
  | ifElse _ hc _ _ => exact hc.visible
  | loop _ hc _ => exact hc.visible
  | output _ hv => exact hv.visible
  | input _ ht => exact ht.visible
  | ret _ hv => exact hv.visible
  | call _ _ _ ha =>
    intro x hx
    obtain ⟨a, hmem, hx⟩ := Expr.mem_variablesAll.1 hx
    exact (ha a hmem).visible x hx

section

variable {arity : Arities}

theorem checkAll_append_eq_ok {before rest : List Stmt} {st st' : BodyState} :
    Stmt.checkAll arity (before ++ rest) st = .ok () st' ↔
      ∃ u, Stmt.checkAll arity before st = .ok () u ∧ Stmt.checkAll arity rest u = .ok () st' := by
  induction before generalizing st with
  | nil => simp [Stmt.checkAll, step_pure_eq_ok]
  | cons s before ih =>
    simp only [List.cons_append, Stmt.checkAll, step_seq_eq_ok, ih]
    constructor
    · intro h
      obtain ⟨u, hs, w, hbefore, hrest⟩ := h
      exact ⟨w, ⟨u, hs, hbefore⟩, hrest⟩
    · intro h
      obtain ⟨w, ⟨u, hs, hbefore⟩, hrest⟩ := h
      exact ⟨u, hs, w, hbefore, hrest⟩

/-- A check that succeeds comes to every statement inside, with the declarations that are open there
in its scopes. -/
theorem Contains.visits {callable : List Procedure} (hcall : arity.Agree callable)
    {bs cs : List Block} {s t : Stmt} (h : Contains bs s cs t) {st st' : BodyState}
    (hst : st.scopes = scopes bs) (hcheck : s.check arity st = .ok () st') :
    ∃ u u', Visits arity st s u t ∧ u.scopes = scopes cs ∧ t.check arity u = .ok () u' := by
  have hopened {bs : List Block} {st : BodyState} (hst : st.scopes = scopes bs) :
      (⟨[] :: st.scopes, st.frame⟩ : BodyState).scopes = scopes ([] :: bs) := by
    rw [scopes_cons, ← hst]
    rfl
  induction h generalizing st st' with
  | here => exact ⟨st, st', .here st _, hst, hcheck⟩
  | @block bs _ _ before rest s _ _ ih =>
    rw [Stmt.check, BodyCheck.inScope_eq_ok] at hcheck
    obtain ⟨_, hbody, -⟩ := hcheck
    rw [checkAll_append_eq_ok] at hbody
    obtain ⟨w, hbefore, hrest⟩ := hbody
    simp only [Stmt.checkAll, step_seq_eq_ok] at hrest
    obtain ⟨_, hs, -⟩ := hrest
    have hscopes := ((checkAll_eq_ok_of fun s _ => checkExact hcall s) _ _ (by simp)).1 hbefore
    have hw : w.scopes = scopes (before.foldl blocksAfter ([] :: bs)) := by
      rw [scopes_foldl_blocksAfter, ← hopened hst]
      exact hscopes.2.1
    obtain ⟨u, u', hvisit, hu⟩ := ih hw hs
    exact ⟨u, u', .block hbefore hvisit, hu⟩
  | ifThen _ ih =>
    simp only [Stmt.check, step_seq_eq_ok, BodyCheck.look_eq_ok, BodyCheck.inScope_eq_ok] at hcheck
    obtain ⟨_, ⟨-, rfl⟩, _, hy, -⟩ := hcheck
    obtain ⟨u, u', hvisit, hu⟩ := ih (hopened hst) hy
    exact ⟨u, u', .ifThen hvisit, hu⟩
  | ifElseYes _ ih =>
    simp only [Stmt.check, step_seq_eq_ok, BodyCheck.look_eq_ok, BodyCheck.inScope_eq_ok] at hcheck
    obtain ⟨_, ⟨-, rfl⟩, _, ⟨_, hy, -⟩, -⟩ := hcheck
    obtain ⟨u, u', hvisit, hu⟩ := ih (hopened hst) hy
    exact ⟨u, u', .ifElseYes hvisit, hu⟩
  | ifElseNo _ ih =>
    simp only [Stmt.check, step_seq_eq_ok, BodyCheck.look_eq_ok] at hcheck
    obtain ⟨_, ⟨-, rfl⟩, w, hyes, hno⟩ := hcheck
    have hw := ((inScope_eq_ok_of (checkExact hcall _) _ _).1 hyes).2.1
    rw [BodyCheck.inScope_eq_ok] at hno
    obtain ⟨_, hno, -⟩ := hno
    obtain ⟨u, u', hvisit, hu⟩ := ih (hopened (hw.trans hst)) hno
    exact ⟨u, u', .ifElseNo hyes hvisit, hu⟩
  | loop _ ih =>
    simp only [Stmt.check, step_seq_eq_ok, BodyCheck.look_eq_ok, BodyCheck.inScope_eq_ok] at hcheck
    obtain ⟨_, ⟨-, rfl⟩, _, hbody, -⟩ := hcheck
    obtain ⟨u, u', hvisit, hu⟩ := ih (hopened hst) hbody
    exact ⟨u, u', .loop hvisit, hu⟩

end

end Stmt

namespace Procedure

theorem check_scope {q : Procedure} {s s' : AnalysisState} (h : q.check s = .ok () s') :
    s'.scope = s.scope := by
  rw [check] at h
  dsimp only at h
  split at h
  · cases h
  · split at h
    · cases h
    · split at h
      · cases h
      · cases h
        rfl

theorem forM_check_scope {ps : List Procedure} {s s' : AnalysisState}
    (h : ps.forM check s = .ok () s') : s'.scope = s.scope := by
  induction ps generalizing s with
  | nil =>
    simp only [List.forM_eq_forM, List.forM_nil, step_pure_eq_ok] at h
    rw [h.2]
  | cons p ps ih =>
    simp only [List.forM_eq_forM, List.forM_cons, step_seq_eq_ok] at h ih
    obtain ⟨u, hp, hps⟩ := h
    rw [ih hps, check_scope hp]

theorem describe_frameTable {ps : List Procedure} {fs : List Frame}
    (h : List.Forall₂ HasFrame ps fs) : Describe (frameTable ps fs) ps := by
  induction h with
  | nil => exact .nil
  | cons hf _ ih => exact .cons ⟨rfl, hf.frameOf.argCount⟩ ih

/-- The check of a procedure that succeeds has come to its body, and through it. -/
theorem body_of_check {q : Procedure} {a a' : AnalysisState} (h : q.check a = .ok () a') :
    ∃ st st', Param.checkAll q.params ⟨[[], a.scope], .empty⟩ = .ok () st ∧
      q.body.check (a.arities q) st = .ok () st' := by
  have hlayout : ∃ f, q.layout a.scope (a.arities q) = .ok f := by
    rw [check] at h
    dsimp only at h
    split at h
    · cases h
    · split at h
      · cases h
      next f hf => exact ⟨f, hf⟩
  obtain ⟨f, hf⟩ := hlayout
  unfold layout at hf
  extract_lets body at hf
  split at hf
  · cases hf
  next st' hbody =>
    rw [step_seq_eq_ok] at hbody
    obtain ⟨st, hparams, hbody⟩ := hbody
    exact ⟨st, st', hparams, hbody⟩

theorem foldl_scopesAfter_params (ps : List Param) (sc : Scope) (ss : ScopeStack) :
    ps.foldl Param.scopesAfter (sc :: ss) =
      (ps.map fun x => (x.name, Shape.single)).foldl (fun s d => s.bind d.1 d.2.kind) sc :: ss := by
  induction ps generalizing sc with
  | nil => rfl
  | cons p ps ih => exact ih (sc.bind p.name .single)

end Procedure

namespace Program

/-- Analysis comes to a body with the globals and the parameters in the scopes. -/
theorem ComesTo.scopes_eq {p : Program} {q : Procedure} {arity : Arities} {st : BodyState}
    (h : p.ComesTo q arity st) : st.scopes = Blocks.scopes (q.blocks p) := by
  obtain ⟨before, rest, a, -, hrun, -, hparams⟩ := h
  rw [step_seq_eq_ok] at hrun
  obtain ⟨u, hglobals, hbefore⟩ := hrun
  obtain ⟨-, hu⟩ := (Global.forM_check_eq_ok_iff p.globals (s := .start) List.nodup_nil).1 hglobals
  have hscope : a.scope = p.globalBlock.scope := by
    rw [Procedure.forM_check_scope hbefore, hu, globalBlock, Block.scope, List.foldl_map]
    rfl
  rw [(Param.checkAll_eq_ok_iff.1 hparams).2.1, Procedure.foldl_scopesAfter_params, hscope]
  rfl

/-- Analysis that succeeds has come to the body of every procedure, with its parameters and the globals
in the scopes. -/
theorem exists_comesTo_of_analyze {p : Program} {t : Tables} (h : analyze p = .ok t)
    {q : Procedure} (hq : q ∈ p.procedures) :
    ∃ arity callable st st', p.ComesTo q arity st ∧ arity.Agree callable ∧
      st.scopes = Blocks.scopes (q.blocks p) ∧ q.body.check arity st = .ok () st' := by
  obtain ⟨before, rest, hsplit⟩ := List.append_of_mem hq
  have hrun : ∃ s, p.check .start = .ok () s := by
    unfold analyze analyzeNoting at h
    cases hs : p.check .start with
    | ok u s => exact ⟨s, rfl⟩
    | error e s =>
      rw [hs] at h
      cases h
  obtain ⟨s, hrun⟩ := hrun
  simp only [check, step_seq_eq_ok] at hrun
  obtain ⟨a, hglobals, b, hprocs, -⟩ := hrun
  rw [hsplit] at hprocs
  simp only [List.forM_eq_forM, List.forM_append, List.forM_cons, step_seq_eq_ok] at hprocs
  obtain ⟨u, hbefore, v, hcheck, -⟩ := hprocs
  rw [← List.forM_eq_forM] at hbefore
  obtain ⟨-, ha⟩ := (Global.forM_check_eq_ok_iff p.globals (s := .start) List.nodup_nil).1 hglobals
  have hnone : Procedure.Describe a.tables.frames [] := by
    rw [ha]
    exact .nil
  obtain ⟨hnames, -, fs, hfs, htables⟩ :=
    (Procedure.forM_check_eq_ok_iff before hnone List.nodup_nil).1 ⟨u, hbefore, rfl⟩
  obtain ⟨st, st', hparams, hbody⟩ := Procedure.body_of_check hcheck
  have hdescribe : Procedure.Describe u.tables.frames before := by
    rw [htables, ha]
    exact Procedure.describe_frameTable hfs
  have hfresh : q.name ∉ before.map Procedure.name :=
    ((Procedure.check_eq_ok_iff hdescribe hnames).1 hcheck).1
  have hcomes : p.ComesTo q (u.arities q) st := by
    refine ⟨before, rest, u, hsplit, ?_, rfl, hparams⟩
    rw [step_seq_eq_ok]
    exact ⟨a, hglobals, hbefore⟩
  exact ⟨u.arities q, before ++ [q], st, st', hcomes,
    Procedure.agree_arities hdescribe hnames hfresh, hcomes.scopes_eq, hbody⟩

end Program

end ProcMips
