import ProcMips.Proofs.Analysis.Points
import ProcMips.Proofs.Analysis.Rejection
import ProcMips.Proofs.Syntax.Nodes

/-! What the check of a statement leaves of the open scopes, whether it accepts the statement or rejects
it. A scope that is opened for a block, an arm or the body of a loop is closed again however its check
ends, so that only one thing remains of a statement: a declaration of a name that is not visible adds it
to the innermost scope. -/

namespace ProcMips

section

variable {ε σ α β γ : Type}

/-- The state that a step leaves, whether or not it fails. -/
def stateAfter (p : EStateM ε σ α) (s : σ) : σ :=
  match p s with
  | .ok _ t => t
  | .error _ t => t

/-- However `p` ends, it leaves `v` of the state as it was. -/
def Fixes (v : σ → γ) (p : EStateM ε σ α) : Prop := ∀ s, v (stateAfter p s) = v s

theorem stateAfter_of_ok {p : EStateM ε σ α} {s t : σ} {a : α} (h : p s = .ok a t) :
    stateAfter p s = t := by
  rw [stateAfter, h]

theorem stateAfter_of_error {p : EStateM ε σ α} {s t : σ} {e : ε} (h : p s = .error e t) :
    stateAfter p s = t := by
  rw [stateAfter, h]

theorem stateAfter_bind_of_ok {p : EStateM ε σ α} {f : α → EStateM ε σ β} {s t : σ} {a : α}
    (h : p s = .ok a t) : stateAfter (p >>= f) s = stateAfter (f a) t := by
  change (match EStateM.bind p f s with | .ok _ t => t | .error _ t => t) = _
  rw [EStateM.bind, h]
  rfl

theorem stateAfter_bind_of_error {p : EStateM ε σ α} {f : α → EStateM ε σ β} {s t : σ} {e : ε}
    (h : p s = .error e t) : stateAfter (p >>= f) s = t := by
  change (match EStateM.bind p f s with | .ok _ t => t | .error _ t => t) = _
  rw [EStateM.bind, h]

variable {v : σ → γ}

theorem fixes_pure (a : α) : Fixes v (pure a : EStateM ε σ α) := fun _ => rfl

theorem Fixes.bind {p : EStateM ε σ α} {f : α → EStateM ε σ β} (h : Fixes v p)
    (hf : ∀ a, Fixes v (f a)) : Fixes v (p >>= f) := by
  intro s
  have hp := h s
  cases hrun : p s with
  | ok a t =>
    rw [stateAfter_of_ok hrun] at hp
    rw [stateAfter_bind_of_ok hrun, hf a t, hp]
  | error e t =>
    rw [stateAfter_of_error hrun] at hp
    rw [stateAfter_bind_of_error hrun, hp]

/-- Steps that keep `I` from where it holds either succeed or reject the program. -/
theorem Keeps.ends {I : σ → Prop} {p : EStateM AnalysisFailure σ Unit} (h : Keeps I p) {s : σ}
    (hs : I s) :
    p s = .ok () (stateAfter p s) ∨ ∃ e, p s = .error (.rejected e) (stateAfter p s) := by
  have hp := h s hs
  unfold stateAfter
  cases hrun : p s with
  | ok _ t => exact .inl rfl
  | error e t =>
    rw [hrun] at hp
    cases hp with
    | rejected e _ => exact .inr ⟨e, rfl⟩

end

/-- The scopes around the innermost one. -/
def BodyState.outer (st : BodyState) : ScopeStack := st.scopes.tail

theorem Fixes.outer {p : BodyCheck Unit} (h : Fixes BodyState.scopes p) : Fixes BodyState.outer p :=
  fun st => congrArg List.tail (h st)

namespace BodyCheck

theorem fixes_look (p : ScopeStack → Except AnalysisFailure Unit) :
    Fixes BodyState.scopes (look p) := by
  intro st
  unfold stateAfter look
  cases p st.scopes with
  | ok u => rfl
  | error e => rfl

/-- Closing the scope undoes what `p` has done to it. -/
theorem fixes_inScope {p : BodyCheck Unit} (h : Fixes BodyState.outer p) :
    Fixes BodyState.scopes (inScope p) := by
  intro st
  have hp := h { st with scopes := [] :: st.scopes }
  unfold stateAfter inScope
  cases hrun : p { st with scopes := [] :: st.scopes } with
  | ok u t =>
    rw [stateAfter_of_ok hrun] at hp
    exact hp
  | error e t =>
    rw [stateAfter_of_error hrun] at hp
    exact hp

theorem fixes_declare (l : Line) (x : String) (k : VarKind) :
    Fixes BodyState.outer (declare l x k) := by
  intro st
  unfold stateAfter declare
  split_ifs
  · rfl
  · obtain ⟨scopes, frame⟩ := st
    cases scopes with
    | nil => rfl
    | cons sc outer => rfl

theorem fixes_layOut (l : Line) (x : String) (p : Frame → Except Frame.Refusal Frame) :
    Fixes BodyState.scopes (layOut l x p) := by
  intro st
  unfold stateAfter layOut
  cases p st.frame with
  | ok f => rfl
  | error r =>
    cases r with
    | tooLarge => rfl
    | overflow op => rfl

end BodyCheck

open BodyCheck

namespace Stmt

variable {arity : Arities}

theorem fixes_checkAll {body : List Stmt}
    (h : ∀ s ∈ body, Fixes BodyState.outer (s.check arity)) :
    Fixes BodyState.outer (Stmt.checkAll arity body) := by
  induction body with
  | nil => exact fixes_pure ()
  | cons s body ih =>
    rw [List.forall_mem_cons] at h
    rw [Stmt.checkAll]
    exact h.1.bind fun _ => ih h.2

/-- A statement that is no declaration itself changes no scope if its parts change none but the
innermost, which is their own. -/
theorem fixes_scopes_of {s : Stmt} (hs : ∀ l x shape, s ≠ declare l x shape)
    (hparts : ∀ t ∈ s.stmts, Fixes BodyState.outer (t.check arity)) :
    Fixes BodyState.scopes (s.check arity) := by
  cases s with
  | declare l x shape => exact absurd rfl (hs l x shape)
  | block l body =>
    rw [Stmt.check]
    exact fixes_inScope (fixes_checkAll hparts)
  | ifThen l cond yes =>
    rw [Stmt.check]
    exact (fixes_look _).bind fun _ => fixes_inScope (hparts yes List.mem_cons_self)
  | ifElse l cond yes no =>
    rw [Stmt.check]
    refine (fixes_look _).bind fun _ => (fixes_inScope (hparts yes List.mem_cons_self)).bind fun _ => ?_
    exact fixes_inScope (hparts no (by simp [stmts]))
  | loop l cond body =>
    rw [Stmt.check]
    exact (fixes_look _).bind fun _ => fixes_inScope (hparts body List.mem_cons_self)
  | assign | output | input | ret | call =>
    rw [Stmt.check]
    exact fixes_look _

theorem fixes_outer (arity : Arities) (s : Stmt) : Fixes BodyState.outer (s.check arity) := by
  induction s using Stmt.induction_stmts with
  | h s ih =>
    cases s with
    | declare l x shape =>
      rw [Stmt.check]
      exact (fixes_declare _ _ _).bind fun _ => (fixes_layOut _ _ _).outer
    | _ => exact (fixes_scopes_of (by simp) ih).outer

/-- What a statement binds in the innermost of the open scopes: the name that it declares itself, if that
is not visible yet. -/
def binding? (ss : ScopeStack) : Stmt → Option (String × VarKind)
  | declare _ x shape => if ss.find x = .untyped then some (x, shape.kind) else none
  | _ => none

end Stmt

/-- Every name in the scope stands for something. -/
def Scope.Typed (sc : Scope) : Prop := ∀ b ∈ sc, b.2 ≠ .untyped

namespace Scope

theorem Typed.notMem {sc : Scope} (h : sc.Typed) {x : String} (hx : sc.kind x = .untyped) :
    x ∉ sc.map Prod.fst := by
  rw [← lookup_eq_none_iff_not_mem]
  cases hlookup : sc.lookup x with
  | none => rfl
  | some k =>
    obtain ⟨before, rest, rfl, -⟩ := List.lookup_eq_some_iff.1 hlookup
    rw [kind, hlookup] at hx
    exact absurd hx (h (x, k) (by simp))

theorem bind_of_notMem {sc : Scope} {x : String} (hx : x ∉ sc.map Prod.fst) (k : VarKind) :
    sc.bind x k = sc ++ [(x, k)] := by
  induction sc with
  | nil => rfl
  | cons b sc ih =>
    rw [List.map_cons, List.mem_cons, not_or] at hx
    rw [bind, if_neg (Ne.symm hx.1), ih hx.2]
    rfl

theorem Typed.bind {sc : Scope} (h : sc.Typed) (x : String) {k : VarKind} (hk : k ≠ .untyped) :
    (sc.bind x k).Typed := by
  induction sc with
  | nil => exact List.forall_mem_singleton.2 hk
  | cons b sc ih =>
    obtain ⟨hb, hsc⟩ := List.forall_mem_cons.1 h
    rw [Scope.bind]
    split_ifs
    · exact List.forall_mem_cons.2 ⟨hk, hsc⟩
    · exact List.forall_mem_cons.2 ⟨hb, ih hsc⟩

end Scope

/-- A declaration of a name that is not visible is a new entry of the innermost scope. -/
theorem ScopeStack.declare_eq_concat {sc : Scope} {outer : ScopeStack} (hsc : sc.Typed) {x : String}
    (hx : ScopeStack.find (sc :: outer) x = .untyped) (k : VarKind) :
    ScopeStack.declare (sc :: outer) x k = (sc ++ [(x, k)]) :: outer := by
  have hnew := hsc.notMem (find_cons_eq_untyped.1 hx).1
  rw [← Scope.bind_of_notMem hnew]
  rfl

/-- A state in which the check of a body can be: some scope is open, whatever a scope holds stands for
something, and the frame has been laid out so far. -/
structure BodyState.Sound (st : BodyState) : Prop where
  opened : st.scopes ≠ []
  typed : ∀ sc ∈ st.scopes, sc.Typed
  pictured : st.Pictured

namespace Stmt

/-- A declaration adds its binding even if the frame has no room for it. -/
theorem scopes_stateAfter_check (arity : Arities) (s : Stmt) {st : BodyState} {sc : Scope}
    {outer : ScopeStack} (hst : st.scopes = sc :: outer) (hsc : sc.Typed) :
    (stateAfter (s.check arity) st).scopes = (sc ++ (s.binding? st.scopes).toList) :: outer := by
  cases s with
  | declare l x shape =>
    rw [Stmt.check, binding?]
    by_cases hx : st.scopes.find x = .untyped
    · rw [stateAfter_bind_of_ok (declare_eq_ok.2 ⟨hx, rfl⟩), fixes_layOut, if_pos hx]
      rw [hst] at hx ⊢
      exact ScopeStack.declare_eq_concat hsc hx shape.kind
    · have hrun : BodyCheck.declare l x shape.kind st =
          .error (.rejected ⟨l, .alreadyDeclared x⟩) st := by
        rw [BodyCheck.declare, if_pos (by simpa [ScopeStack.isDeclared] using hx)]
      rw [stateAfter_bind_of_error hrun, if_neg hx, hst, Option.toList_none, List.append_nil]
  | _ =>
    rw [fixes_scopes_of (by simp) fun t _ => fixes_outer arity t, hst]
    exact congrArg (· :: outer) (List.append_nil sc).symm

variable {s : Stmt}

theorem binding?_ne_untyped {ss : ScopeStack} {x : String} {k : VarKind}
    (h : s.binding? ss = some (x, k)) : k ≠ .untyped ∧ ss.find x = .untyped := by
  cases s with
  | declare l y shape =>
    rw [binding?] at h
    split_ifs at h with hy
    cases h
    exact ⟨shape.kind_ne_untyped, hy⟩
  | _ => cases h

/-- Only the name of the binding is found otherwise. -/
theorem find_concat_binding? {sc : Scope} {outer : ScopeStack} (hsc : sc.Typed) :
    ScopeStack.find ((sc ++ (s.binding? (sc :: outer)).toList) :: outer) =
      match s.binding? (sc :: outer) with
      | none => ScopeStack.find (sc :: outer)
      | some (x, k) => Visible.declaring (ScopeStack.find (sc :: outer)) x k := by
  cases hb : s.binding? (sc :: outer) with
  | none => rw [Option.toList_none, List.append_nil]
  | some b =>
    obtain ⟨x, k⟩ := b
    obtain ⟨hk, hx⟩ := binding?_ne_untyped hb
    rw [Option.toList_some, ← ScopeStack.declare_eq_concat hsc hx]
    exact ScopeStack.find_declare _ (by simp) hk hx

theorem typed_toList_binding? {ss : ScopeStack} : Scope.Typed (s.binding? ss).toList := by
  rintro ⟨x, k⟩ hb
  rw [Option.mem_toList] at hb
  exact (binding?_ne_untyped hb).1

end Stmt

namespace BodyState.Sound

variable {arity : Arities} {st st' : BodyState}

theorem exists_cons (h : st.Sound) :
    ∃ sc outer, st.scopes = sc :: outer ∧ sc.Typed ∧ ∀ s ∈ outer, s.Typed := by
  obtain ⟨sc, outer, hst⟩ := List.exists_cons_of_ne_nil h.opened
  have htyped := h.typed
  rw [hst, List.forall_mem_cons] at htyped
  exact ⟨sc, outer, hst, htyped⟩

theorem opens (h : st.Sound) : Sound ⟨[] :: st.scopes, st.frame⟩ where
  opened := by simp
  typed := List.forall_mem_cons.2 ⟨nofun, h.typed⟩
  pictured := h.pictured

theorem of_check (h : st.Sound) {s : Stmt} (hpos : ∀ r ∈ s.declared, 0 < r.2)
    (hrun : s.check arity st = .ok () st') : st'.Sound := by
  obtain ⟨sc, outer, hst, hsc, houter⟩ := h.exists_cons
  have hscopes := s.scopes_stateAfter_check arity hst hsc
  rw [stateAfter_of_ok hrun] at hscopes
  refine ⟨by simp [hscopes], ?_, (Stmt.keeps_check hpos).of_ok h.pictured hrun⟩
  rw [hscopes, List.forall_mem_cons]
  exact ⟨List.forall_mem_append.2 ⟨hsc, Stmt.typed_toList_binding?⟩, houter⟩

theorem of_checkAll (h : st.Sound) {body : List Stmt}
    (hpos : ∀ s ∈ body, ∀ r ∈ s.declared, 0 < r.2)
    (hrun : Stmt.checkAll arity body st = .ok () st') : st'.Sound := by
  induction body generalizing st with
  | nil =>
    rw [Stmt.checkAll, step_pure_eq_ok] at hrun
    exact hrun.2 ▸ h
  | cons s body ih =>
    rw [Stmt.checkAll, step_seq_eq_ok] at hrun
    obtain ⟨u, hs, hbody⟩ := hrun
    rw [List.forall_mem_cons] at hpos
    exact ih (h.of_check hpos.1 hs) hpos.2 hbody

theorem of_inScope (h : st.Sound) {s : Stmt} (hpos : ∀ r ∈ s.declared, 0 < r.2)
    (hrun : inScope (s.check arity) st = .ok () st') : st'.Sound := by
  have hscopes := fixes_inScope (s.fixes_outer arity) st
  rw [stateAfter_of_ok hrun] at hscopes
  exact ⟨hscopes ▸ h.opened, hscopes ▸ h.typed,
    (keeps_inScope (Stmt.keeps_check hpos)).of_ok h.pictured hrun⟩

/-- What holds in front of a statement, wherever its check comes. -/
theorem visits (h : st.Sound) {s t : Stmt} {u : BodyState} (hvisit : Stmt.Visits arity st s u t)
    (hpos : ∀ r ∈ s.declared, 0 < r.2) : u.Sound := by
  induction hvisit with
  | here => exact h
  | @block _ _ _ _ before rest s _ hb _ ih =>
    have hparts : ∀ t ∈ before ++ s :: rest, ∀ r ∈ t.declared, 0 < r.2 := fun t ht r hr =>
      hpos r (Stmt.mem_declaredAll.2 ⟨t, ht, hr⟩)
    rw [List.forall_mem_append, List.forall_mem_cons] at hparts
    exact ih (h.opens.of_checkAll hparts.1 hb) hparts.2.1
  | ifThen _ ih => exact ih h.opens hpos
  | ifElseYes _ ih =>
    rw [Stmt.declared, List.forall_mem_append] at hpos
    exact ih h.opens hpos.1
  | ifElseNo hy _ ih =>
    rw [Stmt.declared, List.forall_mem_append] at hpos
    exact ih (h.of_inScope hpos.1 hy).opens hpos.2
  | loop _ ih => exact ih h.opens hpos

end BodyState.Sound

theorem Block.typed_scope (b : Block) : b.scope.Typed := by
  induction b using List.reverseRecOn with
  | nil => exact nofun
  | append_singleton b d ih =>
    rw [scope_concat]
    exact ih.bind d.1 d.2.kind_ne_untyped

namespace Program

theorem ComesTo.sound {p : Program} {q : Procedure} {arity : Arities} {st : BodyState}
    (h : p.ComesTo q arity st) : st.Sound where
  opened := by
    rw [h.scopes_eq]
    exact Blocks.scopes_ne_nil (by simp [Procedure.blocks])
  typed := by
    rw [h.scopes_eq]
    exact List.forall_mem_map.2 fun b _ => b.typed_scope
  pictured := by
    obtain ⟨before, rest, a, -, -, -, hparams⟩ := h
    exact (Param.keeps_checkAll q.params).of_ok ⟨[], [], .nil, rfl⟩ hparams

/-- Wherever analysis checks a statement, it is in a sound state. -/
theorem sound_of_visits {p : Program} (hpos : p.Positive) {q : Procedure} {arity : Arities}
    {st u : BodyState} (hq : p.ComesTo q arity st) {t : Stmt} (h : Stmt.Visits arity st q.body u t) :
    u.Sound := by
  have hmem : q ∈ p.procedures := by
    obtain ⟨before, rest, a, hsplit, -⟩ := hq
    simp [hsplit]
  exact hq.sound.visits h (hpos.bodies q hmem)

end Program

/-- The check of a statement accepts or rejects it, and either way leaves the open scopes as they were,
but for the binding that a declaration of a new name adds to the innermost one. So every other name is
found as before. -/
theorem Stmt.check_keeps_scopes {st : BodyState} (h : st.Sound) (arity : Arities) {s : Stmt}
    (hpos : ∀ r ∈ s.declared, 0 < r.2) :
    ∃ sc outer st', st.scopes = sc :: outer ∧
      (s.check arity st = .ok () st' ∨ ∃ e, s.check arity st = .error (.rejected e) st') ∧
      st'.scopes = (sc ++ (s.binding? st.scopes).toList) :: outer ∧
      (∀ x k, s.binding? st.scopes = some (x, k) → st'.scopes.find x = k) ∧
      ∀ x, (∀ k, s.binding? st.scopes ≠ some (x, k)) → st'.scopes.find x = st.scopes.find x := by
  obtain ⟨sc, outer, hst, hsc, -⟩ := h.exists_cons
  have hscopes := s.scopes_stateAfter_check arity hst hsc
  refine ⟨sc, outer, stateAfter (s.check arity) st, hst, (keeps_check hpos).ends h.pictured, hscopes, ?_⟩
  rw [hscopes, hst, find_concat_binding? hsc]
  cases hb : s.binding? (sc :: outer) with
  | none => exact ⟨nofun, fun x _ => rfl⟩
  | some b =>
    constructor
    · rintro x k ⟨⟩
      exact Function.update_self ..
    · intro x hx
      exact Function.update_of_ne (fun e => hx b.2 (by rw [e])) _ _

/-- A loop whose body declares an array that fits into no frame. -/
def overfullLoop : Stmt :=
  .loop 3 (.binary 3 .less (.scalar 3 "n") (.scalar 3 "g"))
    (.block 3 [.declare 4 "i" .single, .declare 5 "xs" (.array 536870912)])

def overfull : Program where
  globals := [⟨1, "g", .single⟩]
  procedures := [⟨2, "fill", [⟨2, "n"⟩], overfullLoop⟩]

/-- The array is bound when the frame refuses it; behind the loop neither it nor `i` is. -/
theorem overfull_keeps_scopes : ∃ arity st u v w,
    overfull.ComesTo (overfull.procedures.head (by simp [overfull])) arity st ∧
      Stmt.Visits arity st overfullLoop u (.declare 5 "xs" (.array 536870912)) ∧
      Stmt.check arity (.declare 5 "xs" (.array 536870912)) u =
        .error (.rejected ⟨5, .frameTooLarge "xs"⟩) v ∧
      v.scopes = [[("i", .single), ("xs", .array)], [], [("n", .single)], [("g", .single)]] ∧
      overfullLoop.check arity st = .error (.rejected ⟨5, .frameTooLarge "xs"⟩) w ∧
      w.scopes = [[("n", .single)], [("g", .single)]] := by
  let st : BodyState := ⟨[[("n", .single)], [("g", .single)]], ⟨[("n", ⟨0, 4⟩)], ["n"], 0, 4, false⟩⟩
  let u : BodyState := ⟨[("i", .single)] :: [] :: st.scopes,
    ⟨[("n", ⟨0, 4⟩), ("i", ⟨4, 4⟩)], ["n"], 4, 4, false⟩⟩
  obtain ⟨arity, hcomes⟩ : ∃ arity,
      overfull.ComesTo (overfull.procedures.head (by simp [overfull])) arity st :=
    ⟨_, [], [], _, rfl, rfl, rfl, rfl⟩
  have hvisit : Stmt.Visits arity st overfullLoop u (.declare 5 "xs" (.array 536870912)) :=
    .loop (@Stmt.Visits.block _ _ _ _ 3 [.declare 4 "i" .single] [] _ _ rfl (.here _ _))
  have hpos : overfull.Positive := by decide +kernel
  have hu := Program.sound_of_visits hpos hcomes hvisit
  have hst := Program.sound_of_visits hpos hcomes (.here st _)
  obtain ⟨_, _, v, ⟨⟩, hv, hvscopes, -⟩ :=
    Stmt.check_keeps_scopes hu arity (s := .declare 5 "xs" (.array 536870912)) (by decide)
  obtain ⟨_, _, w, ⟨⟩, hw, hwscopes, -⟩ :=
    Stmt.check_keeps_scopes hst arity (s := overfullLoop) (by decide)
  refine ⟨arity, st, u, v, w, hcomes, hvisit, ?_, hvscopes, ?_, hwscopes⟩
  -- both checks evaluate to a failure, so neither is accepted
  · rcases hv with hv | ⟨e, hv⟩
    · cases hv
    · cases hv
      rfl
  · rcases hw with hw | ⟨e, hw⟩
    · cases hw
    · cases hw
      rfl

end ProcMips
