import ProcMips.Proofs.Analysis.Procedures
import ProcMips.Proofs.Frame.Steps

/-! What the check of a program accepts, and the symbol tables that it computes: every global with its
words, and every procedure with the frame of its parameters and its body. -/

namespace ProcMips

namespace Scope

theorem find_singleton (s : Scope) : ScopeStack.find [s] = s.kind := by
  funext x
  rw [ScopeStack.find]
  split_ifs with h
  · exact h.symm
  · rfl

theorem kind_bind_eq (s : Scope) (x : String) (k : VarKind) :
    (s.bind x k).kind = Visible.declaring s.kind x k := by
  funext y
  rw [kind_bind, Visible.declaring, Function.update_apply]

end Scope

namespace Tables

theorem isGlobal_iff {t : Tables} {x : String} : t.isGlobal x = true ↔ x ∈ t.globals.map Prod.fst := by
  rw [isGlobal, global?, Option.isSome_iff_ne_none, ne_eq, lookup_eq_none_iff_not_mem, not_not]

theorem isSome_frame?_iff {t : Tables} {f : String} :
    (t.frame? f).isSome = true ↔ f ∈ t.frames.map Prod.fst := by
  rw [frame?, Option.isSome_iff_ne_none, ne_eq, lookup_eq_none_iff_not_mem, not_not]

end Tables

namespace Global

/-- The entry of a global variable in the symbol tables. -/
def entry (g : Global) : String × Nat := (g.name, g.shape.words)

theorem check_eq_ok_iff {g : Global} {s t : AnalysisState} :
    g.check s = .ok () t ↔ g.name ∉ s.tables.globals.map Prod.fst ∧
      t = { s with
        scope := s.scope.bind g.name g.shape.kind
        tables := s.tables.addGlobal g.name g.shape.words } := by
  rw [← Tables.isGlobal_iff, Global.check]
  split_ifs with h <;> simp [h, eq_comm]

theorem forM_check_eq_ok_iff (gs : List Global) {s t : AnalysisState}
    (hs : (s.tables.globals.map Prod.fst).Nodup) :
    gs.forM Global.check s = .ok () t ↔
      (s.tables.globals.map Prod.fst ++ gs.map Global.name).Nodup ∧
        t = { s with
          scope := gs.foldl (fun sc g => sc.bind g.name g.shape.kind) s.scope
          tables := { s.tables with globals := s.tables.globals ++ gs.map Global.entry } } := by
  induction gs generalizing s with
  | nil =>
    simp only [List.forM_eq_forM, List.forM_nil, step_pure_eq_ok, List.map_nil, List.append_nil,
      List.foldl_nil, hs, true_and]
    exact eq_comm
  | cons g gs ih =>
    simp only [List.forM_eq_forM, List.forM_cons, step_seq_eq_ok, check_eq_ok_iff, List.map_cons,
      List.foldl_cons] at ih ⊢
    have hstep (hg : g.name ∉ s.tables.globals.map Prod.fst) :
        ((s.tables.addGlobal g.name g.shape.words).globals.map Prod.fst).Nodup := by
      rw [Tables.addGlobal, List.map_append]
      exact List.nodup_append'.2 ⟨hs, by simp, by simpa using hg⟩
    constructor
    · rintro ⟨u, ⟨hg, rfl⟩, hrest⟩
      obtain ⟨hnodup, rfl⟩ := (ih (hstep hg)).1 hrest
      simp only [Tables.addGlobal, List.map_append, List.map_cons, List.map_nil,
        List.append_assoc, List.cons_append, List.nil_append] at hnodup ⊢
      exact ⟨hnodup, rfl⟩
    · rintro ⟨hnodup, rfl⟩
      have hg : g.name ∉ s.tables.globals.map Prod.fst := fun h =>
        List.disjoint_of_nodup_append hnodup h List.mem_cons_self
      refine ⟨_, ⟨hg, rfl⟩, (ih (hstep hg)).2 ?_⟩
      simp only [Tables.addGlobal, List.map_append, List.map_cons, List.map_nil,
        List.append_assoc, List.cons_append, List.nil_append]
      exact ⟨hnodup, rfl⟩

theorem kind_foldl_bind (gs : List Global) (sc : Scope) :
    (gs.foldl (fun sc g => sc.bind g.name g.shape.kind) sc).kind =
      gs.foldl Global.after sc.kind := by
  induction gs generalizing sc with
  | nil => rfl
  | cons g gs ih => rw [List.foldl_cons, List.foldl_cons, ih, Scope.kind_bind_eq, Global.after]

end Global

namespace Procedure

/-- The frames of the procedures so far, in the order of the procedures. -/
def Describe (frames : List (String × Frame)) (procs : List Procedure) : Prop :=
  List.Forall₂ (fun e q => e.1 = q.name ∧ e.2.argCount = q.params.length) frames procs

theorem Describe.map_fst {frames : List (String × Frame)} {procs : List Procedure}
    (h : Describe frames procs) : frames.map Prod.fst = procs.map Procedure.name := by
  induction h with
  | nil => rfl
  | cons h _ ih => rw [List.map_cons, List.map_cons, h.1, ih]

theorem Describe.lookup {frames : List (String × Frame)} {procs : List Procedure}
    (h : Describe frames procs) (hnodup : (procs.map Procedure.name).Nodup) (f : String) (n : Nat) :
    (frames.lookup f).map Frame.argCount = some n ↔
      ∃ q ∈ procs, q.name = f ∧ q.params.length = n := by
  induction h with
  | nil => simp
  | @cons e q frames procs he h ih =>
    obtain ⟨x, g⟩ := e
    obtain ⟨rfl, hn⟩ : x = q.name ∧ g.argCount = q.params.length := he
    rw [List.map_cons, List.nodup_cons] at hnodup
    have ih := ih hnodup.2
    by_cases hf : f = q.name
    · subst hf
      simp only [List.lookup_cons, beq_self_eq_true, Option.map_some, Option.some.injEq, hn,
        List.mem_cons, or_and_right, exists_or, exists_eq_left, true_and]
      refine ⟨Or.inl, fun h => h.elim id ?_⟩
      rintro ⟨r, hr, hrq, -⟩
      exact absurd (hrq ▸ List.mem_map_of_mem hr) hnodup.1
    · have hbeq : (f == q.name) = false := beq_eq_false_iff_ne.2 hf
      simp only [List.lookup_cons, hbeq, ih, List.mem_cons, or_and_right, exists_or, exists_eq_left,
        Ne.symm hf, false_and, false_or]

theorem agree_arities {s : AnalysisState} {before : List Procedure} {p : Procedure}
    (h : Describe s.tables.frames before) (hnodup : (before.map Procedure.name).Nodup)
    (hp : p.name ∉ before.map Procedure.name) : (s.arities p).Agree (before ++ [p]) := by
  intro f n
  have hlookup := h.lookup hnodup f n
  unfold AnalysisState.arities
  simp only [List.mem_append, List.mem_singleton, or_and_right, exists_or, exists_eq_left]
  by_cases hf : f = p.name
  · subst hf
    simp only [if_true, Option.some.injEq, true_and]
    refine ⟨Or.inr, fun h => h.elim ?_ id⟩
    rintro ⟨r, hr, hrp, -⟩
    exact absurd (hrp ▸ List.mem_map_of_mem hr) hp
  · simp only [if_neg hf, Ne.symm hf, false_and, or_false]
    exact hlookup

/-- What every frame keeps of its procedure, however large its slots are. -/
structure FrameOf (p : Procedure) (f : Frame) : Prop where
  args : f.args = p.params.map Param.name
  names : ∀ x, x ∈ f.names ↔ x ∈ p.params.map Param.name ∨ x ∈ p.body.declared.map Prod.fst
  size : ∃ n, f.size = .ok n ∧ 0 ≤ n

theorem HasFrame.frameOf {p : Procedure} {f : Frame} (h : p.HasFrame f) : p.FrameOf f := by
  obtain ⟨g, hg, hf⟩ := h
  rw [unfinishedFrame, except_bind_eq_ok] at hg
  obtain ⟨g', hargs, hlocals⟩ := hg
  have hgrown := (Frame.grown_of_insertArgs hargs).trans (Frame.grown_of_insertAll hlocals)
  obtain ⟨hnames, hfargs, hoffset, hsize⟩ := Frame.finish_keeps hf
  have hend := hgrown.nonneg ⟨le_rfl, le_rfl⟩
  refine ⟨?_, fun x => ?_, ?_⟩
  · rw [hfargs, hgrown.args, List.append_nil]
    rfl
  · rw [hnames, hgrown.names, List.mem_append]
    simp [Frame.names, Frame.empty]
  · obtain ⟨n, hn⟩ := Frame.exists_size_of_finish hgrown.finished hf
    refine ⟨n, by rw [← hn, Frame.size, Frame.size, hoffset, hsize], ?_⟩
    obtain ⟨-, rfl⟩ := Word.checked_eq_ok_iff.1 hn
    have := hend.1
    have := hend.2
    omega

theorem FrameOf.argCount {p : Procedure} {f : Frame} (h : p.FrameOf f) :
    f.argCount = p.params.length := by
  rw [Frame.argCount, h.args, List.length_map]

theorem check_eq_ok_iff {before : List Procedure} {p : Procedure} {s t : AnalysisState}
    (hs : Describe s.tables.frames before) (hnodup : (before.map Procedure.name).Nodup) :
    p.check s = .ok () t ↔ p.name ∉ before.map Procedure.name ∧
      p.WellFormed s.scope.kind (before ++ [p]) ∧ ∃ f n, p.HasFrame f ∧ f.size = .ok n ∧
        t = { (s.note (.analyzing p.name)).note (.laidOut p.name n) with
          tables := s.tables.addFrame p.name f } := by
  have hbefore := Tables.isSome_frame?_iff (t := s.tables) (f := p.name)
  rw [hs.map_fst] at hbefore
  -- a note changes neither the tables nor the scope
  have htables : (s.note (.analyzing p.name)).tables = s.tables := rfl
  have hsame : p.layout (s.note (.analyzing p.name)).scope
      ((s.note (.analyzing p.name)).arities p) = p.layout s.scope (s.arities p) := rfl
  unfold check
  dsimp only
  rw [htables, hsame]
  by_cases hp : p.name ∈ before.map Procedure.name
  · rw [if_pos (hbefore.2 hp)]
    simp [hp]
  rw [if_neg (mt hbefore.1 hp)]
  simp only [hp, not_false_eq_true, true_and]
  have hlayout (f : Frame) : p.layout s.scope (s.arities p) = .ok f ↔
      p.WellFormed (ScopeStack.find [s.scope]) (before ++ [p]) ∧ p.HasFrame f :=
    layout_eq_ok_iff (agree_arities hs hnodup hp)
  simp only [Scope.find_singleton] at hlayout
  cases hrun : p.layout s.scope (s.arities p) with
  | error e =>
    simp only [reduceCtorEq, false_iff, not_and, not_exists]
    intro hwf f n hf
    have := (hlayout f).2 ⟨hwf, hf⟩
    simp [hrun] at this
  | ok f =>
    obtain ⟨hwf, hf⟩ := (hlayout f).1 hrun
    obtain ⟨n, hn, -⟩ := hf.frameOf.size
    simp only [hn, hwf, true_and, EStateM.Result.ok.injEq]
    constructor
    · rintro rfl
      exact ⟨f, n, hf, hn, rfl⟩
    · rintro ⟨f', n', hf', hn', rfl⟩
      obtain rfl : f = f' := by
        have := (hlayout f').2 ⟨hwf, hf'⟩
        rw [hrun] at this
        exact Except.ok.inj this
      rw [hn] at hn'
      cases hn'
      rfl

/-- The frames of procedures, by name. -/
def frameTable (ps : List Procedure) (fs : List Frame) : List (String × Frame) :=
  (ps.map Procedure.name).zip fs

theorem forM_check_eq_ok_iff (ps : List Procedure) {before : List Procedure} {s : AnalysisState}
    {t : Tables} (hs : Describe s.tables.frames before) (hnodup : (before.map Procedure.name).Nodup) :
    (∃ s', ps.forM Procedure.check s = .ok () s' ∧ s'.tables = t) ↔
      ((before ++ ps).map Procedure.name).Nodup ∧
      (∀ between q rest, ps = between ++ q :: rest →
        q.WellFormed s.scope.kind (before ++ between ++ [q])) ∧
      ∃ fs, List.Forall₂ HasFrame ps fs ∧
        t = { s.tables with frames := s.tables.frames ++ frameTable ps fs } := by
  induction ps generalizing before s with
  | nil =>
    simp only [List.forM_eq_forM, List.forM_nil, step_pure_eq_ok, List.append_nil, true_and,
      List.forall₂_nil_left_iff, exists_eq_left, frameTable, List.map_nil, List.zip_nil_left]
    simp [hnodup, eq_comm]
  | cons p ps ih =>
    simp only [List.forM_eq_forM, List.forM_cons, step_seq_eq_ok,
      check_eq_ok_iff hs hnodup] at ih ⊢
    rw [forall_split_cons (P := fun (between : List Procedure) (q : Procedure) _ =>
      q.WellFormed s.scope.kind (before ++ between ++ [q])), List.append_nil]
    have happend : before ++ p :: ps = before ++ [p] ++ ps := by simp
    have hstep {f : Frame} (hf : p.HasFrame f) :
        Describe (s.tables.addFrame p.name f).frames (before ++ [p]) :=
      List.rel_append hs (.cons ⟨rfl, hf.frameOf.argCount⟩ .nil)
    have hfresh (hp : p.name ∉ before.map Procedure.name) :
        ((before ++ [p]).map Procedure.name).Nodup := by
      rw [List.map_append]
      exact List.nodup_append'.2 ⟨hnodup, by simp, by simpa using hp⟩
    have htable (f : Frame) (fs : List Frame) : s.tables.frames ++ frameTable (p :: ps) (f :: fs) =
        (s.tables.addFrame p.name f).frames ++ frameTable ps fs := by
      simp [frameTable, Tables.addFrame]
    have hsplit (between : List Procedure) (q : Procedure) :
        before ++ p :: between ++ [q] = before ++ [p] ++ between ++ [q] := by simp
    constructor
    · rintro ⟨s', ⟨u, ⟨hp, hwf, f, n, hf, -, rfl⟩, hrest⟩, ht⟩
      obtain ⟨hall, hbodies, fs, hfs, rfl⟩ := (ih (hstep hf) (hfresh hp)).1 ⟨s', hrest, ht⟩
      rw [happend]
      refine ⟨hall, ⟨hwf, fun between q rest e => ?_⟩, f :: fs, .cons hf hfs, ?_⟩
      · rw [hsplit]
        exact hbodies between q rest e
      · rw [htable]
        rfl
    · rintro ⟨hall, ⟨hwf, hbodies⟩, fs, hfs, rfl⟩
      cases hfs with
      | @cons _ f _ fs hf hfs =>
        rw [happend] at hall
        have hp : p.name ∉ before.map Procedure.name := by
          rw [List.map_append, List.map_append, List.append_assoc] at hall
          exact fun h => List.disjoint_of_nodup_append hall h (by simp)
        obtain ⟨n, hn, -⟩ := hf.frameOf.size
        obtain ⟨s', hrest, ht⟩ := (ih (s := { (s.note (.analyzing p.name)).note (.laidOut p.name n)
          with tables := s.tables.addFrame p.name f }) (hstep hf) (hfresh hp)).2
          ⟨hall, fun between q rest e => by
            have := hbodies between q rest e
            rwa [hsplit] at this, fs, hfs, by rw [htable]; rfl⟩
        exact ⟨s', ⟨_, ⟨hp, hwf, f, n, hf, hn, rfl⟩, hrest⟩, ht⟩

end Procedure

namespace Program

theorem checkMain_eq_ok_iff {p : Program} (hnodup : (p.procedures.map Procedure.name).Nodup) :
    p.checkMain = .ok () ↔ ∃ q ∈ p.procedures, q.name = mainName ∧ q.params = [] := by
  unfold checkMain procedure? reject
  cases hmain : p.procedures.find? (·.name == mainName) with
  | none =>
    simp only [reduceCtorEq, false_iff, not_exists, not_and]
    intro q hq hname
    have := List.find?_eq_none.1 hmain q hq
    simp [hname] at this
  | some q =>
    have hq := List.mem_of_find?_eq_some hmain
    have hname : q.name = mainName := by simpa using List.find?_some hmain
    dsimp only
    constructor
    · intro h
      split_ifs at h with hparams
      exact ⟨q, hq, hname, List.isEmpty_iff.1 hparams⟩
    · rintro ⟨r, hr, hrname, hparams⟩
      obtain rfl : r = q := List.inj_on_of_nodup_map hnodup hr hq (hrname.trans hname.symm)
      simp [hparams]

/-- Analysis computes the words of the globals and the frames of the procedures, provided that the
program is well-formed and each procedure has a frame. -/
theorem analyze_eq_ok_iff_hasFrame {p : Program} {t : Tables} :
    analyze p = .ok t ↔ p.WellScoped ∧ ∃ fs, List.Forall₂ Procedure.HasFrame p.procedures fs ∧
      t = ⟨p.globals.map Global.entry, Procedure.frameTable p.procedures fs⟩ := by
  have hrun : analyze p = .ok t ↔ ∃ s, p.check .start = .ok () s ∧ s.tables = t := by
    unfold analyze analyzeNoting
    cases p.check .start <;> simp
  rw [hrun]
  have hkind : Scope.kind [] = Visible.nothing := rfl
  have hglobals (s : AnalysisState) := Global.forM_check_eq_ok_iff p.globals
    (s := .start) (t := s) List.nodup_nil
  have hprocs := Procedure.forM_check_eq_ok_iff p.procedures (t := t)
    (s := { AnalysisState.start with
      scope := p.globals.foldl (fun sc g => sc.bind g.name g.shape.kind) []
      tables := ⟨p.globals.map Global.entry, []⟩ }) .nil (by simp)
  simp only [Global.kind_foldl_bind, hkind, List.nil_append] at hprocs
  simp only [check, step_seq_eq_ok, hglobals]
  constructor
  · rintro ⟨s, ⟨u, ⟨hnodup, rfl⟩, u', hps, hmain⟩, ht⟩
    have htables : p.checkMain = .ok () ∧ s.tables = u'.tables := by
      cases hm : p.checkMain with
      | error e =>
        rw [hm] at hmain
        cases hmain
      | ok a =>
        rw [hm] at hmain
        cases hmain
        exact ⟨rfl, rfl⟩
    obtain ⟨hnames, hbodies, hfs⟩ := hprocs.1 ⟨u', hps, htables.2 ▸ ht⟩
    exact ⟨⟨hnodup, hnames, (checkMain_eq_ok_iff hnames).1 htables.1, hbodies⟩, hfs⟩
  · rintro ⟨⟨hnodup, hnames, hmain, hbodies⟩, hfs⟩
    obtain ⟨u', hps, ht⟩ := hprocs.2 ⟨hnames, hbodies, hfs⟩
    refine ⟨u'.note .finished, ⟨_, ⟨hnodup, rfl⟩, u', hps, ?_⟩, ht⟩
    rw [(checkMain_eq_ok_iff hnames).2 hmain]
    rfl

end Program

end ProcMips
