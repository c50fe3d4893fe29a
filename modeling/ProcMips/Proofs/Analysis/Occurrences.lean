import ProcMips.Proofs.Analysis.Programs

/-! Where the variables of a well-formed program are stored. Scopes are closed in the course of
analysis and slots are kept, so that every variable that occurs in a body is global or has a slot in
the frame of its procedure. -/

namespace ProcMips

mutual

/-- The variables that occur in an expression, from left to right. -/
def Expr.variables : Expr → List String
  | .int .. | .bool .. => []
  | .scalar _ x => [x]
  | .element _ x index => x :: index.variables
  | .call _ _ args => Expr.variablesAll args
  | .binary _ _ left right => left.variables ++ right.variables
  | .not _ operand => operand.variables

def Expr.variablesAll : List Expr → List String
  | [] => []
  | e :: es => e.variables ++ Expr.variablesAll es

end

def Target.variables : Target → List String
  | scalar x => [x]
  | element x index => x :: index.variables

mutual

/-- The variables that occur in a statement, those that it declares among them. -/
def Stmt.variables : Stmt → List String
  | .declare _ x _ => [x]
  | .assign _ target value => target.variables ++ value.variables
  | .block _ body => Stmt.variablesAll body
  | .ifThen _ condition yes => condition.variables ++ yes.variables
  | .ifElse _ condition yes no => condition.variables ++ yes.variables ++ no.variables
  | .loop _ condition body => condition.variables ++ body.variables
  | .output _ value => value.variables
  | .input _ target => target.variables
  | .ret _ value => value.variables
  | .call _ _ args => Expr.variablesAll args

def Stmt.variablesAll : List Stmt → List String
  | [] => []
  | s :: ss => s.variables ++ Stmt.variablesAll ss

end

theorem Expr.mem_variablesAll {x : String} {es : List Expr} :
    x ∈ Expr.variablesAll es ↔ ∃ e ∈ es, x ∈ e.variables := by
  induction es with
  | nil => simp [Expr.variablesAll]
  | cons e es ih => simp [Expr.variablesAll, ih]

theorem Stmt.mem_variablesAll {x : String} {ss : List Stmt} :
    x ∈ Stmt.variablesAll ss ↔ ∃ s ∈ ss, x ∈ s.variables := by
  induction ss with
  | nil => simp [Stmt.variablesAll]
  | cons s ss ih => simp [Stmt.variablesAll, ih]

theorem Stmt.mem_declaredAll {r : String × Nat} {ss : List Stmt} :
    r ∈ Stmt.declaredAll ss ↔ ∃ s ∈ ss, r ∈ s.declared := by
  induction ss with
  | nil => simp [Stmt.declaredAll]
  | cons s ss ih => simp [Stmt.declaredAll, ih]

theorem Visible.ne_untyped_of_declaring {v : Visible} {x y : String} {k : VarKind}
    (h : v.declaring x k y ≠ .untyped) : v y ≠ .untyped ∨ y = x := by
  by_cases hy : y = x
  · exact .inr hy
  · rw [declaring, Function.update_of_ne hy] at h
    exact .inl h

section

variable {v : Visible} {callable : List Procedure}

theorem Expr.HasType.visible {e : Expr} {t : Ty} (h : e.HasType v callable t) :
    ∀ x ∈ e.variables, v x ≠ .untyped := by
  induction h with
  | int | bool => simp [Expr.variables]
  | scalar _ hx =>
    rintro _ (_ | ⟨_, ⟨⟩⟩)
    simp [hx]
  | element _ hx _ ih =>
    rintro _ (_ | ⟨_, hy⟩)
    · simp [hx]
    · exact ih _ hy
  | call _ _ _ _ ih =>
    intro x hx
    rw [Expr.variables, Expr.mem_variablesAll] at hx
    obtain ⟨a, ha, hx⟩ := hx
    exact ih a ha x hx
  | binary _ _ _ ihl ihr =>
    intro x hx
    rw [Expr.variables, List.mem_append] at hx
    exact hx.elim (ihl x) (ihr x)
  | not _ _ ih => exact ih

theorem Target.WellFormed.visible {target : Target} (h : target.WellFormed v callable) :
    ∀ x ∈ target.variables, v x ≠ .untyped := by
  cases h with
  | scalar hx =>
    rintro _ (_ | ⟨_, ⟨⟩⟩)
    simp [hx]
  | element hx hi =>
    rintro _ (_ | ⟨_, hy⟩)
    · simp [hx]
    · exact hi.visible _ hy

end

namespace Stmt

theorem visible_of_foldl_after {v : Visible} {x : String} {body : List Stmt}
    (h : body.foldl after v x ≠ .untyped) :
    v x ≠ .untyped ∨ x ∈ (Stmt.declaredAll body).map Prod.fst := by
  induction body generalizing v with
  | nil => exact .inl h
  | cons s body ih =>
    rw [Stmt.declaredAll, List.map_append, List.mem_append]
    rcases ih h with h | h
    · cases s with
      | declare _ y shape =>
        refine (Visible.ne_untyped_of_declaring h).imp id fun hx => .inl ?_
        simp [Stmt.declared, hx]
      | _ => exact .inl h
    · exact .inr (.inr h)

/-- A variable that occurs in a statement is visible in front of it, or declared inside it. -/
theorem WellFormed.visible_or_declared {callable : List Procedure} {v : Visible} {s : Stmt}
    (h : s.WellFormed callable v) :
    ∀ x ∈ s.variables, v x ≠ .untyped ∨ x ∈ s.declared.map Prod.fst := by
  induction h with
  | declare _ shape _ =>
    rintro _ (_ | ⟨_, ⟨⟩⟩)
    simp [Stmt.declared]
  | assign _ ht hv =>
    intro x hx
    rw [Stmt.variables, List.mem_append] at hx
    exact .inl (hx.elim (ht.visible x) (hv.visible x))
  | @block v _ body _ ih =>
    intro x hx
    rw [Stmt.variables, mem_variablesAll] at hx
    obtain ⟨s, hs, hx⟩ := hx
    obtain ⟨before, rest, rfl⟩ := List.append_of_mem hs
    have hdeclared (t : Stmt) (ht : t ∈ before ++ s :: rest)
        (h : x ∈ t.declared.map Prod.fst) :
        x ∈ (Stmt.declaredAll (before ++ s :: rest)).map Prod.fst := by
      obtain ⟨r, hr, rfl⟩ := List.mem_map.1 h
      exact List.mem_map_of_mem (mem_declaredAll.2 ⟨t, ht, hr⟩)
    rcases ih before s rest rfl x hx with h | h
    · refine (visible_of_foldl_after h).imp id fun h => ?_
      obtain ⟨r, hr, rfl⟩ := List.mem_map.1 h
      obtain ⟨t, ht, hr⟩ := mem_declaredAll.1 hr
      exact hdeclared t (List.mem_append_left _ ht) (List.mem_map_of_mem hr)
    · exact .inr (hdeclared s hs h)
  | ifThen _ hc _ ih =>
    intro x hx
    rw [Stmt.variables, List.mem_append] at hx
    exact hx.elim (fun hx => .inl (hc.visible x hx)) (ih x)
  | ifElse _ hc _ _ ihy ihn =>
    intro x hx
    rw [Stmt.variables, List.mem_append, List.mem_append] at hx
    rw [Stmt.declared, List.map_append, List.mem_append]
    rcases hx with (hx | hx) | hx
    · exact .inl (hc.visible x hx)
    · exact (ihy x hx).imp id .inl
    · exact (ihn x hx).imp id .inr
  | loop _ hc _ ih =>
    intro x hx
    rw [Stmt.variables, List.mem_append] at hx
    exact hx.elim (fun hx => .inl (hc.visible x hx)) (ih x)
  | output _ hv => exact fun x hx => .inl (hv.visible x hx)
  | input _ ht => exact fun x hx => .inl (ht.visible x hx)
  | ret _ hv => exact fun x hx => .inl (hv.visible x hx)
  | call _ _ _ ha =>
    intro x hx
    rw [Stmt.variables, Expr.mem_variablesAll] at hx
    obtain ⟨a, hmem, hx⟩ := hx
    exact .inl ((ha a hmem).visible x hx)

end Stmt

theorem Param.visible_of_foldl_after {v : Visible} {x : String} {ps : List Param}
    (h : ps.foldl Param.after v x ≠ .untyped) : v x ≠ .untyped ∨ x ∈ ps.map Param.name := by
  induction ps generalizing v with
  | nil => exact .inl h
  | cons p ps ih =>
    rw [List.map_cons, List.mem_cons]
    rcases ih h with h | h
    · exact (Visible.ne_untyped_of_declaring h).imp id .inl
    · exact .inr (.inr h)

theorem Global.visible_of_foldl_after {v : Visible} {x : String} {gs : List Global}
    (h : gs.foldl Global.after v x ≠ .untyped) : v x ≠ .untyped ∨ x ∈ gs.map Global.name := by
  induction gs generalizing v with
  | nil => exact .inl h
  | cons g gs ih =>
    rw [List.map_cons, List.mem_cons]
    rcases ih h with h | h
    · exact (Visible.ne_untyped_of_declaring h).imp id .inl
    · exact .inr (.inr h)

namespace Procedure

theorem exists_frame_of_mem {ps : List Procedure} {fs : List Frame} {q : Procedure}
    (hfs : List.Forall₂ HasFrame ps fs) (hnodup : (ps.map name).Nodup) (hq : q ∈ ps) :
    ∃ f, q.HasFrame f ∧ (frameTable ps fs).lookup q.name = some f := by
  induction hfs with
  | nil => cases hq
  | @cons p f ps fs hf hfs ih =>
    rw [List.map_cons, List.nodup_cons] at hnodup
    rcases List.mem_cons.1 hq with rfl | hq
    · exact ⟨f, hf, by simp [frameTable]⟩
    · obtain ⟨g, hg, hlookup⟩ := ih hnodup.2 hq
      have hne : (q.name == p.name) = false :=
        beq_eq_false_iff_ne.2 fun e => hnodup.1 (e ▸ List.mem_map_of_mem hq)
      refine ⟨g, hg, ?_⟩
      simp only [frameTable, List.map_cons, List.zip_cons_cons, List.lookup_cons, hne] at hlookup ⊢
      exact hlookup

/-- Every variable in the body of a procedure is global or has a slot. -/
theorem WellFormed.stored {p : Program} {q : Procedure} {callable : List Procedure} {f : Frame}
    (hq : q.WellFormed p.globalsVisible callable) (hf : q.FrameOf f) :
    ∀ x ∈ q.body.variables, x ∈ p.globals.map Global.name ∨ ∃ n, f.offset? x = some n := by
  intro x hx
  rw [Frame.exists_offset?_iff, hf.names]
  rcases hq.body.visible_or_declared x hx with h | h
  · rcases Param.visible_of_foldl_after h with h | h
    · refine .inl ((Global.visible_of_foldl_after h).resolve_left ?_)
      simp [Visible.nothing]
    · exact .inr (.inl h)
  · exact .inr (.inr h)

end Procedure

/-- The frame of every procedure is in the tables that analysis computes. -/
theorem Program.exists_frame_of_analyze {p : Program} {t : Tables} (h : analyze p = .ok t)
    {q : Procedure} (hq : q ∈ p.procedures) : ∃ f, q.HasFrame f ∧ t.frame? q.name = some f := by
  obtain ⟨hscoped, fs, hfs, rfl⟩ := analyze_eq_ok_iff_hasFrame.1 h
  exact Procedure.exists_frame_of_mem hfs hscoped.procedures hq

theorem Program.isGlobal_of_analyze {p : Program} {t : Tables} (h : analyze p = .ok t)
    {x : String} : t.isGlobal x = true ↔ x ∈ p.globals.map Global.name := by
  obtain ⟨-, fs, -, rfl⟩ := analyze_eq_ok_iff_hasFrame.1 h
  rw [Tables.isGlobal_iff, List.map_map]
  rfl

end ProcMips
