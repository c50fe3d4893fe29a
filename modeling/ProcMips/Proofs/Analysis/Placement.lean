import ProcMips.Proofs.Analysis.Acceptance
import ProcMips.Proofs.Analysis.Occurrences

/-! Where the parameters and the declarations of a procedure are. A declaration brings in a name that
was not visible, so no local is global and no parameter is declared again: the parameters are the
highest words of the frame, in the order in which a caller pushes them, and every declaration finds a
slot of its size. -/

namespace ProcMips

theorem Visible.untyped_of_declaring {v : Visible} {x y : String} {k : VarKind} (hk : k ≠ .untyped)
    (h : v.declaring x k y = .untyped) : y ≠ x ∧ v y = .untyped := by
  rw [declaring, Function.update_apply] at h
  split_ifs at h with hy
  · exact absurd h hk
  · exact ⟨hy, h⟩

theorem Param.untyped_of_foldl_after {v : Visible} {x : String} {ps : List Param}
    (h : ps.foldl Param.after v x = .untyped) : x ∉ ps.map Param.name ∧ v x = .untyped := by
  induction ps generalizing v with
  | nil => exact ⟨by simp, h⟩
  | cons p ps ih =>
    obtain ⟨hps, h⟩ := ih h
    obtain ⟨hp, h⟩ := Visible.untyped_of_declaring (by simp) h
    exact ⟨by simp [hp, hps], h⟩

theorem Global.untyped_of_foldl_after {v : Visible} {x : String} {gs : List Global}
    (h : gs.foldl Global.after v x = .untyped) : x ∉ gs.map Global.name ∧ v x = .untyped := by
  induction gs generalizing v with
  | nil => exact ⟨by simp, h⟩
  | cons g gs ih =>
    obtain ⟨hgs, h⟩ := ih h
    obtain ⟨hg, h⟩ := Visible.untyped_of_declaring g.shape.kind_ne_untyped h
    exact ⟨by simp [hg, hgs], h⟩

namespace Stmt

theorem untyped_of_foldl_after {v : Visible} {x : String} {ss : List Stmt}
    (h : ss.foldl Stmt.after v x = .untyped) : v x = .untyped := by
  induction ss generalizing v with
  | nil => exact h
  | cons s ss ih =>
    have h := ih h
    cases s with
    | declare l y shape => exact (Visible.untyped_of_declaring shape.kind_ne_untyped h).2
    | _ => exact h

/-- No name that is declared in a statement is visible in front of it. -/
theorem WellFormed.untyped_of_declared {callable : List Procedure} {v : Visible} {s : Stmt}
    (h : s.WellFormed callable v) : ∀ r ∈ s.declared, v r.1 = .untyped := by
  induction h with
  | declare _ shape hx =>
    rintro _ (_ | ⟨_, ⟨⟩⟩)
    exact hx
  | block _ _ ih =>
    intro r hr
    obtain ⟨s, hs, hrs⟩ := mem_declaredAll.1 hr
    obtain ⟨before, rest, rfl⟩ := List.append_of_mem hs
    exact untyped_of_foldl_after (ih before s rest rfl r hrs)
  | ifThen _ _ _ ih => exact ih
  | ifElse _ _ _ _ ihy ihn => exact fun r hr => (List.mem_append.1 hr).elim (ihy r) (ihn r)
  | loop _ _ _ ih => exact ih
  | assign | output | input | ret | call => exact fun r hr => nomatch hr

end Stmt

theorem Layout.wordsOf_of_lookup_placed {l : Layout} {x : String} {s : Slot}
    (h : (placed l).lookup x = some s) : s.size = wordSize * wordsOf x l := by
  obtain ⟨l₁, k, l₂, rfl, hx, rfl⟩ := lookup_placed h
  simp [wordsOf, List.lookup_append, lookup_eq_none_iff_not_mem.2 hx]

/-- Names of one word each, in front of whatever follows, have the highest words of the frame. -/
theorem Layout.lookup_placed_map_one {xs : List String} (hn : xs.Nodup) (m : Layout) {i : Nat}
    {x : String} (hx : xs[i]? = some x) :
    (placed (xs.map (·, 1) ++ m)).lookup x =
      some ⟨saveArea + bytes (xs.map (·, 1) ++ m) - wordSize * i, wordSize⟩ := by
  induction xs generalizing i with
  | nil => simp at hx
  | cons y xs ih =>
    rw [List.nodup_cons] at hn
    rw [List.map_cons, List.cons_append, placed, bytes_cons]
    cases i with
    | zero =>
      obtain rfl : y = x := by simpa using hx
      rw [List.lookup_cons_self, Option.some.injEq, Slot.mk.injEq]
      constructor <;> omega
    | succ i =>
      have hx : xs[i]? = some x := by simpa using hx
      have hne : (x == y) = false := beq_eq_false_iff_ne.2 fun h =>
        hn.1 (h ▸ List.mem_of_getElem? hx)
      rw [List.lookup_cons, hne]
      dsimp only
      rw [ih hn.2 hx, Option.some.injEq, Slot.mk.injEq]
      unfold wordSize
      constructor <;> omega

theorem Requests.le_largest {rs : Requests} {r : String × Nat} (h : r ∈ rs) :
    r.2 ≤ rs.largest r.1 := by
  induction rs using List.reverseRecOn with
  | nil => cases h
  | append_singleton rs q ih =>
    obtain ⟨y, n⟩ := q
    rw [largest_concat]
    rcases List.mem_append.1 h with h | h
    · have := ih h
      split_ifs <;> omega
    · obtain rfl := List.mem_singleton.1 h
      simp

namespace Procedure

/-- A frame of `size` bytes as the code of a procedure uses it. -/
structure PlacedIn (q : Procedure) (f : Frame) (size : Int) : Prop where
  laid : f.Laid size
  argCount : f.argCount = q.params.length
  params : ∀ (i : Nat) (x : String), (q.params.map Param.name)[i]? = some x →
    ∃ slot, f.slot? x = some slot ∧ slot.offset = saveArea + size - wordSize * i ∧
      wordSize ≤ slot.size
  locals : ∀ r ∈ q.body.declared, ∃ slot, f.slot? r.1 = some slot ∧ wordSize * r.2 ≤ slot.size

variable {v : Visible} {callable : List Procedure} {q : Procedure}

theorem WellFormed.untyped_of_params (h : q.WellFormed v callable) :
    ∀ x ∈ q.params.map Param.name, v x = .untyped := by
  intro x hx
  obtain ⟨r, hr, rfl⟩ := List.mem_map.1 hx
  obtain ⟨before, rest, hsplit⟩ := List.append_of_mem hr
  exact (Param.untyped_of_foldl_after (h.params before r rest hsplit)).2

theorem WellFormed.declared_new (h : q.WellFormed v callable) :
    ∀ r ∈ q.body.declared, r.1 ∉ q.params.map Param.name ∧ v r.1 = .untyped :=
  fun r hr => Param.untyped_of_foldl_after (h.body.untyped_of_declared r hr)

theorem WellFormed.nodup_params (h : q.WellFormed v callable) : (q.params.map Param.name).Nodup :=
  Param.AllFresh.nodup h.params

/-- Nothing is laid out among the parameters, so their slots are one word each. -/
theorem WellFormed.exists_layout_eq (h : q.WellFormed v callable) :
    ∃ m, Layout.requestAll q.requests [] = (q.params.map Param.name).map (·, 1) ++ m := by
  have hnames : Layout.names ((q.params.map Param.name).map (·, 1)) = q.params.map Param.name := by
    simp [Layout.names, Function.comp_def]
  have hparams : Layout.requestAll ((q.params.map Param.name).map (·, 1)) [] =
      (q.params.map Param.name).map (·, 1) := by
    apply Layout.requestAll_of_nodup
    rw [List.nil_append, hnames]
    exact h.nodup_params
  have hnew : ∀ r ∈ q.body.declared, r.1 ∉ Layout.names ((q.params.map Param.name).map (·, 1)) := by
    intro r hr
    rw [hnames]
    exact (h.declared_new r hr).1
  obtain ⟨m, hm⟩ := Layout.exists_requestAll_eq_append hnew (m := [])
  refine ⟨m, ?_⟩
  rw [← hm, List.append_nil, requests, Layout.requestAll_append]
  rw [List.map_map] at hparams ⊢
  exact congrArg _ hparams

theorem HasFrame.placed (hpos : ∀ r ∈ q.body.declared, 0 < r.2) (h : q.WellFormed v callable)
    {f : Frame} (hf : q.HasFrame f) : ∃ size, q.PlacedIn f size := by
  obtain ⟨hsmall, rfl⟩ := (hasFrame_iff hpos).1 hf
  refine ⟨_, Frame.laid_finishedLayout (valid_layout hpos hsmall), hf.frameOf.argCount,
    fun i x hx => ?_, fun r hr => ?_⟩
  · obtain ⟨m, hm⟩ := h.exists_layout_eq
    have hslot := Layout.lookup_placed_map_one h.nodup_params m hx
    rw [← hm] at hslot
    exact ⟨_, hslot, rfl, le_rfl⟩
  · have hr : r ∈ q.requests := List.mem_append_right _ hr
    obtain ⟨slot, hslot⟩ := Layout.exists_lookup_placed
      (Layout.mem_names_requestAll.2 (.inl (List.mem_map_of_mem hr)) : r.1 ∈
        Layout.names (Layout.requestAll q.requests []))
    refine ⟨slot, hslot, ?_⟩
    have hle := Requests.le_largest hr
    rw [Layout.wordsOf_of_lookup_placed hslot, Layout.wordsOf_requestAll]
    unfold wordSize
    omega

end Procedure

namespace Program

variable {p : Program} {t : Tables} {q : Procedure}

theorem exists_wellFormed_of_analyze (h : analyze p = .ok t) (hq : q ∈ p.procedures) :
    ∃ callable, q.WellFormed p.globalsVisible callable := by
  obtain ⟨hscoped, -⟩ := analyze_eq_ok_iff_hasFrame.1 h
  obtain ⟨before, rest, hsplit⟩ := List.append_of_mem hq
  exact ⟨_, hscoped.bodies before q rest hsplit⟩

theorem exists_placed_of_analyze (hpos : p.Positive) (h : analyze p = .ok t)
    (hq : q ∈ p.procedures) : ∃ f size, t.frame? q.name = some f ∧ q.PlacedIn f size := by
  obtain ⟨f, hf, hlookup⟩ := exists_frame_of_analyze h hq
  obtain ⟨callable, hwf⟩ := exists_wellFormed_of_analyze h hq
  obtain ⟨size, hplaced⟩ := hf.placed (hpos.bodies q hq) hwf
  exact ⟨f, size, hlookup, hplaced⟩

/-- The names of the parameters and the locals are not global. -/
theorem isGlobal_of_requests (h : analyze p = .ok t) (hq : q ∈ p.procedures) :
    ∀ r ∈ q.requests, t.isGlobal r.1 = false := by
  intro r hr
  obtain ⟨callable, hwf⟩ := exists_wellFormed_of_analyze h hq
  have huntyped : p.globalsVisible r.1 = .untyped := by
    rcases List.mem_append.1 hr with hr | hr
    · obtain ⟨x, hx, rfl⟩ := List.mem_map.1 hr
      exact hwf.untyped_of_params _ (List.mem_map_of_mem hx)
    · exact (hwf.declared_new r hr).2
  rw [← Bool.not_eq_true, isGlobal_of_analyze h]
  exact (Global.untyped_of_foldl_after huntyped).1

end Program

end ProcMips
