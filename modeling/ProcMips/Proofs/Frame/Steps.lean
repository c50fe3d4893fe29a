import ProcMips.Proofs.Frame.Requests

/-! What requests do to any frame, also one with empty slots. A request keeps the parameters and the
names that have slots, and adds its own name; the end of the frame does not become negative. -/

namespace ProcMips

namespace Frame

variable {f g : Frame}

def names (f : Frame) : List String := f.slots.map Prod.fst

theorem exists_offset?_iff {x : String} : (∃ n, f.offset? x = some n) ↔ x ∈ f.names := by
  rw [names, ← not_iff_not, ← lookup_eq_none_iff_not_mem, offset?, slot?]
  cases f.slots.lookup x <;> simp

theorem map_fst_shift {start diff : Int} {ss ts : List (String × Slot)}
    (h : shift start diff ss = .ok ts) : ts.map Prod.fst = ss.map Prod.fst := by
  induction ss generalizing ts with
  | nil =>
    cases h
    rfl
  | cons p ss ih =>
    obtain ⟨x, s⟩ := p
    unfold shift at ih h
    rw [List.mapM_cons] at h
    simp only [except_bind_eq_ok, except_pure_eq_ok] at h
    obtain ⟨q, hq, qs, hqs, rfl⟩ := h
    have hx : q.1 = x := by
      split_ifs at hq
      · simp only [except_bind_eq_ok, except_pure_eq_ok] at hq
        obtain ⟨_, _, rfl⟩ := hq
        rfl
      · cases hq
        rfl
    rw [List.map_cons, List.map_cons, ih hqs, hx]

theorem map_fst_resize (x : String) (size : Int) (ss : List (String × Slot)) :
    (resize x size ss).map Prod.fst = ss.map Prod.fst := by
  rw [resize, List.map_map]
  refine List.map_congr_left fun p _ => ?_
  obtain ⟨y, s⟩ := p
  dsimp only [Function.comp]
  split_ifs <;> rfl

theorem mem_names_of_slot? {x : String} {s : Slot} (h : f.slot? x = some s) : x ∈ f.names :=
  exists_offset?_iff.1 ⟨s.offset, by rw [offset?, h]; rfl⟩

/-- A frame ends at or behind its start. -/
def EndNonneg (f : Frame) : Prop := 0 ≤ f.lastOffset ∧ 0 ≤ f.lastSize

/-- What requests for the names `xs`, of which `ps` are parameters, make of a frame. -/
structure Grown (f : Frame) (xs ps : List String) (g : Frame) : Prop where
  args : g.args = f.args ++ ps
  finished : g.finished = f.finished
  names : ∀ y, y ∈ g.names ↔ y ∈ f.names ∨ y ∈ xs
  nonneg : f.EndNonneg → g.EndNonneg

theorem Grown.refl (f : Frame) : Grown f [] [] f :=
  ⟨(List.append_nil _).symm, rfl, fun y => by simp, id⟩

theorem Grown.trans {h : Frame} {xs ys ps qs : List String} (hf : Grown f xs ps g)
    (hg : Grown g ys qs h) : Grown f (xs ++ ys) (ps ++ qs) h := by
  refine ⟨?_, hg.finished.trans hf.finished, fun y => ?_, hg.nonneg ∘ hf.nonneg⟩
  · rw [hg.args, hf.args, List.append_assoc]
  · rw [hg.names, hf.names, List.mem_append, or_assoc]

theorem grownSize_eq_ok {more grown : Int} (h : f.grownSize more = .ok grown) :
    grown = f.lastOffset + f.lastSize + more := by
  unfold grownSize at h
  cases hs : f.size with
  | error op => simp [hs] at h
  | ok size =>
    rw [hs] at h
    obtain ⟨-, rfl⟩ := Word.checked_eq_ok_iff.1 hs
    dsimp only at h
    split_ifs at h
    exact (Except.ok.inj h).symm

theorem grown_append {x : String} {size : Int} (hsize : 0 ≤ size)
    (h : f.append x size = .ok g) : Grown f [x] [] g := by
  unfold append at h
  simp only [except_bind_eq_ok, except_pure_eq_ok] at h
  obtain ⟨grown, hgrown, rfl⟩ := h
  have hend := grownSize_eq_ok hgrown
  refine ⟨(List.append_nil _).symm, rfl, fun y => by simp [Frame.names], fun hf => ?_⟩
  obtain ⟨ho, hs⟩ := hf
  exact ⟨by dsimp only; omega, hsize⟩

theorem grown_widen {x : String} {s : Slot} {size : Int} (hs : f.slot? x = some s)
    (hsize : 0 ≤ size) (hlt : s.size < size) (h : f.widen x s size = .ok g) :
    Grown f [x] [] g := by
  unfold widen at h
  simp only [except_bind_eq_ok] at h
  obtain ⟨_, -, h⟩ := h
  cases hshift : shift s.offset (size - s.size) f.slots with
  | error op => simp [hshift] at h
  | ok ss =>
    rw [hshift] at h
    cases h
    refine ⟨(List.append_nil _).symm, rfl, fun y => ?_, fun hf => ?_⟩
    · rw [Frame.names, map_fst_resize, map_fst_shift hshift, ← Frame.names, List.mem_singleton]
      exact ⟨Or.inl, fun h => h.elim id (· ▸ mem_names_of_slot? hs)⟩
    · obtain ⟨ho, hl⟩ := hf
      constructor <;> dsimp only <;> split_ifs <;> omega

theorem grown_of_insert {x : String} {n : Nat} (h : f.insert x n = .ok g) : Grown f [x] [] g := by
  unfold insert at h
  have hsize : 0 ≤ wordSize * (n : Int) := by unfold wordSize; omega
  dsimp only at h
  split_ifs at h with hbig
  cases hs : f.slot? x with
  | none =>
    rw [hs] at h
    exact grown_append hsize h
  | some s =>
    rw [hs] at h
    dsimp only at h
    split_ifs at h with hlt
    · exact grown_widen hs hsize hlt h
    · cases h
      refine ⟨(List.append_nil _).symm, rfl, fun y => ?_, id⟩
      rw [List.mem_singleton]
      exact ⟨Or.inl, fun h => h.elim id (· ▸ mem_names_of_slot? hs)⟩

theorem grown_of_insertArg {x : String} (h : f.insertArg x = .ok g) : Grown f [x] [x] g := by
  unfold insertArg at h
  simp only [except_bind_eq_ok, except_pure_eq_ok] at h
  obtain ⟨f', hf', rfl⟩ := h
  have hgrown := grown_of_insert hf'
  exact ⟨by dsimp only; rw [hgrown.args, List.append_nil], hgrown.finished, hgrown.names, hgrown.nonneg⟩

theorem grown_of_insertAll {rs : Requests} (h : f.insertAll rs = .ok g) :
    Grown f (rs.map Prod.fst) [] g := by
  induction rs generalizing f with
  | nil =>
    cases h
    exact Grown.refl _
  | cons r rs ih =>
    rw [insertAll_cons, except_bind_eq_ok] at h
    obtain ⟨f', hf', h⟩ := h
    exact (grown_of_insert hf').trans (ih h)

theorem grown_of_insertArgs {xs : List String} (h : f.insertArgs xs = .ok g) :
    Grown f xs xs g := by
  induction xs generalizing f with
  | nil =>
    cases h
    exact Grown.refl _
  | cons x xs ih =>
    rw [insertArgs_cons, except_bind_eq_ok] at h
    obtain ⟨f', hf', h⟩ := h
    exact (grown_of_insertArg hf').trans (ih h)

theorem map_fst_mapM_mirror {top : Int} {ss ts : List (String × Slot)}
    (h : (ss.mapM fun (x, s) => do return (x, ← Slot.mirror top s) : Except Overflow _) = .ok ts) :
    ts.map Prod.fst = ss.map Prod.fst := by
  induction ss generalizing ts with
  | nil =>
    cases h
    rfl
  | cons p ss ih =>
    obtain ⟨x, s⟩ := p
    rw [List.mapM_cons] at h
    simp only [except_bind_eq_ok, except_pure_eq_ok] at h ih
    obtain ⟨q, ⟨t, _, rfl⟩, qs, hqs, rfl⟩ := h
    rw [List.map_cons, List.map_cons, ih hqs]

/-- Finishing moves slots and changes nothing else. -/
theorem finish_keeps (h : f.finish = .ok g) : g.names = f.names ∧ g.args = f.args ∧
    g.lastOffset = f.lastOffset ∧ g.lastSize = f.lastSize := by
  unfold finish at h
  split_ifs at h
  · cases h
    exact ⟨rfl, rfl, rfl, rfl⟩
  · simp only [except_bind_eq_ok, except_pure_eq_ok] at h
    obtain ⟨_, _, _, _, ss, hss, rfl⟩ := h
    exact ⟨map_fst_mapM_mirror (by simpa only [except_bind_eq_ok, except_pure_eq_ok] using hss),
      rfl, rfl, rfl⟩

/-- Computing the end of a frame does not overflow if the frame could be finished. -/
theorem exists_size_of_finish (hf : f.finished = false) (h : f.finish = .ok g) :
    ∃ n, f.size = .ok n := by
  unfold finish at h
  rw [if_neg (by simp [hf])] at h
  simp only [except_bind_eq_ok] at h
  obtain ⟨n, hn, -⟩ := h
  exact ⟨n, hn⟩

end Frame

end ProcMips
