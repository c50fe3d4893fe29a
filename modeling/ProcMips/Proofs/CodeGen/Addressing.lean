import ProcMips.Proofs.Analysis.Placement
import ProcMips.Proofs.Analysis.Points
import ProcMips.Proofs.CodeGen.Labels

/-! Where the code of a procedure finds its variables. Scopes are nested and frames are flat: at every
place in a body a name is found under its label exactly if the scopes resolve it to a global, and
otherwise in a range of the frame that has room for what was declared and that no other variable of
that place shares. -/

namespace ProcMips

open Mips

/-- Scalars and elements of `x` are found under its global label. -/
structure Storage.UsesLabel (s : Storage) (x : String) : Prop where
  scalar : s.scalarAddress x = pure (.label (globalLabel x))
  element : ∀ r, ∃ scale, s.elementAddress x r = pure (scale, .indexed (globalLabel x) .t0)

/-- Scalars and elements of `x` are found at `offset` bytes above the frame pointer. -/
structure Storage.UsesOffset (s : Storage) (x : String) (offset : Int) : Prop where
  scalar : s.scalarAddress x = pure (.offset offset .fp)
  element : ∀ r, ∃ scale, s.elementAddress x r =
    pure (scale ++ [.li .t4 offset, .op .add .t4 .t4 .t0, .op .add .t4 .t4 .fp], .indirect .t4)

/-- `words` words for `x` at `offset`, above the save area and inside a frame of `size` bytes. -/
structure Frame.RoomFor (f : Frame) (size : Int) (x : String) (words : Nat) (offset : Int) : Prop where
  lookup : f.offset? x = some offset
  aligned : wordSize ∣ offset
  above : saveArea + wordSize ≤ offset
  inside : offset + wordSize * words ≤ saveArea + wordSize + size

/-- What is declared in `bs` is found where it is stored. -/
structure Storage.Agrees (s : Storage) (size : Int) (bs : List Block) : Prop where
  label : ∀ x d, Blocks.declaration? x bs = some d → (s.UsesLabel x ↔ d.global = true)
  room : ∀ x d, Blocks.declaration? x bs = some d → d.global = false →
    ∃ offset, s.UsesOffset x offset ∧ s.frame.RoomFor size x d.shape.words offset
  disjoint : ∀ x y d e m n, x ≠ y →
    Blocks.declaration? x bs = some d → d.global = false → s.frame.offset? x = some m →
    Blocks.declaration? y bs = some e → e.global = false → s.frame.offset? y = some n →
    m + wordSize * d.shape.words ≤ n ∨ n + wordSize * e.shape.words ≤ m

namespace Storage

variable {s : Storage} {x : String}

theorem usesLabel_of_isGlobal (h : s.tables.isGlobal x = true) : s.UsesLabel x where
  scalar := by rw [scalarAddress, if_pos h]
  element r := by
    unfold elementAddress
    exact ⟨_, if_pos h⟩

theorem usesOffset_of_not_isGlobal {n : Int} (h : s.tables.isGlobal x = false)
    (hn : s.frame.offset? x = some n) : s.UsesOffset x n where
  scalar := by
    rw [scalarAddress, if_neg (by simp [h]), offset, hn]
    rfl
  element r := by
    unfold elementAddress
    extract_lets scale
    rw [if_neg (by simp [h]), offset, hn]
    exact ⟨scale, rfl⟩

theorem UsesOffset.not_usesLabel {n : Int} (h : s.UsesOffset x n) : ¬ s.UsesLabel x := by
  intro hl
  have heq := congrFun (h.scalar.symm.trans hl.scalar) 0
  cases heq

end Storage

namespace Procedure

variable {p : Program} {t : Tables} {q : Procedure} {f : Frame} {size : Int}

/-- Every request of a procedure has a slot with room for it. -/
theorem PlacedIn.slot (h : q.PlacedIn f size) {r : String × Nat} (hr : r ∈ q.requests) :
    ∃ slot, f.slot? r.1 = some slot ∧ wordSize * r.2 ≤ slot.size := by
  rcases List.mem_append.1 hr with hr | hr
  · obtain ⟨x, hx, rfl⟩ := List.mem_map.1 hr
    obtain ⟨i, hi⟩ := List.mem_iff_getElem?.1 (List.mem_map_of_mem (f := Param.name) hx)
    obtain ⟨slot, hslot, -, hsize⟩ := h.params i x.name hi
    exact ⟨slot, hslot, by simpa using hsize⟩
  · exact h.locals r hr

theorem PlacedIn.roomFor (h : q.PlacedIn f size) {r : String × Nat} (hr : r ∈ q.requests) :
    ∃ offset, f.RoomFor size r.1 r.2 offset := by
  obtain ⟨slot, hslot, hsize⟩ := h.slot hr
  obtain ⟨habove, hinside⟩ := h.laid.inside _ _ hslot
  refine ⟨slot.offset, ?_, h.laid.aligned _ _ hslot, ?_, ?_⟩
  · rw [Frame.offset?, hslot, Option.map_some]
  · unfold saveArea wordSize
    omega
  · unfold saveArea wordSize at *
    omega

theorem PlacedIn.disjoint (h : q.PlacedIn f size) {r r' : String × Nat} (hr : r ∈ q.requests)
    (hr' : r' ∈ q.requests) (hne : r.1 ≠ r'.1) {m n : Int} (hm : f.offset? r.1 = some m)
    (hn : f.offset? r'.1 = some n) : m + wordSize * r.2 ≤ n ∨ n + wordSize * r'.2 ≤ m := by
  obtain ⟨slot, hslot, hsize⟩ := h.slot hr
  obtain ⟨slot', hslot', hsize'⟩ := h.slot hr'
  rw [Frame.offset?, hslot, Option.map_some, Option.some.injEq] at hm
  rw [Frame.offset?, hslot', Option.map_some, Option.some.injEq] at hn
  have hdisjoint := h.laid.disjoint _ _ _ _ hne hslot hslot'
  omega

/-- The blocks at a place are stored as the code finds them. -/
theorem PlacedIn.agrees (h : q.PlacedIn f size) (hanalyze : analyze p = .ok t)
    (hq : q ∈ p.procedures) {bs : List Block} (hbs : Blocks.Among q.requests p.globalBlock bs) :
    Storage.Agrees ⟨t, q.name, f⟩ size bs := by
  obtain ⟨b, locals, rfl, hlocals⟩ := hbs.split
  have hlocal {x : String} {d : Declaration}
      (hd : Blocks.declaration? x (b :: locals ++ [p.globalBlock]) = some d) (hg : d.global = false) :
      (x, d.shape.words) ∈ q.requests := by
    rcases Blocks.mem_of_declaration? hd with ⟨htrue, -⟩ | ⟨-, hmem⟩
    · rw [hg] at htrue
      cases htrue
    · exact hlocals _ hmem
  have hroom {x : String} {d : Declaration}
      (hd : Blocks.declaration? x (b :: locals ++ [p.globalBlock]) = some d) (hg : d.global = false) :
      ∃ offset, Storage.UsesOffset ⟨t, q.name, f⟩ x offset ∧ f.RoomFor size x d.shape.words offset := by
    have hr := hlocal hd hg
    obtain ⟨offset, hoffset⟩ := h.roomFor hr
    have hnot := Program.isGlobal_of_requests hanalyze hq _ hr
    exact ⟨offset, Storage.usesOffset_of_not_isGlobal hnot hoffset.lookup, hoffset⟩
  refine ⟨?_, fun x d => hroom, ?_⟩
  · intro x d hd
    constructor
    · intro hlabel
      by_contra hg
      obtain ⟨offset, hoffset, -⟩ := hroom hd (by simpa using hg)
      exact hoffset.not_usesLabel hlabel
    · intro hg
      rcases Blocks.mem_of_declaration? hd with ⟨-, hmem⟩ | ⟨hfalse, -⟩
      · apply Storage.usesLabel_of_isGlobal
        obtain ⟨g, hglobal, heq⟩ := List.mem_map.1 hmem
        obtain ⟨rfl, -⟩ := Prod.mk.inj heq
        exact (Program.isGlobal_of_analyze hanalyze).2 (List.mem_map_of_mem hglobal)
      · rw [hg] at hfalse
        cases hfalse
  · intro x y d e m n hne hd hdg hm he heg hn
    exact h.disjoint (hlocal hd hdg) (hlocal he heg) hne hm hn

/-- In front of the body stand the parameters and the globals. -/
theorem WellFormed.among {callable : List Procedure} (h : q.WellFormed p.globalsVisible callable)
    (hglobals : (p.globals.map Global.name).Nodup) :
    Blocks.Among q.requests p.globalBlock (q.blocks p) where
  split := by
    refine ⟨_, [], rfl, ?_⟩
    intro d hd
    simp only [List.flatten_cons, List.flatten_nil, List.append_nil] at hd
    obtain ⟨x, hx, rfl⟩ := List.mem_map.1 hd
    exact List.mem_append_left _ (List.mem_map.2 ⟨x, hx, rfl⟩)
  distinct := by
    have hnames : Blocks.names (q.blocks p) = q.params.map Param.name ++ p.globals.map Global.name := by
      simp [Blocks.names, blocks, Program.globalBlock, Function.comp_def]
    rw [hnames]
    refine List.nodup_append'.2 ⟨h.nodup_params, hglobals, ?_⟩
    intro x hx hg
    exact (Global.untyped_of_foldl_after (h.untyped_of_params x hx)).1 hg

end Procedure

/-- The code of a procedure agrees with the scopes that analysis had, at every place in its body. -/
theorem Program.storage_agrees_with_scopes {p : Program} {t : Tables} (hpos : p.Positive)
    (h : analyze p = .ok t) {q : Procedure} (hq : q ∈ p.procedures) :
    ∃ f size, t.frame? q.name = some f ∧ f.size = .ok size ∧
      (∀ (k : Nat) (x : Param), q.params[k]? = some x →
        f.offset? x.name = some (saveArea + size - wordSize * k)) ∧
      ∃ arity st, p.ComesTo q arity st ∧
        ∀ bs s, Stmt.Contains (q.blocks p) q.body bs s →
          (∃ u, Stmt.Visits arity st q.body u s ∧ u.scopes = Blocks.scopes bs) ∧
          (Blocks.names bs).Nodup ∧
          (∀ x ∈ s.uses, ∃ d, Blocks.declaration? x bs = some d) ∧
          Storage.Agrees ⟨t, q.name, f⟩ size bs ∧
          Storage.Agrees ⟨t, q.name, f⟩ size (s.blocksAfter bs) := by
  obtain ⟨f, size, hf, hplaced⟩ := exists_placed_of_analyze hpos h hq
  obtain ⟨arity, callable, st, st', hcomes, hcall, hscopes, hcheck⟩ := exists_comesTo_of_analyze h hq
  refine ⟨f, size, hf, hplaced.laid.size_eq, ?_, arity, st, hcomes, ?_⟩
  · intro k x hx
    obtain ⟨slot, hslot, hoffset, -⟩ := hplaced.params k x.name (by simp [hx])
    rw [Frame.offset?, hslot, Option.map_some, hoffset]
  · intro bs s hs
    have hscoped := (analyze_eq_ok_iff_hasFrame.1 h).1
    obtain ⟨_, hq'⟩ := exists_wellFormed_of_analyze h hq
    have hstart := hq'.among hscoped.globals
    have hbody := ((Stmt.checkExact hcall q.body st st'
      (hscopes ▸ Blocks.scopes_ne_nil hstart.ne_nil)).1 hcheck).1
    rw [hscopes] at hbody
    obtain ⟨hbs, hwf, hdeclared⟩ :=
      hs.among hstart hbody fun r hr => List.mem_append_right _ hr
    obtain ⟨u, -, hvisit, hu, -⟩ := hs.visits hcall hscopes hcheck
    refine ⟨⟨u, hvisit, hu⟩, hbs.distinct, ?_, hplaced.agrees h hq hbs,
      hplaced.agrees h hq (Stmt.among_blocksAfter hbs hwf hdeclared)⟩
    intro x hx
    have hvisible := Stmt.uses_visible hwf x hx
    rw [ne_eq, Blocks.find_scopes_eq_untyped_iff, not_not] at hvisible
    exact Option.isSome_iff_exists.1 (Blocks.isSome_declaration?_iff.2 hvisible)

/-- Two blocks that declare a variable of the same name with different sizes. -/
def sharedSlot : Program where
  globals := [⟨1, "g", .single⟩]
  procedures := [
    ⟨2, "f", [⟨2, "a"⟩, ⟨2, "b"⟩], .block 2 [
      .block 3 [.declare 3 "x" .single, .assign 3 (.scalar "x") (.scalar 3 "a")],
      .block 4 [.declare 4 "x" (.array 5), .assign 5 (.element "x" (.int 5 0)) (.scalar 5 "g")]]⟩,
    ⟨7, "main", [], .ret 7 (.int 7 0)⟩]

/-- In the second block, `x` is the array. -/
theorem sharedSlot_agrees : ∃ t f size, analyze sharedSlot = .ok t ∧ t.frame? "f" = some f ∧
    f.size = .ok size ∧ f.offset? "b" = some (saveArea + size - wordSize) ∧
    Storage.Agrees ⟨t, "f", f⟩ size
      [[("x", .array 5)], [], [("a", .single), ("b", .single)], [("g", .single)]] := by
  obtain ⟨t, ht⟩ : ∃ t, analyze sharedSlot = .ok t := except_exists_ok_iff.2 (by decide +kernel)
  obtain ⟨f, size, hf, hsize, hparams, _, _, _, hplaces⟩ :=
    Program.storage_agrees_with_scopes (by decide +kernel) ht List.mem_cons_self
  have hplace : Stmt.Contains [[("a", .single), ("b", .single)], [("g", .single)]]
      (sharedSlot.procedures.head (by simp [sharedSlot])).body
      [[("x", .array 5)], [], [("a", .single), ("b", .single)], [("g", .single)]]
      (.assign 5 (.element "x" (.int 5 0)) (.scalar 5 "g")) :=
    @Stmt.Contains.block _ _ 2 [_] [] _ _
      (@Stmt.Contains.block _ _ 4 [.declare 4 "x" (.array 5)] [] _ _ (.here _ _))
  exact ⟨t, f, size, ht, hf, hsize, by simpa using hparams 1 ⟨2, "b"⟩ rfl, (hplaces _ _ hplace).2.2.2.1⟩

end ProcMips
