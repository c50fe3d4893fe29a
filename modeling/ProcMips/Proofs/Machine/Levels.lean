import ProcMips.Proofs.Machine.Growth

/-! Code that keeps the stack level: it comes from one depth to another, and in between the stack never
rises above a base but in an epilogue. Level code is put together from level code, and between a prologue
and an epilogue it makes a procedure with one depth at each place. -/

namespace ProcMips.Mips

variable {x : Sizes} {i : Instr} {d : Int}

/-- From the depth `d` to the depth `e`, with the labels that it mentions at the depths that `marks` has.
The stack does not rise above `base`, where epilogues start. -/
inductive LevelledBy (x : Sizes) (marks : List (String × Int)) (base : Int) :
    Int → List Instr → Int → Prop
  | nil {d : Int} (hd : base ≤ d) : LevelledBy x marks base d [] d
  | cons {d e : Int} {i : Instr} {k : List Instr} (hd : base ≤ d) (hi : i.plain = true)
    (hm : ∀ l ∈ i.mentions, (l, d) ∈ marks) (h : LevelledBy x marks base (d + i.growth x) k e) :
    LevelledBy x marks base d (i :: k) e
  | leave {e : Int} {k : List Instr} (h : LevelledBy x marks base base k e) :
    LevelledBy x marks base base (x.epilogue ++ k) e

namespace LevelledBy

variable {marks marks' : List (String × Int)} {base e f : Int} {k k' : List Instr}

theorem mono (h : LevelledBy x marks base d k e) (hm : marks ⊆ marks') :
    LevelledBy x marks' base d k e := by
  induction h with
  | nil hd => exact .nil hd
  | cons hd hi hl _ ih => exact .cons hd hi (fun l h => hm (hl l h)) ih
  | leave _ ih => exact .leave ih

theorem append (h : LevelledBy x marks base d k e) (h' : LevelledBy x marks base e k' f) :
    LevelledBy x marks base d (k ++ k') f := by
  induction h with
  | nil => exact h'
  | cons hd hi hl _ ih => exact .cons hd hi hl (ih h')
  | leave _ ih =>
    rw [List.append_assoc]
    exact .leave (ih h')

theorem end_eq (h : LevelledBy x marks base d k e) : e = d + x.growthOf k := by
  induction h with
  | nil => simp
  | cons _ _ _ _ ih =>
    rw [ih, Sizes.growthOf_cons, Int.add_assoc]
  | leave _ ih => rw [ih, Sizes.growthOf_append, Sizes.growthOf_epilogue, Int.zero_add]

theorem allMove (h : LevelledBy x marks base d k e) : x.AllMove k := by
  induction h with
  | nil => exact Sizes.allMove_of_plain (by simp)
  | @cons d e i k _ hi _ _ ih =>
    have hone : x.AllMove [i] := Sizes.allMove_of_plain (by simpa using hi)
    exact hone.append ih
  | leave _ ih => exact Sizes.allMove_epilogue.append ih

/-- The instruction at `j` keeps the level, or it stands in an epilogue that starts at the base. -/
theorem level_or_epilogue (h : LevelledBy x marks base d k e) {j : Nat} (hi : k[j]? = some i) :
    (base ≤ d + x.depthIn k j ∧ i.plain = true ∧ ∀ l ∈ i.mentions, (l, d + x.depthIn k j) ∈ marks) ∨
      ∃ a b, j = a + b ∧ b < x.epilogue.length ∧ x.epilogue <+: k.drop a ∧
        d + x.depthIn k a = base := by
  -- along the derivation, with the place moved back over what is taken off in front
  induction h generalizing j with
  | nil => cases hi
  | @cons d e i' k hd hi' hl _ ih =>
    cases j with
    | zero =>
      cases hi
      left
      rw [Sizes.depthIn_zero, Int.add_zero]
      exact ⟨hd, hi', hl⟩
    | succ j =>
      have hdepth (n : Nat) : d + x.depthIn (i' :: k) (n + 1) = d + i'.growth x + x.depthIn k n := by
        rw [Sizes.depthIn, List.take_succ_cons, Sizes.growthOf_cons, Int.add_assoc, Sizes.depthIn]
      rcases ih hi with h | ⟨a, b, rfl, hb, ha, hbase⟩
      · left
        rwa [hdepth]
      · exact .inr ⟨a + 1, b, by omega, hb, ha, by rw [hdepth, hbase]⟩
  | @leave e k _ ih =>
    by_cases hj : j < x.epilogue.length
    · exact .inr ⟨0, j, by omega, hj, List.prefix_append _ _, Int.add_zero _⟩
    · have hdepth (n : Nat) : x.depthIn (x.epilogue ++ k) (x.epilogue.length + n) = x.depthIn k n := by
        rw [Sizes.depthIn_append, Sizes.growthOf_epilogue, Int.zero_add]
      obtain ⟨n, rfl⟩ := Nat.exists_eq_add_of_le (Nat.le_of_not_lt hj)
      rw [getElem?_append_add] at hi
      rcases ih hi with h | ⟨a, b, rfl, hb, ha, hbase⟩
      · left
        rwa [hdepth]
      · refine .inr ⟨x.epilogue.length + a, b, by omega, hb, ?_, by rw [hdepth, hbase]⟩
        rwa [List.drop_append, List.drop_of_length_le (by omega), List.nil_append,
          Nat.add_sub_cancel_left]

end LevelledBy

theorem Sizes.mentions_epilogue {l : String} (h : i ∈ x.epilogue) : l ∉ i.mentions := by
  have hnil : x.epilogue.flatMap Instr.mentions = [] := rfl
  rw [List.flatMap_eq_nil_iff.1 hnil i h]
  exact List.not_mem_nil

/-- The prologue has its only label at its start, and no jumps. -/
theorem Sizes.eq_label_of_prologue {l l' : String} {j : Nat} (hi : (x.prologue l)[j]? = some i)
    (hl : l' ∈ i.mentions) : i = .label l' := by
  cases j with
  | zero =>
    cases hi
    rw [List.mem_singleton.1 hl]
  | succ j =>
    have hnil : (x.prologue l).tail.flatMap Instr.mentions = [] := rfl
    have hmem : i ∈ (x.prologue l).tail := List.mem_of_getElem? (i := j) hi
    rw [List.flatMap_eq_nil_iff.1 hnil i hmem] at hl
    cases hl

/-- An epilogue has its only return at its end. -/
theorem Sizes.eq_of_epilogue_return {b : Nat} {r : Register} (h : x.epilogue[b]? = some (.jr r)) :
    b = x.unwind.length := by
  obtain hlt | heq | hgt := Nat.lt_trichotomy b x.unwind.length
  · rw [epilogue, List.getElem?_append_left hlt] at h
    have hmem := List.mem_of_getElem? h
    simp [unwind, restoreRegisters, savedPlaces, Register.saved, pushReg] at hmem
  · exact heq
  · have hlt := (List.getElem?_eq_some_iff.1 h).1
    rw [epilogue, List.length_append, List.length_singleton] at hlt
    omega

/-- Each label has one depth, at which all jumps lead to it. -/
def Levelled (x : Sizes) (base d : Int) (k : List Instr) (e : Int) : Prop :=
  ∃ marks, marks.map Prod.fst = labelsOf k ∧ LevelledBy x marks base d k e

theorem levelled_epilogue {base : Int} : Levelled x base base x.epilogue base := by
  refine ⟨[], rfl, ?_⟩
  have hleave : LevelledBy x [] base base (x.epilogue ++ []) base := .leave (.nil (Int.le_refl base))
  rwa [List.append_nil] at hleave

namespace Levelled

variable {base e f : Int} {k k' : List Instr} {j : Nat}

theorem append (h : Levelled x base d k e) (h' : Levelled x base e k' f) :
    Levelled x base d (k ++ k') f := by
  obtain ⟨marks, hmarks, h⟩ := h
  obtain ⟨marks', hmarks', h'⟩ := h'
  refine ⟨marks ++ marks', by rw [List.map_append, hmarks, hmarks', labelsOf_append], ?_⟩
  exact (h.mono (List.subset_append_left _ _)).append (h'.mono (List.subset_append_right _ _))

theorem end_eq (h : Levelled x base d k e) : e = d + x.growthOf k := by
  obtain ⟨marks, -, h⟩ := h
  exact h.end_eq

theorem joins (h : Levelled x base d k e) (hu : (labelsOf k).Nodup) {l : String}
    (hi : k[j]? = some i) (hl : l ∈ i.mentions) :
    ∃ n, k[n]? = some (.label l) ∧ x.depthIn k n = x.depthIn k j := by
  obtain ⟨marks, hmarks, h⟩ := h
  have hmark {j : Nat} {i : Instr} (hi : k[j]? = some i) (hl : l ∈ i.mentions) :
      (l, d + x.depthIn k j) ∈ marks := by
    rcases h.level_or_epilogue hi with ⟨-, -, hm⟩ | ⟨a, b, rfl, hb, ha, -⟩
    · exact hm l hl
    · rw [getElem?_of_prefix_drop ha hb] at hi
      exact absurd hl (Sizes.mentions_epilogue (List.mem_of_getElem? hi))
  have hjump := hmark hi hl
  have hstands : Instr.label l ∈ k := by
    rw [← mem_labelsOf, ← hmarks]
    exact List.mem_map_of_mem (f := Prod.fst) hjump
  obtain ⟨n, hn⟩ := List.mem_iff_getElem?.1 hstands
  have hlabel := hmark hn (List.mem_singleton_self l)
  rw [← hmarks] at hu
  have hsame := congrArg Prod.snd (List.inj_on_of_nodup_map hu hlabel hjump rfl)
  exact ⟨n, hn, by simpa using hsame⟩

end Levelled

/-- The code of a procedure: what is level stands behind its prologue, and ends with an epilogue. -/
structure Sizes.Encloses (x : Sizes) (l : String) (body k : List Instr) : Prop where
  code : k = x.prologue l ++ body ++ x.epilogue
  level : Levelled x x.base x.base body x.base
  labels : (labelsOf k).Nodup

namespace Sizes.Encloses

variable {l : String} {body k : List Instr} {j : Nat}

theorem split (h : x.Encloses l body k) :
    ∃ rest, k = x.prologue l ++ rest ∧ Levelled x x.base x.base rest x.base ∧ (labelsOf rest).Nodup := by
  refine ⟨body ++ x.epilogue, by rw [h.code, List.append_assoc],
    h.level.append levelled_epilogue, ?_⟩
  have hu := h.labels
  rw [h.code, List.append_assoc, labelsOf_append] at hu
  exact hu.of_append_right

theorem consistent (h : x.Encloses l body k) : x.Consistent k where
  moves := by
    obtain ⟨rest, rfl, ⟨marks, -, hrest⟩, -⟩ := h.split
    exact (Sizes.allMove_prologue l).append hrest.allMove
  joins j i l' hi hl := by
    obtain ⟨rest, rfl, hrest, hu⟩ := h.split
    by_cases hj : j < (x.prologue l).length
    · rw [List.getElem?_append_left hj] at hi
      obtain rfl := Sizes.eq_label_of_prologue hi hl
      exact ⟨j, by rwa [List.getElem?_append_left hj], rfl⟩
    · obtain ⟨j, rfl⟩ := Nat.exists_eq_add_of_le (Nat.le_of_not_lt hj)
      rw [getElem?_append_add] at hi
      obtain ⟨n, hn, hdepth⟩ := hrest.joins hu hi hl
      refine ⟨(x.prologue l).length + n, ?_, ?_⟩
      · rwa [getElem?_append_add]
      · rw [Sizes.depthIn_append, Sizes.depthIn_append, hdepth]
  ends := by
    rw [h.code, Sizes.epilogue, ← List.append_assoc]
    exact ⟨.ra, List.getLast?_concat⟩

/-- Behind the prologue the stack is at least as deep as there, up to an epilogue. -/
theorem floor (h : x.Encloses l body k) (hi : k[j]? = some i) (hj : (x.prologue l).length ≤ j) :
    x.base ≤ x.depthIn k j ∨
      ∃ a, x.epilogue <+: k.drop a ∧ a < j ∧ j < a + x.epilogue.length := by
  obtain ⟨rest, rfl, ⟨marks, -, hrest⟩, -⟩ := h.split
  obtain ⟨j, rfl⟩ := Nat.exists_eq_add_of_le hj
  rw [List.getElem?_append_right hj, Nat.add_sub_cancel_left] at hi
  rw [Sizes.depthIn_append, Sizes.growthOf_prologue]
  rcases hrest.level_or_epilogue hi with ⟨hle, -⟩ | ⟨a, b, rfl, hb, ha, hbase⟩
  · exact .inl hle
  · cases b with
    | zero => exact .inl (Int.le_of_eq hbase.symm)
    | succ b =>
      refine .inr ⟨(x.prologue l).length + a, ?_, by omega, by omega⟩
      rwa [List.drop_append, List.drop_of_length_le (Nat.le_add_right _ _), List.nil_append,
        Nat.add_sub_cancel_left]

theorem depth_at_return (h : x.Encloses l body k) {r : Register} (hi : k[j]? = some (.jr r)) :
    x.depthIn k j = x.reserve - x.frame + wordSize := by
  obtain ⟨rest, rfl, ⟨marks, -, hrest⟩, -⟩ := h.split
  by_cases hj : j < (x.prologue l).length
  · rw [List.getElem?_append_left hj] at hi
    have hmem := List.mem_of_getElem? hi
    simp [Sizes.prologue, saveRegisters, savedPlaces, Register.saved] at hmem
  · obtain ⟨j, rfl⟩ := Nat.exists_eq_add_of_le (Nat.le_of_not_lt hj)
    rw [getElem?_append_add] at hi
    rw [Sizes.depthIn_append, Sizes.growthOf_prologue]
    rcases hrest.level_or_epilogue hi with ⟨-, hp, -⟩ | ⟨a, b, rfl, hb, ha, hbase⟩
    · cases hp
    · rw [getElem?_of_prefix_drop ha hb] at hi
      obtain rfl := Sizes.eq_of_epilogue_return hi
      rw [x.depthIn_add ((List.prefix_append _ _).trans ha), x.growthOf_unwind]
      have : x.base = x.reserve + saveArea := rfl
      omega

/-- Every epilogue starts at the depth of the body. -/
theorem depth_at_epilogue (h : x.Encloses l body k) (ha : x.epilogue <+: k.drop j) :
    x.depthIn k j = x.base := by
  have hlt : x.unwind.length < x.epilogue.length := by simp [Sizes.epilogue]
  have hreturn : k[j + x.unwind.length]? = some (.jr .ra) := by
    rw [getElem?_of_prefix_drop ha hlt, Sizes.epilogue, List.getElem?_concat_length]
  have hdepth := h.depth_at_return hreturn
  rw [x.depthIn_add ((List.prefix_append _ _).trans ha), x.growthOf_unwind] at hdepth
  unfold Sizes.base
  omega

end Sizes.Encloses

end ProcMips.Mips
