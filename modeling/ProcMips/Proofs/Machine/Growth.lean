import ProcMips.Proofs.Machine.Depth

/-! The depth of the stack at each place in the code of a procedure. It is what the instructions in front
of the place add up to, and it is what is known along all paths to the place if the stack pointer is
moved by known numbers only and jumps lead to labels of the same depth. -/

namespace ProcMips.Mips

/-- What the code of a procedure moves the stack pointer by: its frame, what it reserves below its
arguments, and what the procedure with a label releases. -/
structure Sizes where
  frame : Int
  reserve : Int
  released : String → Int

namespace Instr

/-- The bytes that an instruction adds to the stack. Behind a return the code goes on at the depth in
front of the epilogue. -/
def growth (x : Sizes) : Instr → Int
  | subi .sp .sp n => n
  | addi .sp .sp n => -n
  | op .sub .sp .sp _ => x.reserve
  | op .add .sp .sp _ => -x.frame
  | jal l => -x.released l
  | jr _ => x.frame + saveArea - wordSize
  | _ => 0

/-- The stack pointer is moved by constants only, and the code goes on. -/
def plain : Instr → Bool
  | subi d l _ | addi d l _ => d ≠ .sp ∨ l = .sp
  | op _ d _ _ | li d _ | move d _ | lw d _ => d ≠ .sp
  | jr _ => false
  | _ => true

/-- The labels that are put up or jumped to. -/
def mentions : Instr → List String
  | label l | j l | beqz _ l | bnez _ l => [l]
  | _ => []

end Instr

namespace Sizes

variable (x : Sizes)

/-- The depth in the body of the procedure. -/
def base : Int := x.reserve + saveArea

def prologue (l : String) : List Instr :=
  [.label l, .li .t0 x.reserve, .op .sub .sp .sp .t0] ++ saveRegisters ++ [.move .fp .sp]

/-- An epilogue up to its return. -/
def unwind : List Instr :=
  restoreRegisters ++ [.li .t1 x.frame, .op .add .sp .sp .t1] ++ pushReg .t0

def epilogue : List Instr := x.unwind ++ [.jr .ra]

/-- The register that an instruction moves the stack pointer by, with the number that must be in it. -/
def operand : Instr → Option (Register × Int)
  | .op .sub .sp .sp r => some (r, x.reserve)
  | .op .add .sp .sp r => some (r, x.frame)
  | _ => none

def growthOf : List Instr → Int
  | [] => 0
  | i :: k => i.growth x + growthOf k

/-- The depth in front of the instruction at `j`. -/
def depthIn (k : List Instr) (j : Nat) : Int := x.growthOf (k.take j)

@[simp] theorem growthOf_nil : x.growthOf [] = 0 := rfl

@[simp] theorem growthOf_cons (i : Instr) (k : List Instr) :
    x.growthOf (i :: k) = i.growth x + x.growthOf k := rfl

@[simp] theorem growthOf_append (k k' : List Instr) :
    x.growthOf (k ++ k') = x.growthOf k + x.growthOf k' := by
  induction k with
  | nil => exact (Int.zero_add _).symm
  | cons i k ih => rw [List.cons_append, growthOf_cons, ih, growthOf_cons, Int.add_assoc]

theorem growthOf_prologue (l : String) : x.growthOf (x.prologue l) = x.base := by
  have hsave : x.growthOf saveRegisters = saveArea := rfl
  simp only [prologue, growthOf_append, hsave, growthOf_cons, Instr.growth, growthOf_nil, base]
  omega

theorem growthOf_unwind : x.growthOf x.unwind = wordSize - saveArea - x.frame := by
  have hrestore : x.growthOf restoreRegisters = -saveArea := rfl
  have hpush : x.growthOf (pushReg .t0) = wordSize := rfl
  simp only [unwind, growthOf_append, hrestore, hpush, growthOf_cons, Instr.growth, growthOf_nil]
  omega

theorem growthOf_epilogue : x.growthOf x.epilogue = 0 := by
  simp only [epilogue, growthOf_append, growthOf_unwind, growthOf_cons, Instr.growth, growthOf_nil]
  omega

@[simp] theorem depthIn_zero (k : List Instr) : x.depthIn k 0 = 0 := rfl

theorem depthIn_succ {k : List Instr} {j : Nat} {i : Instr} (hi : k[j]? = some i) :
    x.depthIn k (j + 1) = x.depthIn k j + i.growth x := by
  rw [depthIn, List.take_add_one, hi, Option.toList_some, growthOf_append, growthOf_cons, growthOf_nil,
    Int.add_zero, depthIn]

theorem depthIn_append (k k' : List Instr) (n : Nat) :
    x.depthIn (k ++ k') (k.length + n) = x.growthOf k + x.depthIn k' n := by
  rw [depthIn, List.take_length_add_append, growthOf_append, depthIn]

/-- Code adds the same number of bytes wherever it stands. -/
theorem depthIn_add {k c : List Instr} {j : Nat} (h : c <+: k.drop j) :
    x.depthIn k (j + c.length) = x.depthIn k j + x.growthOf c := by
  obtain ⟨rest, hrest⟩ := h
  rw [depthIn, List.take_add, ← hrest, List.take_left, growthOf_append, depthIn]

end Sizes

variable {x : Sizes} {v : StackView} {i : Instr} {d : Int}

theorem Instr.growth_of_mem_mentions {l : String} (h : l ∈ i.mentions) : i.growth x = 0 := by
  cases i with
  | label | j | beqz | bnez => rfl
  | _ => cases h

theorem Instr.leadsTo_cases {code : List Instr} {pc next : Nat} (h : i.LeadsTo code pc next) :
    (next = pc + 1 ∧ ∀ r, i ≠ .jr r) ∨ ∃ l ∈ i.mentions, resolve code l = some next := by
  cases i with
  | j l => exact .inr ⟨l, List.mem_singleton_self l, h⟩
  | beqz r l | bnez r l =>
    rcases h with h | h
    · exact .inr ⟨l, List.mem_singleton_self l, h⟩
    · exact .inl ⟨h, by simp⟩
  | jr r => exact absurd h id
  | _ => exact .inl ⟨h, by simp⟩

namespace StackView

theorem depth_lower {n : Int} (hv : v.depth = some d) : (v.lower (some n)).depth = some (d + n) := by
  simp [lower, hv]

theorem depth_write {r : Register} (n : Option Int) (hr : r ≠ .sp) : (v.write r n).depth = v.depth :=
  if_neg hr

theorem depth_track_plain (hv : v.depth = some d) (hi : i.plain = true) :
    (i.track x.released v).depth = some (d + i.growth x) := by
  fun_cases Instr.track x.released v i with
  | case1 n | case2 n => exact depth_lower hv
  | case3 r | case4 r => cases hi
  | case5 r | case6 r | case7 r =>
    have hr : r ≠ .sp := by simpa [Instr.plain] using hi
    rw [depth_write _ hr, hv]
    simp [Instr.growth]
  | case8 o r | case9 r | case10 r =>
    have hr : r ≠ .sp := by
      intro hr
      simp_all [Instr.plain]
    rw [depth_write _ hr, hv]
    simp [Instr.growth, hr]
  | case11 l => simp [Instr.growth, hv, Int.sub_eq_add_neg]
  | case12 => simp [Instr.growth, depth_write, hv]
  | case13 =>
    have hzero : i.growth x = 0 := by
      cases i with
      | jr r => cases hi
      | _ => simp_all [Instr.growth]
    rw [hzero, Int.add_zero, hv]

end StackView

theorem Sizes.operand_of_plain (hi : i.plain = true) : x.operand i = none := by
  fun_cases Sizes.operand x i with
  | case1 | case2 => cases hi
  | case3 => rfl

/-- What is in the register is what the stack pointer is moved by. -/
def Sizes.Known (x : Sizes) (v : StackView) (i : Instr) : Prop :=
  ∀ r n, x.operand i = some (r, n) → v.known r = some n

/-- The stack pointer is moved by constants, by a number of `x` in a register that was just set to it,
and where the code ends by nothing. -/
structure Sizes.Moves (x : Sizes) (k : List Instr) (j : Nat) (i : Instr) : Prop where
  kind : i.plain = true ∨ i = .jr .ra ∨ ∃ r n, x.operand i = some (r, n)
  sets : ∀ r n, x.operand i = some (r, n) → ∃ m, j = m + 1 ∧ k[m]? = some (.li r n)

/-- The depths of the instructions fit together. -/
structure Sizes.Consistent (x : Sizes) (k : List Instr) : Prop where
  moves : ∀ j i, k[j]? = some i → x.Moves k j i
  joins : ∀ j i l, k[j]? = some i → l ∈ i.mentions →
    ∃ n, k[n]? = some (.label l) ∧ x.depthIn k n = x.depthIn k j
  ends : ∃ r, k.getLast? = some (.jr r)

theorem StackView.depth_track_operand {r : Register} {n : Int} (hv : v.depth = some d)
    (ho : x.operand i = some (r, n)) (hn : v.known r = some n) :
    (i.track x.released v).depth = some (d + i.growth x) := by
  fun_cases Sizes.operand x i with
  | case1 | case2 =>
    cases ho
    rw [Instr.track, hn]
    exact depth_lower hv
  | case3 => simp_all [Sizes.operand]

theorem StackView.depth_track {k : List Instr} {j : Nat} (hv : v.depth = some d) (hk : x.Known v i)
    (hi : x.Moves k j i) (hr : ∀ r, i ≠ .jr r) :
    (i.track x.released v).depth = some (d + i.growth x) := by
  rcases hi.kind with hp | rfl | ⟨r, n, ho⟩
  · exact depth_track_plain hv hp
  · exact absurd rfl (hr .ra)
  · exact depth_track_operand hv ho (hk r n ho)

theorem CodeAt.isPrefix {code k : List Instr} {pc : Nat} (h : CodeAt code pc k) :
    k <+: code.drop pc := by
  induction k generalizing pc with
  | nil => exact List.nil_prefix
  | cons i k ih =>
    obtain ⟨hlt, hi⟩ := List.getElem?_eq_some_iff.1 h.1
    rw [List.drop_eq_getElem_cons hlt, hi, List.prefix_cons_inj]
    exact ih h.2

theorem getElem?_of_prefix_drop {k k' : List Instr} {a b : Nat} (h : k' <+: k.drop a)
    (hb : b < k'.length) : k[a + b]? = k'[b]? := by
  obtain ⟨rest, hrest⟩ := h
  rw [← List.getElem?_drop, ← hrest, List.getElem?_append_left hb]

theorem getElem?_append_add (k k' : List Instr) (n : Nat) : (k ++ k')[k.length + n]? = k'[n]? := by
  rw [List.getElem?_append_right (Nat.le_add_right _ _), Nat.add_sub_cancel_left]

theorem CodeAt.getElem?_eq {code k : List Instr} {pc j : Nat} (h : CodeAt code pc k)
    (hi : k[j]? = some i) : code[pc + j]? = some i := by
  rw [getElem?_of_prefix_drop h.isPrefix (List.getElem?_eq_some_iff.1 hi).1, hi]

namespace Sizes.Consistent

variable {code k : List Instr} {start pc j n : Nat}

theorem known_of_succ (h : x.Consistent k) {i' : Instr} (hi : k[j]? = some i)
    (hi' : k[j + 1]? = some i') : x.Known (i.track x.released v) i' := by
  intro r n ho
  obtain ⟨m, hm, hli⟩ := (h.moves _ _ hi').sets r n ho
  obtain rfl : j = m := by omega
  cases hi.symm.trans hli
  simp [Instr.track, StackView.write]

theorem exists_next (h : x.Consistent k) (hi : k[j]? = some i) (hr : ∀ r, i ≠ .jr r) :
    ∃ i', k[j + 1]? = some i' := by
  obtain ⟨r, hlast⟩ := h.ends
  obtain ⟨hlt, -⟩ := List.getElem?_eq_some_iff.1 hi
  by_cases hend : j + 1 < k.length
  · exact ⟨_, List.getElem?_eq_getElem hend⟩
  rw [List.getLast?_eq_getElem?, show k.length - 1 = j by omega, hi] at hlast
  exact absurd (Option.some.inj hlast) (hr r)

/-- Every path stays in the code, and has the depth of the place where it ends. -/
theorem path (h : x.Consistent k) (hu : (labelsOf code).Nodup) (hat : CodeAt code start k)
    (hp : Path code x.released start pc v) :
    ∃ j i, k[j]? = some i ∧ pc = start + j ∧ v.depth = some (x.depthIn k j) ∧ x.Known v i := by
  induction hp with
  | start =>
    obtain ⟨r, hlast⟩ := h.ends
    obtain ⟨i, hi⟩ : ∃ i, k[0]? = some i := by
      cases k with
      | nil => cases hlast
      | cons i k => exact ⟨i, rfl⟩
    refine ⟨0, i, hi, rfl, rfl, fun r n ho => ?_⟩
    obtain ⟨m, hm, -⟩ := (h.moves _ _ hi).sets r n ho
    cases hm
  | @step pc next v i _ hcode hlead ih =>
    obtain ⟨j, i', hi, rfl, hd, hk⟩ := ih
    obtain rfl : i = i' := Option.some.inj (hcode.symm.trans (hat.getElem?_eq hi))
    rcases Instr.leadsTo_cases hlead with ⟨rfl, hr⟩ | ⟨l, hl, hres⟩
    · obtain ⟨i', hnext⟩ := h.exists_next hi hr
      refine ⟨j + 1, _, hnext, rfl, ?_, h.known_of_succ hi hnext⟩
      rw [x.depthIn_succ hi]
      exact StackView.depth_track hd hk (h.moves j i hi) hr
    · obtain ⟨n, hn, hdepth⟩ := h.joins j i l hi hl
      obtain rfl : start + n = next :=
        Option.some.inj ((resolve_eq_some hu (hat.getElem?_eq hn)).symm.trans hres)
      refine ⟨n, _, hn, rfl, ?_, nofun⟩
      have hr (r : Register) : i ≠ .jr r := by
        rintro rfl
        cases hl
      rw [hdepth, StackView.depth_track hd hk (h.moves j i hi) hr, Instr.growth_of_mem_mentions hl,
        Int.add_zero]

end Sizes.Consistent

namespace Sizes

variable {k k' : List Instr}

/-- What stands in front of code does not matter to it. -/
theorem Moves.append_left {j : Nat} (h : x.Moves k j i) (k' : List Instr) :
    x.Moves (k' ++ k) (k'.length + j) i where
  kind := h.kind
  sets r n ho := by
    obtain ⟨m, rfl, hm⟩ := h.sets r n ho
    refine ⟨k'.length + m, rfl, ?_⟩
    rwa [getElem?_append_add]

theorem Moves.append_right {j : Nat} (h : x.Moves k j i) (k' : List Instr) :
    x.Moves (k ++ k') j i where
  kind := h.kind
  sets r n ho := by
    obtain ⟨m, hj, hm⟩ := h.sets r n ho
    exact ⟨m, hj, by rwa [List.getElem?_append_left (List.getElem?_eq_some_iff.1 hm).1]⟩

/-- All instructions move the stack pointer like that. -/
def AllMove (x : Sizes) (k : List Instr) : Prop := ∀ j i, k[j]? = some i → x.Moves k j i

theorem AllMove.append (h : x.AllMove k) (h' : x.AllMove k') : x.AllMove (k ++ k') := by
  intro j i hi
  by_cases hj : j < k.length
  · rw [List.getElem?_append_left hj] at hi
    exact (h j i hi).append_right k'
  · rw [List.getElem?_append_right (by omega)] at hi
    have := (h' _ i hi).append_left k
    rwa [show k.length + (j - k.length) = j by omega] at this

theorem allMove_of_plain (h : ∀ i ∈ k, i.plain = true) : x.AllMove k := by
  intro j i hi
  have hp := h i (List.mem_of_getElem? hi)
  refine ⟨.inl hp, fun r n ho => ?_⟩
  rw [operand_of_plain hp] at ho
  cases ho

theorem allMove_operand {r : Register} {n : Int} (ho : x.operand i = some (r, n)) (hr : r ≠ .sp) :
    x.AllMove [.li r n, i] := by
  intro j i' hi
  match j with
  | 0 =>
    cases hi
    exact ⟨.inl (by simpa [Instr.plain] using hr), nofun⟩
  | 1 =>
    cases hi
    refine ⟨.inr (.inr ⟨r, n, ho⟩), fun r' n' ho' => ⟨0, rfl, ?_⟩⟩
    cases ho.symm.trans ho'
    rfl

theorem allMove_return : x.AllMove [.jr .ra] := by
  intro j i hi
  match j with
  | 0 =>
    cases hi
    exact ⟨.inr (.inl rfl), nofun⟩

theorem allMove_prologue (l : String) : x.AllMove (x.prologue l) := by
  have hlabel : x.AllMove [.label l] := allMove_of_plain (by simp [Instr.plain])
  have hreserve : x.AllMove [.li .t0 x.reserve, .op .sub .sp .sp .t0] :=
    allMove_operand rfl (by decide)
  exact ((hlabel.append hreserve).append (allMove_of_plain (by decide))).append
    (allMove_of_plain (by decide))

theorem allMove_epilogue : x.AllMove x.epilogue := by
  have hframe : x.AllMove [.li .t1 x.frame, .op .add .sp .sp .t1] := allMove_operand rfl (by decide)
  exact (((allMove_of_plain (by decide)).append hframe).append (allMove_of_plain (by decide))).append
    allMove_return

end Sizes

end ProcMips.Mips
