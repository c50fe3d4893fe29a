import ProcMips.Proofs.Machine.Stack

/-! How deep the stack is along the paths through the code of a procedure. A path goes over calls: the
callee gives back the words of its arguments and leaves its result, and nothing else is known behind it.
What is known along a path is true of every run that follows it. -/

namespace ProcMips.Mips

/-- The bytes below the stack pointer at the start, and the values that registers must have. The depth
is lost where the stack pointer is set to something that is not known. -/
structure StackView where
  depth : Option Int
  known : Register → Option Int

namespace StackView

/-- Nothing is known but that the stack pointer has not moved. -/
def start : StackView := ⟨some 0, fun _ => none⟩

/-- A register is overwritten, with a value that may be known. -/
def write (v : StackView) (r : Register) (n : Option Int) : StackView :=
  ⟨if r = .sp then none else v.depth, Function.update v.known r n⟩

/-- The stack pointer is lowered by `n` bytes. -/
def lower (v : StackView) (n : Option Int) : StackView :=
  ⟨do return (← v.depth) + (← n), Function.update v.known .sp none⟩

end StackView

namespace Instr

/-- What is known behind an instruction. A call of the label `l` releases `released l` bytes. -/
def track (released : String → Int) (v : StackView) : Instr → StackView
  | subi .sp .sp n => v.lower (some n)
  | addi .sp .sp n => v.lower (some (-n))
  | op .sub .sp .sp r => v.lower (v.known r)
  | op .add .sp .sp r => v.lower ((v.known r).map (-·))
  | li d n => v.write d (some n)
  | move d _ | lw d _ | op _ d _ _ | addi d _ _ | subi d _ _ => v.write d none
  | jal l => ⟨v.depth.map (· - released l), fun _ => none⟩
  | syscall => v.write .v0 none
  | _ => v

/-- Where an instruction at `pc` can lead to inside a procedure. A call leads behind itself, and a
return nowhere. -/
def LeadsTo (code : List Instr) (pc : Nat) (i : Instr) (next : Nat) : Prop :=
  match i with
  | j l => resolve code l = some next
  | beqz _ l | bnez _ l => resolve code l = some next ∨ next = pc + 1
  | jr _ => False
  | _ => next = pc + 1

end Instr

/-- The paths from `start`, with what is known at their ends. -/
inductive Path (code : List Instr) (released : String → Int) (start : Nat) : Nat → StackView → Prop
  | start : Path code released start start .start
  | step {pc next : Nat} {v : StackView} {i : Instr} (h : Path code released start pc v)
    (hi : code[pc]? = some i) (hn : i.LeadsTo code pc next) :
    Path code released start next (i.track released v)

/-- What is known is true of a core, where the stack pointer was at `entry`. -/
structure StackView.Describes (v : StackView) (entry : Int) (c : Core) : Prop where
  depth : ∀ d, v.depth = some d → c.regs .sp = entry - d
  known : ∀ r n, v.known r = some n → c.regs r = n

namespace StackView.Describes

variable {v : StackView} {entry : Int} {c c' : Core}

theorem write (h : v.Describes entry c) (r : Register) {n : Option Int} {m : Int}
    (hn : ∀ k, n = some k → m = k) : (v.write r n).Describes entry (c.set r m) where
  depth d hd := by
    rw [StackView.write] at hd
    split_ifs at hd with hr
    rw [Core.set_regs, if_neg (Ne.symm hr)]
    exact h.depth d hd
  known q k hk := by
    simp only [StackView.write, Function.update_apply] at hk
    rw [Core.set_regs]
    split_ifs at hk ⊢ with hq
    · exact hn k hk
    · exact h.known q k hk

theorem lower (h : v.Describes entry c) {n : Option Int} {m : Int}
    (hn : ∀ k, n = some k → m = c.regs .sp - k) : (v.lower n).Describes entry (c.set .sp m) where
  depth d hd := by
    simp only [StackView.lower, Option.bind_eq_bind, Option.bind_eq_some_iff, Option.pure_def,
      Option.some.injEq] at hd
    obtain ⟨e, he, k, hk, rfl⟩ := hd
    have hsp := h.depth e he
    have hm := hn k hk
    rw [Core.set_regs, if_pos rfl]
    omega
  known q k hk := by
    simp only [StackView.lower, Function.update_apply] at hk
    rw [Core.set_regs]
    split_ifs at hk ⊢ with hq
    exact h.known q k hk

/-- Nothing that is known is about memory or the console. -/
theorem of_regs (h : v.Describes entry c) (hc : c'.regs = c.regs) : v.Describes entry c' where
  depth d hd := by rw [hc, h.depth d hd]
  known r n hn := by rw [hc, h.known r n hn]

theorem syscall {inputs : List Int} (h : v.Describes entry c) (hc : c.syscall inputs = some c') :
    (v.write .v0 none).Describes entry c' := by
  have hprint (text : String) : (v.write .v0 none).Describes entry (c.print text) := by
    refine (h.write .v0 (m := c.regs .v0) (by simp)).of_regs (funext fun r => ?_)
    rw [Core.print_regs, Core.set_regs]
    split_ifs with hr
    · rw [hr]
    · rfl
  unfold Core.syscall at hc
  split_ifs at hc
  · cases hc
    exact hprint _
  · obtain ⟨n, -, rfl⟩ := Option.map_eq_some_iff.1 hc
    exact (h.write .v0 (m := n) (by simp)).of_regs rfl
  · cases hc
    exact hprint _

/-- An instruction that does not jump leaves what is known behind it. -/
theorem effect {code : List Instr} {inputs : List Int} {released : String → Int} {i : Instr}
    (h : v.Describes entry c) (he : (Core.processor code inputs).effect i c = some c') :
    (i.track released v).Describes entry c' := by
  have hwrite (d : Register) (m : Int) : (v.write d none).Describes entry (c.set d m) :=
    h.write d (by simp)
  fun_cases Instr.track released v i with
  | case1 n =>
    cases he
    exact h.lower (m := c.regs .sp - n) fun k hk => by cases hk; rfl
  | case2 n =>
    cases he
    exact h.lower (m := c.regs .sp + n) fun k hk => by cases hk; rw [Int.sub_neg]
  | case3 r =>
    cases he
    exact h.lower (m := c.regs .sp - c.regs r) fun k hk => by rw [h.known r k hk]
  | case4 r =>
    cases he
    refine h.lower (m := c.regs .sp + c.regs r) fun k hk => ?_
    obtain ⟨n, hn, rfl⟩ := Option.map_eq_some_iff.1 hk
    rw [h.known r n hn, Int.sub_neg]
  | case5 d n =>
    cases he
    exact h.write d fun k hk => Option.some.inj hk
  | case6 d | case9 d | case10 d =>
    cases he
    exact hwrite d _
  | case7 d a =>
    obtain ⟨n, -, rfl⟩ := Option.map_eq_some_iff.1 he
    exact hwrite d n
  | case8 o d =>
    obtain ⟨n, -, rfl⟩ := Option.map_eq_some_iff.1 he
    exact hwrite d n
  | case11 l => cases he
  | case12 => exact h.syscall he
  | case13 _ _ _ _ _ _ _ _ hop =>
    cases i with
    | label l =>
      cases he
      exact h
    | sw s a =>
      obtain ⟨-, he⟩ := Option.ite_none_right_eq_some.1 he
      cases he
      exact h.of_regs rfl
    | op o d l r => exact absurd rfl (hop o d l r)
    | _ => simp_all [Processor.effect]

end StackView.Describes

/-- A step that neither calls nor returns. -/
structure Machine.StepsInside (code : List Instr) (inputs : List Int) (m m' : Machine Core) : Prop where
  step : m.step code inputs = some m'
  inside : ∀ l r, code[m.pc]? ≠ some (.jal l) ∧ code[m.pc]? ≠ some (.jr r)

section

variable {code : List Instr} {inputs : List Int} {released : String → Int} {start : Nat} {entry : Int}
  {v : StackView} {m m' : Machine Core}

theorem Machine.jump_eq_some {l : String} (h : m.jump (resolve code) l = some m') :
    resolve code l = some m'.pc ∧ m'.core = m.core := by
  obtain ⟨pc, hpc, rfl⟩ := Option.map_eq_some_iff.1 h
  exact ⟨hpc, rfl⟩

/-- A step goes along a path. -/
theorem Path.stepsInside (hp : Path code released start m.pc v) (hv : v.Describes entry m.core)
    (h : m.StepsInside code inputs m') :
    ∃ v', Path code released start m'.pc v' ∧ v'.Describes entry m'.core := by
  obtain ⟨hstep, hinside⟩ := h
  cases hi : code[m.pc]? with
  | none =>
    rw [Machine.step, Processor.step, Processor.stepBy, hi] at hstep
    cases hstep
  | some i =>
    refine ⟨i.track released v, ?_⟩
    suffices h : i.LeadsTo code m.pc m'.pc ∧ (i.track released v).Describes entry m'.core from
      ⟨hp.step hi h.1, h.2⟩
    rw [Machine.step, Processor.step, Processor.stepBy, hi] at hstep
    cases i with
    | jal l => exact absurd hi (hinside l .ra).1
    | jr r => exact absurd hi (hinside "" r).2
    | j l =>
      obtain ⟨hl, hcore⟩ := Machine.jump_eq_some hstep
      exact ⟨hl, hv.of_regs (by rw [hcore])⟩
    | beqz r l =>
      dsimp only at hstep
      split_ifs at hstep
      · cases hstep
        exact ⟨.inr rfl, hv⟩
      · obtain ⟨hl, hcore⟩ := Machine.jump_eq_some hstep
        exact ⟨.inl hl, hv.of_regs (by rw [hcore])⟩
    | bnez r l =>
      dsimp only at hstep
      split_ifs at hstep
      · obtain ⟨hl, hcore⟩ := Machine.jump_eq_some hstep
        exact ⟨.inl hl, hv.of_regs (by rw [hcore])⟩
      · cases hstep
        exact ⟨.inr rfl, hv⟩
    | _ =>
      obtain ⟨c, hc, rfl⟩ := Option.map_eq_some_iff.1 hstep
      exact ⟨rfl, hv.effect hc⟩

/-- What is known along the paths holds in every run that neither calls nor returns. -/
theorem Path.exists_of_run {c : Core}
    (h : Relation.ReflTransGen (Machine.StepsInside code inputs) ⟨start, c⟩ m) :
    ∃ v, Path code released start m.pc v ∧ v.Describes (c.regs .sp) m.core := by
  induction h with
  | refl =>
    refine ⟨.start, .start, ⟨fun d hd => ?_, fun r n hn => ?_⟩⟩
    · cases hd
      rw [Int.sub_zero]
    · cases hn
  | tail _ hstep ih =>
    obtain ⟨v, hp, hv⟩ := ih
    exact hp.stepsInside hv hstep

end

end ProcMips.Mips
