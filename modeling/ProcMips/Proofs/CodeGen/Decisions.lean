import ProcMips.CodeGen
import ProcMips.Proofs.Machine.Execution

/-! The pieces of code that decide on a truth value, on any processor. They leave the word that stands for
it in `$s0`. -/

namespace ProcMips

open Mips

variable {σ W : Type} {P : Processor σ W} {code : List Instr} {p : Nat} {c : σ}

/-- What stands behind both operands of a short circuit. -/
def decisionCode (d : Bool) (decided done : String) : List Instr :=
  [if d then .bnez .t0 decided else .beqz .t0 decided, .li .s0 (truthWord !d), .j done,
    .label decided, .li .s0 (truthWord d), .label done]

/-- An operand that decides leads to the end. -/
theorem reaches_decided {d : Bool} {decided done : String}
    (hat : CodeAt code p (decisionCode d decided done)) :
    P.Reaches code ⟨p + 3, c⟩ ⟨p + 6, P.set c .s0 (P.word (truthWord d))⟩ := by
  obtain ⟨-, -, -, hdecided⟩ := hat
  exact reaches_of_effects hdecided rfl

/-- Behind the last operand, its truth value is that of the whole. -/
theorem reaches_undecided {d b : Bool} {decided done : String} (hu : (labelsOf code).Nodup)
    (hat : CodeAt code p (decisionCode d decided done)) (hb : P.isTrue (P.regs c .t0) = b) :
    P.Reaches code ⟨p, c⟩ ⟨p + 6, P.set c .s0 (P.word (truthWord b))⟩ := by
  obtain ⟨htest, hli, hj, hdecided, -, hdone, -⟩ := id hat
  have hbranch : P.Reaches code ⟨p, c⟩ ⟨if P.isTrue (P.regs c .t0) = d then p + 3 else p + 1, c⟩ :=
    reaches_branch htest (resolve_eq_some hu hdecided)
  rw [hb] at hbranch
  by_cases hd : b = d
  · subst hd
    rw [if_pos rfl] at hbranch
    exact hbranch.trans (reaches_decided hat)
  · rw [if_neg hd] at hbranch
    rw [← Bool.eq_not_of_ne hd] at hli
    refine hbranch.trans ((Processor.Reaches.of_step (step_of_effect hli rfl)).trans ?_)
    apply (reaches_j hj (resolve_eq_some hu hdone)).trans
    exact .of_step (step_of_effect hdone rfl)

/-- A truth value is turned round in two writes, of which the second one is left out if it is true. -/
theorem reaches_negated {b : Bool} {done : String} (hu : (labelsOf code).Nodup)
    (hat : CodeAt code p [.li .s0 0, .bnez .t0 done, .li .s0 1, .label done])
    (hb : P.isTrue (P.regs (P.set c .s0 (P.word 0)) .t0) = b) :
    P.Reaches code ⟨p, c⟩ ⟨p + 4,
      if b then P.set c .s0 (P.word 0) else P.set (P.set c .s0 (P.word 0)) .s0 (P.word 1)⟩ := by
  obtain ⟨hzero, hbnez, hone, hdone, -⟩ := hat
  have hstart : P.Reaches code ⟨p, c⟩ ⟨p + 1, P.set c .s0 (P.word 0)⟩ :=
    .of_step (step_of_effect hzero rfl)
  have hbranch : P.Reaches code ⟨p + 1, P.set c .s0 (P.word 0)⟩
      ⟨if P.isTrue (P.regs (P.set c .s0 (P.word 0)) .t0) = true then p + 3 else p + 2,
        P.set c .s0 (P.word 0)⟩ := reaches_branch (d := true) hbnez (resolve_eq_some hu hdone)
  have hend (c : σ) : P.Reaches code ⟨p + 3, c⟩ ⟨p + 4, c⟩ := .of_step (step_of_effect hdone rfl)
  rw [hb] at hbranch
  cases b with
  | true => exact hstart.trans (hbranch.trans (hend _))
  | false => exact hstart.trans (hbranch.trans (.trans (.of_step (step_of_effect hone rfl)) (hend _)))

end ProcMips
