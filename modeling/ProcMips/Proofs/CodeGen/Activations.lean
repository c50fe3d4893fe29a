import ProcMips.Proofs.CodeGen.Expressions
import ProcMips.Proofs.Machine.SaveArea

/-! One call of a procedure while it runs. Its frame lies under the words of its caller, the save area
keeps where the call came from, and a return leaves the caller with one more word on its stack. -/

namespace ProcMips

open Mips

/-- A call of a procedure. Its frame is at `base`, under the highest word of the arguments that
`caller` had still to push. -/
structure Activation where
  storage : Storage
  base : Int
  size : Int
  caller : Core
  ra : Nat
  laid : storage.frame.Laid size
  top : caller.regs .sp = base + saveArea + size
  aligned : 4 ∣ caller.regs .sp

/-- The core of a call between two statements of the procedure. -/
structure Running (code : List Instr) (a : Activation) (σ : RunState) (c : Core) : Prop where
  ready : Ready code a.storage a.base σ c
  sp : c.regs .sp = a.base
  ra : c.mem (.stack (a.base + saveArea)) = a.ra
  fp : c.mem (.stack (a.base + wordSize)) = a.caller.regs .fp
  above : ∀ n, a.caller.regs .sp < n → c.mem (.stack n) = a.caller.mem (.stack n)

variable {code : List Instr} {inputs : List Int} {a : Activation} {σ σ' : RunState} {p q : Nat}
  {c c' : Core} {w : World}

theorem Storage.epilogue_eq_ok {s : Storage} {size : Int} {n m : Nat} {k : List Instr}
    (hsize : s.frame.size = .ok size) (hk : s.epilogue n = .ok (k, m)) :
    k = restoreRegisters ++ [.li .t1 size, .op .add .sp .sp .t1] ++ pushReg .t0 ++ [.jr .ra] := by
  obtain ⟨size', _, hword, rfl, -⟩ := Storage.code_epilogue_eq_ok.1 hk
  obtain ⟨hsize', -⟩ := word_eq_ok hword
  obtain rfl : size = size' := Except.ok.inj (hsize.symm.trans hsize')
  rfl

namespace Running

/-- Only variables change: the save area and the words above the frame stay as they are. -/
theorem change (h : Running code a σ c) (hready : Ready code a.storage a.base σ' c')
    (hsp : c'.regs .sp = a.base)
    (hmem : ∀ n, a.base < n → n ≤ a.base + 40 ∨ a.base + 40 + a.size < n →
      c'.mem (.stack n) = c.mem (.stack n)) : Running code a σ' c' := by
  have htop := a.top
  have hsize := a.laid.nonneg
  unfold saveArea at htop
  refine ⟨hready, hsp, ?_, ?_, fun n hn => ?_⟩
  · rw [hmem _ (by unfold saveArea; omega) (.inl (by unfold saveArea; omega))]
    exact h.ra
  · rw [hmem _ (by unfold wordSize; omega) (.inl (by unfold wordSize; omega))]
    exact h.fp
  · rw [hmem n (by omega) (.inr (by omega))]
    exact h.above n hn

/-- Expressions leave the frame as it is. -/
theorem after {locals : Env} {w₀ : World} (h : Running code a ⟨locals, w₀⟩ c)
    (hl : Leaves code inputs a.storage.tables p q c [] w c') : Running code a ⟨locals, w⟩ c' := by
  have hsp := hl.pushes.sp
  rw [h.sp] at hsp
  refine h.change (h.ready.after a.laid hl) (by simpa using hsp) fun n hn _ => ?_
  exact hl.pushes.above n (by rw [h.sp]; exact hn)

theorem assign {x : String} {index : Option Int} {n : Int} (h : Running code a σ c)
    (ha : Exec.assign x index n σ = some ((), σ')) :
    (a.storage.cell a.base x (index.getD 0)).accessible code = true ∧
      Running code a σ' (c.store (a.storage.cell a.base x (index.getD 0)) n) := by
  obtain ⟨haccess, hready, hmem⟩ := h.ready.assign a.laid ha
  exact ⟨haccess, h.change hready h.sp fun n _ hn => hmem n hn⟩

variable (inputs) in
/-- The epilogue gives the frame back, and returns with the value in `$t0`. -/
theorem returns {r : Int} {n m : Nat} {k : List Instr} (h : Running code a σ c)
    (hr : c.regs .t0 = r) (hk : a.storage.epilogue n = .ok (k, m)) (hat : CodeAt code p k) :
    ∃ c', Machine.Reaches code inputs ⟨p, c⟩ ⟨a.ra, c'⟩ ∧ a.caller.Pushes [r] c' ∧
      σ.world.Matches code a.storage.tables c' := by
  rw [Storage.epilogue_eq_ok a.laid.size_eq hk] at hat
  obtain ⟨hat, hatj, -⟩ := codeAt_append.1 hat
  obtain ⟨c₁, hrestore, hc₁⟩ := effects_restoreRegisters code inputs h.ready.aligned
  let c₂ := (c₁.set .t1 a.size).set .sp (a.caller.regs .sp)
  have hadd : (Core.processor code inputs).effects [.li .t1 a.size, .op .add .sp .sp .t1] c₁ = some c₂ := by
    have hsp : c₁.regs .sp + a.size = a.caller.regs .sp := by rw [hc₁.sp, h.sp, a.top]
    simp [Processor.effects, Processor.effect, Core.processor, Op.apply, c₂, hsp]
  have hpush : (Core.processor code inputs).effects (pushReg .t0) c₂ = some (c₂.push .t0) :=
    effects_pushReg (by simp) (by simpa [c₂] using a.aligned)
  have heffects : (Core.processor code inputs).effects (restoreRegisters ++ [.li .t1 a.size, .op .add .sp .sp .t1] ++
      pushReg .t0) c = some (c₂.push .t0) := by
    rw [effects_append, effects_append, hrestore, Option.bind_some, hadd, Option.bind_some, hpush]
  have hra : (c₂.push .t0).regs .ra = a.ra := by
    have := hc₁.ra
    rw [h.sp, h.ra] at this
    simpa [c₂] using this
  refine ⟨c₂.push .t0, (reaches_of_effects hat heffects).trans (reaches_jr hatj (target_of_regs hra)), ?_, ?_⟩
  · have hempty : a.caller.Pushes [] c₂ := by
      refine ⟨by simp [c₂], ?_, by simp, fun n hn => ?_⟩
      · have := hc₁.fp
        rw [h.sp, h.fp] at this
        simpa [c₂] using this
      · rw [← h.above n hn, ← hc₁.mem]
        rfl
    have hvalue : c₂.regs .t0 = r := by simpa [c₂, hr] using hc₁.t0
    have hpushed := hempty.push .t0
    rwa [hvalue] at hpushed
  · have hset : c₁.SameWorld c₂ := ⟨fun _ _ => rfl, rfl, rfl⟩
    exact h.ready.world.congr ((hc₁.world.trans hset).trans (Core.sameWorld_push c₂ .t0))

end Running

/-- How a piece of the body ends: behind it, or where the call returns to. -/
def Finishes (code : List Instr) (inputs : List Int) (a : Activation) (p q : Nat) (c : Core) :
    Option Int → RunState → Prop
  | none, σ => ∃ c', Machine.Reaches code inputs ⟨p, c⟩ ⟨q, c'⟩ ∧ Running code a σ c'
  | some r, σ => ∃ c', Machine.Reaches code inputs ⟨p, c⟩ ⟨a.ra, c'⟩ ∧ a.caller.Pushes [r] c' ∧
    σ.world.Matches code a.storage.tables c'

end ProcMips
