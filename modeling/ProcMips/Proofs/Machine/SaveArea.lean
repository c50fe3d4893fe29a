import ProcMips.Proofs.Machine.Stack

/-! The save area. Saving puts the return address and the frame pointer of the caller at the two ends
of it, with the other registers between them; restoring reads them again, wherever the stack pointer
has been since. -/

namespace ProcMips.Mips

theorem keptPlaces_inside {p : Register × Int} (h : p ∈ keptPlaces) :
    4 ∣ p.2 ∧ wordSize ≤ p.2 ∧ p.2 ≤ saveArea := by
  have hall : ∀ p ∈ keptPlaces, 4 ∣ p.2 ∧ wordSize ≤ p.2 ∧ p.2 ≤ saveArea := by decide
  exact hall p h

namespace Core

/-- A core behind the save area that it has just filled. -/
structure Saved (c c' : Core) : Prop where
  regs : c'.regs = Function.update c.regs .sp (c.regs .sp - saveArea)
  ra : c'.mem (.stack (c.regs .sp)) = c.regs .ra
  fp : c'.mem (.stack (c.regs .sp - saveArea + wordSize)) = c.regs .fp
  above : ∀ a, c.regs .sp < a → c'.mem (.stack a) = c.mem (.stack a)
  world : c.SameWorld c'

/-- A core that has taken the registers from the save area above its stack pointer. -/
structure Restored (c c' : Core) : Prop where
  sp : c'.regs .sp = c.regs .sp + saveArea
  fp : c'.regs .fp = c.mem (.stack (c.regs .sp + wordSize))
  ra : c'.regs .ra = c.mem (.stack (c.regs .sp + saveArea))
  t0 : c'.regs .t0 = c.regs .t0
  mem : c'.mem = c.mem
  world : c.SameWorld c'

end Core

variable (code : List Instr) (inputs : List Int) {c : Core}

theorem effects_saveRegisters (ha : 4 ∣ c.regs .sp) :
    ∃ c', (Core.processor code inputs).effects saveRegisters c = some c' ∧ c.Saved c' := by
  have hapart : keptPlaces.Pairwise fun p q => p.2 ≠ q.2 := by decide
  obtain ⟨c', heffects, h⟩ := (Core.memory code inputs).effects_saveRegisters (c := c) hapart fun p hp =>
    Int.dvd_add (Int.dvd_sub ha (by decide : (4 : Int) ∣ saveArea)) (keptPlaces_inside hp).1
  have hsp : c'.regs .sp = c.regs .sp - saveArea := h.sp
  have hword {i : Nat} {r : Register} (hr : kept[i]? = some r) :
      c'.mem (.stack (c.regs .sp - saveArea + (saveArea - wordSize * i))) = c.regs r := by
    rw [← hsp]
    exact h.words i r hr
  refine ⟨c', heffects, ?_, ?_, ?_, fun a ha => ?_, fun l n => ?_, ?_, ?_⟩
  · funext q
    rw [Function.update_apply]
    split_ifs with hq
    · rw [hq, hsp]
    · exact h.regs q hq
  · simpa using hword (i := 0) rfl
  · simpa [saveArea, wordSize] using hword (i := 9) rfl
  · refine h.unchanged (fun d => d.mem (.stack a)) (fun _ _ => rfl) fun d n p hp => ?_
    have hne : a ≠ c'.regs .sp + p.2 := by
      have := (keptPlaces_inside hp).2.2
      omega
    exact (Core.store_mem d _ _ n).trans (if_neg fun heq => hne (Location.stack.inj heq))
  · exact h.unchanged (fun d => d.mem (.data l n)) (fun _ _ => rfl) fun d m _ _ =>
      (Core.store_mem d _ _ m).trans (if_neg (by simp))
  · exact h.unchanged Core.reads (fun _ _ => rfl) fun _ _ _ _ => rfl
  · exact h.unchanged Core.printed (fun _ _ => rfl) fun _ _ _ _ => rfl

theorem effects_restoreRegisters (ha : 4 ∣ c.regs .sp) :
    ∃ c', (Core.processor code inputs).effects restoreRegisters c = some c' ∧ c.Restored c' := by
  obtain ⟨c', heffects, h⟩ := (Core.memory code inputs).effects_restoreRegisters (c := c) fun p hp =>
    Int.dvd_add ha (keptPlaces_inside hp).1
  have hmem : c'.mem = c.mem := h.unchanged Core.mem fun _ _ _ => rfl
  exact ⟨c', heffects, h.sp, h.words 9 .fp rfl, h.words 0 .ra rfl, h.regs .t0 (by decide) (by decide),
    hmem, fun _ _ => by rw [hmem], h.unchanged Core.reads fun _ _ _ => rfl,
    h.unchanged Core.printed fun _ _ _ => rfl⟩

end ProcMips.Mips
