import ProcMips.Proofs.Machine.Scratch

/-! The save area on flat memory. Saving puts each register that a procedure keeps into a word of its own,
and writes nowhere else. Restoring takes the registers from these words, wherever the stack pointer has
been since. -/

namespace ProcMips.Mips

namespace Flat

theorem keptPlaces_apart :
    keptPlaces.Pairwise fun p q => Apart (BitVec.ofInt 32 p.2) (BitVec.ofInt 32 q.2) := by
  decide

theorem keptPlaces_inside {p : Register × Int} (h : p ∈ keptPlaces) :
    (BitVec.ofInt 32 p.2 - 4).toNat ≤ 36 := by
  have hall : ∀ p ∈ keptPlaces, (BitVec.ofInt 32 p.2 - 4).toNat ≤ 36 := by decide
  exact hall p h

/-- A state behind the saving of the kept registers, each in a word of its own. -/
structure Saved (c c' : State) : Prop where
  sp : c'.regs .sp = c.regs .sp - 40
  regs : ∀ r ≠ .sp, c'.regs r = c.regs r
  words : ∀ (i : Nat) (r : Register), kept[i]? = some r →
    c'.load (c'.regs .sp + BitVec.ofInt 32 (saveArea - wordSize * i)) = c.regs r
  mem : ∀ b, 40 ≤ (b - (c'.regs .sp + 4)).toNat → c'.mem b = c.mem b

theorem effects_saveRegisters (data : String → BitVec 32) (c : State) :
    ∃ c', (State.processor data).effects saveRegisters c = some c' ∧ Saved c c' := by
  obtain ⟨c', heffects, h⟩ :=
    (State.memory data).effects_saveRegisters (c := c) keptPlaces_apart fun _ _ => trivial
  refine ⟨c', heffects, h.sp, h.regs, h.words, fun b hb => ?_⟩
  refine h.unchanged (fun d => d.mem b) (fun _ _ => rfl) fun d v p hp => State.mem_store_of_le ?_
  have := keptPlaces_inside hp
  change 4 ≤ (b - (c'.regs .sp + BitVec.ofInt 32 p.2)).toNat
  bv_omega

/-- A state that has taken the kept registers from the words above its stack pointer. -/
structure Restored (c c' : State) : Prop where
  sp : c'.regs .sp = c.regs .sp + 40
  words : ∀ (i : Nat) (r : Register), kept[i]? = some r →
    c'.regs r = c.load (c.regs .sp + BitVec.ofInt 32 (saveArea - wordSize * i))
  regs : ∀ r ∉ kept, r ≠ .sp → c'.regs r = c.regs r
  mem : c'.mem = c.mem

theorem effects_restoreRegisters (data : String → BitVec 32) (c : State) :
    ∃ c', (State.processor data).effects restoreRegisters c = some c' ∧ Restored c c' := by
  obtain ⟨c', heffects, h⟩ :=
    (State.memory data).effects_restoreRegisters (c := c) fun _ _ => trivial
  exact ⟨c', heffects, h.sp, h.words, h.regs, h.unchanged State.mem fun _ _ _ => rfl⟩

end Flat

end ProcMips.Mips
