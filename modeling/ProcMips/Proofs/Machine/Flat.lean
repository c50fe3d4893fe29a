import ProcMips.Proofs.Machine.Memory
import ProcMips.Proofs.Semantics.Flat

/-! Flat memory. A word that is stored is loaded again, and bytes elsewhere stay as they were, so words with
no byte in common do not disturb each other. -/

namespace ProcMips.Mips

namespace Flat

namespace State

variable (c : State)

@[simp] theorem set_regs (r q : Register) (v : BitVec 32) :
    (c.set r v).regs q = if q = r then v else c.regs q := Function.update_apply _ _ _ _

@[simp] theorem set_mem (r : Register) (v : BitVec 32) : (c.set r v).mem = c.mem := rfl

@[simp] theorem load_set (r : Register) (v a : BitVec 32) : (c.set r v).load a = c.load a := rfl

@[simp] theorem store_regs (a v : BitVec 32) : (c.store a v).regs = c.regs := rfl

variable (data : String → BitVec 32)

@[simp] theorem processor_regs : (processor data).regs = regs := rfl

@[simp] theorem processor_set : (processor data).set = set := rfl

@[simp] theorem processor_word : (processor data).word = BitVec.ofInt 32 := rfl

variable {c}

theorem mem_store_of_le {a b v : BitVec 32} (h : 4 ≤ (b - a).toNat) :
    (c.store a v).mem b = c.mem b := if_neg (by omega)

theorem load_congr {c' : State} {a : BitVec 32}
    (h : ∀ b : BitVec 32, (b - a).toNat < 4 → c'.mem b = c.mem b) : c'.load a = c.load a := by
  rw [load, load, h a (by bv_omega), h (a + 1) (by bv_omega), h (a + 2) (by bv_omega),
    h (a + 3) (by bv_omega)]

theorem load_store (c : State) (a v : BitVec 32) : (c.store a v).load a = v := by
  have hbyte (j : BitVec 32) (i : Nat) (hi : i = 8 * j.toNat) (hj : j.toNat < 4) :
      (c.store a v).mem (a + j) = v.extractLsb' i 8 := by
    have hsub : a + j - a = j := by bv_omega
    rw [store]
    dsimp only
    rw [hsub, if_pos hj, hi]
  have h0 : (c.store a v).mem a = v.extractLsb' 0 8 := by simpa using hbyte 0 0 rfl (by decide)
  rw [load, hbyte 3 24 rfl (by decide), hbyte 2 16 rfl (by decide), hbyte 1 8 rfl (by decide), h0,
    BitVec.extractLsb'_append_extractLsb'_eq_extractLsb' (show 24 = 16 + 8 from rfl),
    BitVec.extractLsb'_append_extractLsb'_eq_extractLsb' (show 16 = 8 + 8 from rfl),
    BitVec.extractLsb'_append_extractLsb'_eq_extractLsb' (show 8 = 0 + 8 from rfl)]
  exact BitVec.extractLsb'_eq_self

end State

/-- The words at two addresses have no byte in common. -/
def Apart (a b : BitVec 32) : Prop := 4 ≤ (a - b).toNat ∧ 4 ≤ (b - a).toNat

instance (a b : BitVec 32) : Decidable (Apart a b) := inferInstanceAs (Decidable (_ ∧ _))

namespace State

theorem load_store_of_apart (c : State) {a b : BitVec 32} (h : Apart a b) (v : BitVec 32) :
    (c.store b v).load a = c.load a := by
  refine load_congr fun d hd => mem_store_of_le ?_
  obtain ⟨h₁, h₂⟩ := h
  bv_omega

/-- Words at all addresses. -/
def memory (data : String → BitVec 32) : (processor data).Memory where
  read := load
  write := store
  Usable _ := True
  Apart := Apart
  apply_sub _ _ := rfl
  apply_add _ _ := rfl
  sub_add_cancel := BitVec.sub_add_cancel
  load_offset _ _ _ _ := rfl
  store_offset _ _ _ _ _ := rfl
  regs_set c r v q := set_regs c r q v
  read_set := load_set
  regs_write _ _ _ := rfl
  read_write := load_store
  read_write_of_apart c _ _ v h := load_store_of_apart c h v
  apart_add a b c h := by
    unfold Apart at *
    bv_omega

end State

end Flat

end ProcMips.Mips
