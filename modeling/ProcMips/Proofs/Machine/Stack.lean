import ProcMips.Proofs.Machine.Memory
import ProcMips.Proofs.Semantics.Machine

/-! The operand stack. It grows downwards from the word at `$sp`, which is free. Pieces of code are
described by the words that they leave on it: they keep `$fp` and all that lies above. -/

namespace ProcMips.Mips

namespace Core

@[simp] theorem set_regs (c : Core) (r s : Register) (n : Int) :
    (c.set r n).regs s = if s = r then n else c.regs s := by
  simp [set, Function.update_apply]

@[simp] theorem set_mem (c : Core) (r : Register) (n : Int) : (c.set r n).mem = c.mem := rfl

@[simp] theorem set_reads (c : Core) (r : Register) (n : Int) : (c.set r n).reads = c.reads := rfl

@[simp] theorem set_printed (c : Core) (r : Register) (n : Int) :
    (c.set r n).printed = c.printed := rfl

@[simp] theorem store_regs (c : Core) (p : Location) (n : Int) : (c.store p n).regs = c.regs := rfl

@[simp] theorem store_mem (c : Core) (p q : Location) (n : Int) :
    (c.store p n).mem q = if q = p then n else c.mem q := by
  simp [store, Function.update_apply]

@[simp] theorem store_reads (c : Core) (p : Location) (n : Int) : (c.store p n).reads = c.reads := rfl

@[simp] theorem store_printed (c : Core) (p : Location) (n : Int) :
    (c.store p n).printed = c.printed := rfl

@[simp] theorem print_regs (c : Core) (text : String) : (c.print text).regs = c.regs := rfl

@[simp] theorem print_mem (c : Core) (text : String) : (c.print text).mem = c.mem := rfl

def push (c : Core) (r : Register) : Core :=
  (c.store (.stack (c.regs .sp)) (c.regs r)).set .sp (c.regs .sp - wordSize)

def pop (c : Core) (r : Register) : Core :=
  (c.set r (c.mem (.stack (c.regs .sp + wordSize)))).set .sp (c.regs .sp + wordSize)

@[simp] theorem push_regs (c : Core) (r s : Register) :
    (c.push r).regs s = if s = .sp then c.regs .sp - wordSize else c.regs s := by
  simp [push]

theorem pop_regs_of_ne {r s : Register} (c : Core) (hs : s ≠ r) (hsp : s ≠ .sp) :
    (c.pop r).regs s = c.regs s := by
  simp [pop, hs, hsp]

@[simp] theorem pop_mem (c : Core) (r : Register) : (c.pop r).mem = c.mem := rfl

/-- The same memory and console, and the same registers except `rs`. -/
structure SameExcept (rs : List Register) (c c' : Core) : Prop where
  regs : ∀ r, r ∉ rs → c'.regs r = c.regs r
  mem : c'.mem = c.mem
  reads : c'.reads = c.reads
  printed : c'.printed = c.printed

theorem SameExcept.refl (rs : List Register) (c : Core) : SameExcept rs c c :=
  ⟨fun _ _ => rfl, rfl, rfl, rfl⟩

theorem SameExcept.trans {rs : List Register} {c c' c'' : Core} (h : SameExcept rs c c')
    (h' : SameExcept rs c' c'') : SameExcept rs c c'' :=
  ⟨fun r hr => (h'.regs r hr).trans (h.regs r hr), h'.mem.trans h.mem, h'.reads.trans h.reads,
    h'.printed.trans h.printed⟩

theorem sameExcept_set {rs : List Register} {r : Register} (c : Core) (n : Int) (hr : r ∈ rs) :
    SameExcept rs c (c.set r n) := by
  refine ⟨fun s hs => ?_, rfl, rfl, rfl⟩
  rw [set_regs, if_neg]
  rintro rfl
  exact hs hr

theorem sameExcept_set_self (c : Core) (r : Register) (n : Int) : SameExcept [r] c (c.set r n) :=
  sameExcept_set c n List.mem_cons_self

theorem sameExcept_pop (c : Core) (r : Register) : SameExcept [r, .sp] c (c.pop r) :=
  (sameExcept_set c _ (by simp)).trans (sameExcept_set _ _ (by simp))

/-- The same data memory and console. -/
structure SameWorld (c c' : Core) : Prop where
  mem : ∀ l n, c'.mem (.data l n) = c.mem (.data l n)
  reads : c'.reads = c.reads
  printed : c'.printed = c.printed

theorem SameWorld.refl (c : Core) : SameWorld c c := ⟨fun _ _ => rfl, rfl, rfl⟩

theorem SameWorld.trans {c c' c'' : Core} (h : SameWorld c c') (h' : SameWorld c' c'') :
    SameWorld c c'' :=
  ⟨fun l n => (h'.mem l n).trans (h.mem l n), h'.reads.trans h.reads, h'.printed.trans h.printed⟩

theorem SameExcept.sameWorld {rs : List Register} {c c' : Core} (h : SameExcept rs c c') :
    SameWorld c c' := ⟨fun _ _ => by rw [h.mem], h.reads, h.printed⟩

theorem sameWorld_store (c : Core) (a n : Int) : SameWorld c (c.store (.stack a) n) :=
  ⟨fun l m => by simp, rfl, rfl⟩

theorem sameWorld_push (c : Core) (r : Register) : SameWorld c (c.push r) :=
  ⟨fun l m => by simp [push], rfl, rfl⟩

/-- `c'` has the words `ns` on the stack of `c`, the first one highest. -/
structure Pushes (ns : List Int) (c c' : Core) : Prop where
  sp : c'.regs .sp = c.regs .sp - 4 * ns.length
  fp : c'.regs .fp = c.regs .fp
  held : ∀ (i : Nat) (n : Int), ns[i]? = some n → c'.mem (.stack (c.regs .sp - 4 * i)) = n
  above : ∀ a, c.regs .sp < a → c'.mem (.stack a) = c.mem (.stack a)

namespace Pushes

variable {ns ms : List Int} {c c' c'' : Core}

theorem refl (c : Core) : Pushes [] c c := ⟨by simp, rfl, by simp, fun _ _ => rfl⟩

theorem aligned (h : Pushes ns c c') (hc : 4 ∣ c.regs .sp) : 4 ∣ c'.regs .sp := by
  rw [h.sp]
  omega

theorem trans (h : Pushes ns c c') (h' : Pushes ms c' c'') : Pushes (ns ++ ms) c c'' := by
  refine ⟨?_, h'.fp.trans h.fp, fun i n hi => ?_, fun a ha => ?_⟩
  · rw [h'.sp, h.sp, List.length_append]
    omega
  · by_cases hlt : i < ns.length
    · rw [List.getElem?_append_left hlt] at hi
      rw [h'.above _ (by rw [h.sp]; omega)]
      exact h.held i n hi
    · rw [List.getElem?_append_right (by omega)] at hi
      have := h'.held _ n hi
      rw [h.sp] at this
      rw [← this]
      congr 2
      omega
  · rw [h'.above a (by rw [h.sp]; omega)]
    exact h.above a ha

theorem except {rs : List Register} (h : Pushes ns c c') (he : SameExcept rs c' c'')
    (hsp : .sp ∉ rs) (hfp : .fp ∉ rs) : Pushes ns c c'' :=
  ⟨(he.regs _ hsp).trans h.sp, (he.regs _ hfp).trans h.fp,
    fun i n hi => by rw [he.mem]; exact h.held i n hi,
    fun a ha => by rw [he.mem]; exact h.above a ha⟩

theorem set (h : Pushes ns c c') {r : Register} (n : Int) (hsp : r ≠ .sp) (hfp : r ≠ .fp) :
    Pushes ns c (c'.set r n) :=
  h.except (sameExcept_set_self c' r n) (by simpa using hsp.symm)
    (by simpa using hfp.symm)

theorem push (h : Pushes ns c c') (r : Register) : Pushes (ns ++ [c'.regs r]) c (c'.push r) := by
  refine h.trans ⟨by simp [wordSize], by simp, fun i n hi => ?_, fun a ha => ?_⟩
  · obtain ⟨rfl, rfl⟩ : i = 0 ∧ c'.regs r = n := by
      cases i with
      | zero => simpa using hi
      | succ i => simp at hi
    simp [Core.push]
  · have hne : a ≠ c'.regs .sp := by omega
    simp [Core.push, hne]

/-- The word that was pushed last is popped. -/
theorem pop_regs {n : Int} (h : Pushes (ns ++ [n]) c c') {r : Register} (hsp : r ≠ .sp) :
    (c'.pop r).regs r = n := by
  have hheld := h.held ns.length n (by simp)
  have hplace : c'.regs .sp + wordSize = c.regs .sp - 4 * (ns.length : Int) := by
    rw [h.sp, wordSize, List.length_append, List.length_singleton]
    omega
  simp [Core.pop, hsp, hplace, hheld]

theorem pop {n : Int} (h : Pushes (ns ++ [n]) c c') {r : Register} (hfp : r ≠ .fp) :
    Pushes ns c (c'.pop r) := by
  refine ⟨?_, ?_, fun i m hi => ?_, h.above⟩
  · simp only [Core.pop, set_regs, if_true]
    rw [h.sp, wordSize, List.length_append, List.length_singleton]
    omega
  · rw [← h.fp]
    simp [Core.pop, hfp.symm]
  · apply h.held i m
    have hlt := (List.getElem?_eq_some_iff.1 hi).1
    rwa [List.getElem?_append_left hlt]

end Pushes

end Core

section

variable {code : List Instr} {inputs : List Int} {c : Core}

theorem accessible_stack {a : Int} (h : 4 ∣ a) : Location.accessible code (.stack a) = true := by
  simpa [Location.accessible] using h

theorem effect_lw {r : Register} {a : Address} {place : Location} {n : Int} (hplace : a.place c = place)
    (haccess : place.accessible code = true) (hmem : c.mem place = n) :
    (Core.processor code inputs).effect (.lw r a) c = some (c.set r n) := by
  simp only [Processor.effect, Core.processor, hplace, haccess, hmem, if_true, Option.map_some]

theorem effect_sw {r : Register} {a : Address} {place : Location} {n : Int} (hplace : a.place c = place)
    (haccess : place.accessible code = true) (hreg : c.regs r = n) :
    (Core.processor code inputs).effect (.sw r a) c = some (c.store place n) := by
  simp only [Processor.effect, Core.processor, hplace, haccess, hreg, if_true]

theorem target_of_regs {r : Register} {n : Nat} (h : c.regs r = n) :
    (Core.processor code inputs).target ((Core.processor code inputs).regs c r) = some n := by
  change (if 0 ≤ c.regs r then some (c.regs r).toNat else none) = some n
  rw [h, if_pos (Int.natCast_nonneg n), Int.toNat_natCast]

/-- The words of the stack, at the addresses that are multiples of 4. -/
def Core.memory (code : List Instr) (inputs : List Int) : (Core.processor code inputs).Memory where
  read c a := c.mem (.stack a)
  write c a n := c.store (.stack a) n
  Usable a := 4 ∣ a
  Apart a b := a ≠ b
  apply_sub _ _ := rfl
  apply_add _ _ := rfl
  sub_add_cancel := Int.sub_add_cancel
  load_offset _ _ _ h := if_pos (accessible_stack h)
  store_offset _ _ _ _ h := if_pos (accessible_stack h)
  regs_set c r n q := set_regs c r q n
  read_set _ _ _ _ := rfl
  regs_write _ _ _ := rfl
  read_write c a n := by simp
  read_write_of_apart c a b n h := by simpa using fun heq => absurd heq h
  apart_add a b c h := by simpa using h

theorem effects_pushReg {r : Register} (hr : r ≠ .sp) (h : 4 ∣ c.regs .sp) :
    (Core.processor code inputs).effects (pushReg r) c = some (c.push r) :=
  (Core.memory code inputs).effects_pushReg hr h

theorem effects_popReg {r : Register} (hr : r ≠ .sp) (h : 4 ∣ c.regs .sp) :
    (Core.processor code inputs).effects (popReg r) c = some (c.pop r) :=
  (Core.memory code inputs).effects_popReg hr (Int.dvd_add h (Int.dvd_refl 4))

end

end ProcMips.Mips
