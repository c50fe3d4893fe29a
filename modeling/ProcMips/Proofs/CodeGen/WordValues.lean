import ProcMips.Proofs.CodeGen.Expressions
import ProcMips.Proofs.CodeGen.Success
import ProcMips.Proofs.Machine.Scratch

/-! The code of an expression without calls, on any state of the machine with flat memory. Whatever the
types of its operands are and wherever its indices lead, it pushes the word that the expression means over
the memory at the start, and outside its scratch area it only reads. -/

namespace ProcMips

open Mips

/-- No procedure is called. -/
def Expr.callFree : Expr → Bool
  | .int .. | .bool .. | .scalar .. => true
  | .element _ _ index => index.callFree
  | .call .. => false
  | .binary _ _ left right => left.callFree && right.callFree
  | .not _ operand => operand.callFree

section

variable {s : Storage} {data : String → BitVec 32} {c c' : Flat.State} {l : Line} {x : String}
  {v : BitVec 32} {rs : List (BitVec 32)}

namespace Expr

theorem wordValue_scalar_eq_some :
    (Expr.scalar l x).wordValue s data c = some (v, rs) ↔
      ∃ a, s.start data c x = some a ∧ c.load a = v ∧ [a] = rs := by
  simp only [wordValue, Option.bind_eq_bind, Option.bind_eq_some_iff, Option.pure_def,
    Option.some.injEq, Prod.mk.injEq]

theorem wordValue_element_eq_some {index : Expr} :
    (Expr.element l x index).wordValue s data c = some (v, rs) ↔
      ∃ i ts, index.wordValue s data c = some (i, ts) ∧ ∃ a, s.start data c x = some a ∧
        c.load (a + 4 * i) = v ∧ ts ++ [a + 4 * i] = rs := by
  simp only [wordValue, Option.bind_eq_bind, Option.bind_eq_some_iff, Option.pure_def,
    Option.some.injEq, Prod.mk.injEq, Prod.exists]

theorem wordValue_not_eq_some {operand : Expr} :
    (Expr.not l operand).wordValue s data c = some (v, rs) ↔
      ∃ a, operand.wordValue s data c = some (a, rs) ∧ Flat.flag (a == 0) = v := by
  simp only [wordValue, Option.bind_eq_bind, Option.bind_eq_some_iff, Option.pure_def,
    Option.some.injEq, Prod.mk.injEq, Prod.exists]
  constructor
  · rintro ⟨a, _, ha, hv, rfl⟩
    exact ⟨a, ha, hv⟩
  · rintro ⟨a, ha, hv⟩
    exact ⟨a, rs, ha, hv, rfl⟩

section

variable {op : BinOp} {left right : Expr}

theorem wordValue_operands_eq_some (hop : op.decisive = none) :
    (Expr.binary l op left right).wordValue s data c = some (v, rs) ↔
      ∃ a ts, left.wordValue s data c = some (a, ts) ∧
      ∃ b us, right.wordValue s data c = some (b, us) ∧ op.wordApply a b = some v ∧ ts ++ us = rs := by
  simp only [wordValue, hop, Option.bind_eq_bind, Option.bind_eq_some_iff, Option.pure_def,
    Option.some.injEq, Prod.mk.injEq, Prod.exists]
  constructor
  · rintro ⟨a, ts, hl, b, us, hr, w, hw, rfl, hrs⟩
    exact ⟨a, ts, hl, b, us, hr, hw, hrs⟩
  · rintro ⟨a, ts, hl, b, us, hr, hw, hrs⟩
    exact ⟨a, ts, hl, b, us, hr, v, hw, rfl, hrs⟩

theorem wordValue_decisive_eq_some {d : Bool} (hop : op.decisive = some d) :
    (Expr.binary l op left right).wordValue s data c = some (v, rs) ↔
      ∃ a ts, left.wordValue s data c = some (a, ts) ∧
        if (a != 0) = d then Flat.flag d = v ∧ ts = rs
        else ∃ b us, right.wordValue s data c = some (b, us) ∧ Flat.flag (b != 0) = v ∧
          ts ++ us = rs := by
  simp only [wordValue, hop, Option.bind_eq_bind, Option.bind_eq_some_iff, Option.pure_def,
    Prod.exists]
  refine exists_congr fun a => exists_congr fun ts => and_congr_right fun _ => ?_
  split_ifs
  · simp only [Option.some.injEq, Prod.mk.injEq]
  · simp only [Option.bind_eq_some_iff, Option.some.injEq, Prod.mk.injEq, Prod.exists]

end

/-- The word of an expression depends on the frame pointer and on the words that are read. -/
theorem wordValue_congr {e : Expr} (hfp : c'.regs .fp = c.regs .fp)
    (hload : ∀ a ∈ rs, c'.load a = c.load a) (h : e.wordValue s data c = some (v, rs)) :
    e.wordValue s data c' = some (v, rs) := by
  have hstart (x : String) : s.start data c' x = s.start data c x := by
    rw [Storage.start, Storage.start, hfp]
  induction e generalizing v rs with
  | int l n | bool l b => exact h
  | scalar l x =>
    obtain ⟨a, ha, rfl, rfl⟩ := wordValue_scalar_eq_some.1 h
    exact wordValue_scalar_eq_some.2 ⟨a, by rw [hstart, ha], hload a (by simp), rfl⟩
  | element l x index ih =>
    obtain ⟨i, ts, hi, a, ha, rfl, rfl⟩ := wordValue_element_eq_some.1 h
    have hi := ih (fun b hb => hload b (List.mem_append_left _ hb)) hi
    exact wordValue_element_eq_some.2
      ⟨i, ts, hi, a, by rw [hstart, ha], hload _ (by simp), rfl⟩
  | call l f args => cases h
  | binary l op left right ihl ihr =>
    cases hop : op.decisive with
    | none =>
      obtain ⟨a, ts, hl, b, us, hr, hv, rfl⟩ := (wordValue_operands_eq_some hop).1 h
      have hl := ihl (fun b hb => hload b (List.mem_append_left _ hb)) hl
      have hr := ihr (fun b hb => hload b (List.mem_append_right _ hb)) hr
      exact (wordValue_operands_eq_some hop).2 ⟨a, ts, hl, b, us, hr, hv, rfl⟩
    | some d =>
      obtain ⟨a, ts, hl, h⟩ := (wordValue_decisive_eq_some hop).1 h
      refine (wordValue_decisive_eq_some hop).2 ⟨a, ts, ?_⟩
      split_ifs at h ⊢
      · obtain ⟨hv, rfl⟩ := h
        exact ⟨ihl hload hl, hv, rfl⟩
      · obtain ⟨b, us, hr, hv, rfl⟩ := h
        have hl := ihl (fun b hb => hload b (List.mem_append_left _ hb)) hl
        have hr := ihr (fun b hb => hload b (List.mem_append_right _ hb)) hr
        exact ⟨hl, b, us, hr, hv, rfl⟩
  | not l operand ih =>
    obtain ⟨a, ha, hv⟩ := wordValue_not_eq_some.1 h
    exact wordValue_not_eq_some.2 ⟨a, ih hload ha, hv⟩

end Expr

end

namespace Mips

theorem lowered_pushReg (r : Register) : lowered (pushReg r) = 4 := rfl

theorem lowered_popReg (r : Register) : lowered (popReg r) = -4 := rfl

theorem deepest_le_append_left (k k' : List Instr) : deepest k ≤ deepest (k ++ k') := by
  rw [deepest_append]
  exact Int.le_max_left _ _

theorem deepest_le_append_right (k k' : List Instr) :
    lowered k + deepest k' ≤ deepest (k ++ k') := by
  rw [deepest_append]
  exact Int.le_max_right _ _

/-- Of two pieces of code, the second is skipped by a branch at which the stack is as it was before both. -/
theorem deepest_skipped {k₁ : List Instr} {i : Instr} (k₂ : List Instr) (hk : lowered k₁ = 4)
    (hi : i.lowers = 0) (rest decision push : List Instr) :
    deepest k₁ ≤ deepest (k₁ ++ popReg .t0 ++ i :: k₂ ++ rest ++ decision ++ push) ∧
      deepest k₂ ≤ deepest (k₁ ++ popReg .t0 ++ i :: k₂ ++ rest ++ decision ++ push) := by
  have hend := deepest_le_append_left (k₁ ++ popReg .t0 ++ i :: k₂) (rest ++ decision ++ push)
  have hfirst := deepest_le_append_left k₁ (popReg .t0 ++ i :: k₂)
  have hsecond := deepest_le_append_right (k₁ ++ popReg .t0) (i :: k₂)
  have hlast : i.lowers + deepest k₂ ≤ deepest (i :: k₂) := Int.le_max_right _ _
  rw [lowered_append, hk, lowered_popReg] at hsecond
  simp only [List.append_assoc] at hend hfirst hsecond ⊢
  omega

end Mips

section

variable {s : Storage} {n m : Nat} {k : List Instr}

theorem Storage.lowered_elementAddress {x : String} {scratch : Register} {a : Address}
    (h : s.elementAddress x scratch n = .ok ((k, a), m)) : lowered k = 0 := by
  obtain ⟨h, -⟩ := Storage.elementAddress_eq_ok.1 h
  split_ifs at h
  · obtain ⟨rfl, -⟩ := h
    rfl
  · obtain ⟨o, -, rfl, -⟩ := h
    rfl

/-- The code of an expression lowers the stack pointer by one word. -/
theorem Expr.lowered_code {e : Expr} (he : e.callFree = true) (hk : e.code s n = .ok (k, m)) :
    lowered k = 4 := by
  induction e generalizing n m k with
  | int l i =>
    obtain ⟨rfl, -⟩ := Expr.code_int_eq_ok.1 hk
    rfl
  | bool l b =>
    obtain ⟨rfl, -⟩ := Expr.code_bool_eq_ok.1 hk
    rfl
  | scalar l x =>
    obtain ⟨a, _, -, rfl, -⟩ := Expr.code_scalar_eq_ok.1 hk
    rfl
  | element l x index ih =>
    obtain ⟨ki, _, hi, scale, a, _, ha, rfl, -⟩ := Expr.code_element_eq_ok.1 hk
    have hlast : lowered (.lw .t1 a :: pushReg .t1) = 4 := rfl
    simp only [lowered_append, lowered_popReg, ih he hi, Storage.lowered_elementAddress ha, hlast]
    rfl
  | call l f args => cases he
  | binary l op left right ihl ihr =>
    rw [Expr.callFree, Bool.and_eq_true] at he
    cases hop : op.order with
    | leftFirst =>
      obtain ⟨kl, _, hl, kr, _, hr, o, _, -, rfl, -⟩ := (Expr.code_leftFirst_eq_ok hop).1 hk
      have hlast : lowered (.op o .s0 .t0 .t1 :: pushReg .s0) = 4 := rfl
      simp only [lowered_append, lowered_popReg, ihl he.1 hl, ihr he.2 hr, hlast]
      rfl
    | rightFirst =>
      obtain ⟨kr, _, hr, kl, _, hl, o, _, -, rfl, -⟩ := (Expr.code_rightFirst_eq_ok hop).1 hk
      have hlast : lowered (.op o .s0 .t0 .t1 :: pushReg .s0) = 4 := rfl
      simp only [lowered_append, lowered_popReg, ihl he.1 hl, ihr he.2 hr, hlast]
      rfl
    | shortCircuit d =>
      obtain ⟨decided, _, -, done, _, -, kl, _, hl, kr, _, hr, rfl, -⟩ :=
        (Expr.code_shortCircuit_eq_ok hop).1 hk
      have hbranch : (if d then Instr.bnez .t0 decided else .beqz .t0 decided).lowers = 0 := by
        cases d <;> rfl
      have hdecision : lowered (decisionCode d decided done) = 0 := by cases d <;> rfl
      rw [← decisionCode]
      simp only [lowered_append, lowered_cons, lowered_popReg, lowered_pushReg, ihl he.1 hl,
        ihr he.2 hr, hbranch, hdecision]
      rfl
  | not l operand ih =>
    obtain ⟨done, _, -, ko, _, ho, rfl, -⟩ := Expr.code_not_eq_ok.1 hk
    have htest : lowered [.li .s0 0, .bnez .t0 done, .li .s0 1, .label done] = 0 := rfl
    simp only [lowered_append, lowered_popReg, lowered_pushReg, ih he ho, htest]
    rfl

end

namespace Mips.Flat

variable {code k : List Instr} {data : String → BitVec 32} {p q : Nat} {c c₁ : State}
  {ns : List (BitVec 32)} {n : Int}

theorem ofInt_truthWord (b : Bool) : BitVec.ofInt 32 (truthWord b) = flag b := by
  cases b <;> rfl

namespace Leaves

theorem pop_one {v : BitVec 32} {r : Register} (h : Leaves code data p q c [v] n c₁)
    (hat : CodeAt code q (popReg r)) (hr : r ∈ temporaries) :
    Leaves code data p (q + 2) c [] n (c₁.pop r) ∧ (c₁.pop r).regs r = v := by
  rw [← List.nil_append [v]] at h
  exact h.pop hat hr

/-- Two words are popped, the one that was pushed last into `$t1`. -/
theorem pop_two {a b : BitVec 32} (h : Leaves code data p q c [a, b] n c₁)
    (hat₁ : CodeAt code q (popReg .t1)) (hat₀ : CodeAt code (q + 2) (popReg .t0)) :
    ∃ c₂, Leaves code data p (q + 4) c [] n c₂ ∧ c₂.regs .t0 = a ∧ c₂.regs .t1 = b := by
  rw [← List.singleton_append] at h
  obtain ⟨h₁, hb⟩ := h.pop hat₁ (by decide)
  obtain ⟨h₀, ha⟩ := h₁.pop_one hat₀ (by decide)
  refine ⟨_, h₀, ha, ?_⟩
  rw [← hb]
  simp [State.pop]

/-- Most expressions end in an instruction that computes the value, in a register that is pushed. -/
theorem value {i : Instr} {r : Register} {v : BitVec 32} (h : Leaves code data p q c [] n c₁)
    (hat : CodeAt code q (i :: pushReg r)) (hi : (State.processor data).effect i c₁ = some (c₁.set r v))
    (hr : r ∈ temporaries) (hn : 4 ≤ n) (hsize : n ≤ 4294967296) :
    Leaves code data p (q + 3) c [v] n ((c₁.set r v).push r) := by
  have hset := h.steps (.of_step (step_of_effect hat.1 hi)) (sameButTemporaries_set c₁ v hr)
  have hpush := hset.push hat.2 (ne_of_mem_of_not_mem hr (by decide)) (by simpa using hn) hsize
  rwa [State.set_regs, if_pos rfl] at hpush

/-- Two operands are popped, the one evaluated last first, and their result is pushed. -/
theorem combine {o : Op} {a b v : BitVec 32} (h : Leaves code data p q c [a, b] n c₁)
    (hat₁ : CodeAt code q (popReg .t1)) (hat₀ : CodeAt code (q + 2) (popReg .t0))
    (hato : CodeAt code (q + 4) (.op o .s0 .t0 .t1 :: pushReg .s0)) (ho : apply o a b = some v)
    (hn : 4 ≤ n) (hsize : n ≤ 4294967296) : ∃ c', Leaves code data p (q + 7) c [v] n c' := by
  obtain ⟨c₂, h₂, ha, hb⟩ := h.pop_two hat₁ hat₀
  exact ⟨_, h₂.value hato (by
    simp only [Processor.effect, State.processor, ha, hb, ho, Option.map_some]) (by decide) hn hsize⟩

/-- What an expression reads is still there, so that it means the same. -/
theorem wordValue {s : Storage} {e : Expr} {v : BitVec 32} {rs : List (BitVec 32)}
    (h : Leaves code data p q c ns n c₁) (hv : e.wordValue s data c = some (v, rs))
    (hrs : ∀ a ∈ rs, Clear (c.regs .sp) n a) : e.wordValue s data c₁ = some (v, rs) :=
  Expr.wordValue_congr (h.regs .fp (by decide) (by decide)) (fun a ha => h.load_eq (hrs a ha)) hv

end Leaves

theorem word_truthWord (b : Bool) : (State.processor data).word (truthWord b) = flag b :=
  ofInt_truthWord b

theorem isTrue_regs (c : State) (r : Register) :
    (State.processor data).isTrue ((State.processor data).regs c r) = (c.regs r != 0) := rfl

theorem exists_negated {done : String} (hu : (labelsOf code).Nodup)
    (hat : CodeAt code p [.li .s0 0, .bnez .t0 done, .li .s0 1, .label done]) :
    ∃ c', Machine.Reaches code data ⟨p, c⟩ ⟨p + 4, c'⟩ ∧ SameButTemporaries c c' ∧
      c'.regs .s0 = flag (c.regs .t0 == 0) := by
  have hset (v : BitVec 32) (c : State) : SameButTemporaries c (c.set .s0 v) :=
    sameButTemporaries_set c v (by decide)
  have hreach : Machine.Reaches code data ⟨p, c⟩ ⟨p + 4,
      if c.regs .t0 != 0 then c.set .s0 0 else (c.set .s0 0).set .s0 1⟩ := reaches_negated hu hat rfl
  refine ⟨_, hreach, ?_⟩
  by_cases h : c.regs .t0 = 0
  · simp only [h, bne_self_eq_false, Bool.false_eq_true, if_false]
    exact ⟨(hset 0 c).trans (hset 1 _), rfl⟩
  · have hne : (c.regs .t0 != 0) = true := by simpa using h
    have hflag : (c.regs .t0 == 0) = false := by simpa using h
    rw [if_pos hne, hflag]
    exact ⟨hset 0 c, rfl⟩

section

variable {s : Storage} {x : String} {a : Address} {start : BitVec 32} {m : Nat}

theorem effect_lw {r : Register} {b : BitVec 32} (h : place data c a = b) :
    (State.processor data).effect (.lw r a) c = some (c.set r (c.load b)) := by
  rw [← h]
  rfl

theorem place_scalarAddress {i : Nat} (ha : s.scalarAddress x i = .ok (a, m))
    (hstart : s.start data c x = some start) : place data c a = start := by
  obtain ⟨ha, -⟩ := Storage.scalarAddress_eq_ok.1 ha
  unfold Storage.start at hstart
  split_ifs at ha hstart
  · subst ha
    exact Option.some.inj hstart
  · obtain ⟨o, ho, rfl⟩ := ha
    rw [ho] at hstart
    exact Option.some.inj hstart

/-- The index in `$t0` is turned into the address of an element. -/
theorem effects_elementAddress {i : Nat} (ha : s.elementAddress x .t1 i = .ok ((k, a), m))
    (hstart : s.start data c x = some start) :
    ∃ c', (State.processor data).effects k c = some c' ∧ SameButTemporaries c c' ∧
      place data c' a = start + 4 * c.regs .t0 := by
  obtain ⟨ha, -⟩ := Storage.elementAddress_eq_ok.1 ha
  have hset (r : Register) (hr : r ∈ temporaries) (v : BitVec 32) (c : State) :
      SameButTemporaries c (c.set r v) := sameButTemporaries_set c v hr
  have hscaled : (State.processor data).effects (Storage.scaled .t1) c =
      some ((c.set .t1 4).set .t0 (c.regs .t0 * 4)) := rfl
  have hsame := (hset .t1 (by decide) 4 c).trans (hset .t0 (by decide) (c.regs .t0 * 4) _)
  unfold Storage.start at hstart
  split_ifs at ha hstart
  · obtain ⟨rfl, rfl⟩ := ha
    obtain rfl := Option.some.inj hstart
    refine ⟨_, hscaled, hsame, ?_⟩
    simp [place, BitVec.mul_comm]
  · obtain ⟨o, ho, rfl, rfl⟩ := ha
    rw [ho] at hstart
    obtain rfl := Option.some.inj hstart
    rw [effects_append, hscaled]
    refine ⟨_, rfl, ((hsame.trans (hset .t4 (by decide) _ _)).trans
      (hset .t4 (by decide) _ _)).trans (hset .t4 (by decide) _ _), ?_⟩
    have hsum : BitVec.ofInt 32 o + c.regs .t0 * 4 + c.regs .fp =
        c.regs .fp + BitVec.ofInt 32 o + 4 * c.regs .t0 := by
      rw [BitVec.mul_comm]
      ac_rfl
    simpa [place] using hsum

end

end Mips.Flat

/-- Wherever the code of an expression stands, it pushes the word of the expression, as long as it reads
nothing from its scratch area and the area does not meet itself. -/
def Expr.LeavesWord (code : List Instr) (data : String → BitVec 32) (s : Storage) (e : Expr) : Prop :=
  ∀ ⦃n m p : Nat⦄ ⦃k : List Instr⦄ ⦃v : BitVec 32⦄ ⦃rs : List (BitVec 32)⦄ ⦃c : Flat.State⦄,
    e.code s n = .ok (k, m) → CodeAt code p k → e.wordValue s data c = some (v, rs) →
    deepest k ≤ 4294967296 → (∀ a ∈ rs, Flat.Clear (c.regs .sp) (deepest k) a) →
    ∃ c', Flat.Leaves code data p (p + k.length) c [v] (deepest k) c'

section

variable {code : List Instr} {data : String → BitVec 32} {s : Storage} {p q : Nat} {c c₁ : Flat.State}
  {ns : List (BitVec 32)} {n : Int}

/-- Behind the words that are on the stack already, the word of another expression is pushed. -/
theorem Expr.LeavesWord.after {e : Expr} {i j : Nat} {k : List Instr} {v : BitVec 32}
    {rs : List (BitVec 32)} (he : e.LeavesWord code data s) (h : Flat.Leaves code data p q c ns n c₁)
    (hk : e.code s i = .ok (k, j)) (hat : CodeAt code q k)
    (hv : e.wordValue s data c = some (v, rs)) (hrs : ∀ a ∈ rs, Flat.Clear (c.regs .sp) n a)
    (hn : 4 * ns.length + deepest k ≤ n) (hsize : n ≤ 4294967296) :
    ∃ c₂, Flat.Leaves code data p (q + k.length) c (ns ++ [v]) n c₂ := by
  have hclear : ∀ a ∈ rs, Flat.Clear (c₁.regs .sp) (deepest k) a := by
    rw [h.sp]
    exact fun a ha => (hrs a ha).below hn
  obtain ⟨c₂, h₂⟩ := he hk hat (h.wordValue hv hrs) (by omega) hclear
  exact ⟨c₂, h.trans h₂ hn hsize⟩

theorem Expr.LeavesWord.first {e : Expr} {i j : Nat} {k : List Instr} {v : BitVec 32}
    {rs : List (BitVec 32)} (he : e.LeavesWord code data s) (h : Flat.Leaves code data p q c [] n c₁)
    (hk : e.code s i = .ok (k, j)) (hat : CodeAt code q k)
    (hv : e.wordValue s data c = some (v, rs)) (hrs : ∀ a ∈ rs, Flat.Clear (c.regs .sp) n a)
    (hn : deepest k ≤ n) (hsize : n ≤ 4294967296) :
    ∃ c₂, Flat.Leaves code data p (q + k.length) c [v] n c₂ := by
  refine he.after h hk hat hv hrs ?_ hsize
  simpa using hn

theorem Expr.leavesWord_int (l : Line) (i : Int) : (Expr.int l i).LeavesWord code data s := by
  intro n m p k v rs c hk hat hv hsize _
  obtain ⟨rfl, -⟩ := Expr.code_int_eq_ok.1 hk
  cases hv
  exact ⟨_, Flat.Leaves.refl.value hat rfl (by decide) (lowered_le_deepest _) hsize⟩

theorem Expr.leavesWord_bool (l : Line) (b : Bool) : (Expr.bool l b).LeavesWord code data s := by
  intro n m p k v rs c hk hat hv hsize _
  obtain ⟨rfl, -⟩ := Expr.code_bool_eq_ok.1 hk
  cases hv
  rw [← Flat.ofInt_truthWord]
  exact ⟨_, Flat.Leaves.refl.value hat rfl (by decide) (lowered_le_deepest _) hsize⟩

theorem Expr.leavesWord_scalar (l : Line) (x : String) :
    (Expr.scalar l x).LeavesWord code data s := by
  intro n m p k v rs c hk hat hv hsize _
  obtain ⟨a, _, ha, rfl, -⟩ := Expr.code_scalar_eq_ok.1 hk
  obtain ⟨start, hstart, rfl, -⟩ := Expr.wordValue_scalar_eq_some.1 hv
  have hlw : (Flat.State.processor data).effect (.lw .t0 a) c = some (c.set .t0 (c.load start)) :=
    Flat.effect_lw (Flat.place_scalarAddress ha hstart)
  exact ⟨_, Flat.Leaves.refl.value hat hlw (by decide) (lowered_le_deepest _) hsize⟩

theorem Expr.leavesWord_element (l : Line) (x : String) {index : Expr}
    (h : index.LeavesWord code data s) (hfree : index.callFree = true) :
    (Expr.element l x index).LeavesWord code data s := by
  intro n m p k v rs c hk hat hv hsize hrs
  have hn := lowered_le_deepest k
  rw [Expr.lowered_code (e := .element l x index) hfree hk] at hn
  obtain ⟨ki, _, hki, scale, a, _, ha, rfl, -⟩ := Expr.code_element_eq_ok.1 hk
  obtain ⟨i, ts, hi, start, hstart, rfl, rfl⟩ := Expr.wordValue_element_eq_some.1 hv
  simp only [codeAt_append, List.length_append, length_popReg, ← Nat.add_assoc] at hat
  obtain ⟨⟨⟨hati, hatp⟩, hats⟩, hatl⟩ := hat
  set k := ki ++ popReg .t0 ++ scale ++ .lw .t1 a :: pushReg .t1 with hkdef
  have hdeepest : deepest ki ≤ deepest k := by
    rw [hkdef, List.append_assoc, List.append_assoc]
    exact deepest_le_append_left _ _
  obtain ⟨c₁, h₁⟩ := h.first .refl hki hati hi
    (fun b hb => hrs b (List.mem_append_left _ hb)) hdeepest hsize
  obtain ⟨h₂, hindex⟩ := h₁.pop_one hatp (by decide)
  have hstart : s.start data (c₁.pop .t0) x = some start := by
    rw [← hstart, Storage.start, Storage.start, h₂.regs .fp (by decide) (by decide)]
  obtain ⟨c₃, heffects, hsame, hplace⟩ := Flat.effects_elementAddress ha hstart
  rw [hindex] at hplace
  have h₃ := h₂.steps (reaches_of_effects hats heffects) hsame
  have hlw : (Flat.State.processor data).effect (.lw .t1 a) c₃ =
      some (c₃.set .t1 (c.load (start + 4 * i))) := by
    rw [Flat.effect_lw hplace, h₃.load_eq (hrs _ (by simp))]
  exact ⟨_, (h₃.value hatl hlw (by decide) hn hsize).ends (by simp [hkdef]; omega)⟩

/-- The instruction of an operator is its primitive, on the operands in the order in which they are
evaluated. -/
theorem BinOp.apply_instr {op : BinOp} {o : Op} {i j : Nat} (ho : op.instr i = .ok (o, j))
    (a b : BitVec 32) :
    (if op.rightFirst then Flat.apply o b a else Flat.apply o a b) = op.wordApply a b := by
  cases op with
  | and | or => exact absurd ho gen_throw_ne_ok
  | _ =>
    obtain ⟨rfl, -⟩ := gen_pure_eq_ok.1 ho
    rfl

/-- Two operands, one evaluated after the other, and their instruction. -/
theorem Expr.leaves_wordOperands {e₁ e₂ : Expr} {i₁ i₂ j₁ j₂ : Nat} {k₁ k₂ k : List Instr}
    {a b v : BitVec 32} {ts us : List (BitVec 32)} {o : Op} (h₁ : e₁.LeavesWord code data s)
    (h₂ : e₂.LeavesWord code data s) (hfree : e₁.callFree = true) (hk₁ : e₁.code s i₁ = .ok (k₁, j₁))
    (hk₂ : e₂.code s i₂ = .ok (k₂, j₂)) (hv₁ : e₁.wordValue s data c = some (a, ts))
    (hv₂ : e₂.wordValue s data c = some (b, us)) (ho : Flat.apply o a b = some v)
    (hk : k₁ ++ k₂ ++ popReg .t1 ++ popReg .t0 ++ .op o .s0 .t0 .t1 :: pushReg .s0 = k)
    (hat : CodeAt code p k) (hfour : 4 ≤ deepest k) (hsize : deepest k ≤ 4294967296)
    (hts : ∀ r ∈ ts, Flat.Clear (c.regs .sp) (deepest k) r)
    (hus : ∀ r ∈ us, Flat.Clear (c.regs .sp) (deepest k) r) :
    ∃ c', Flat.Leaves code data p (p + k.length) c [v] (deepest k) c' := by
  have hn : deepest (k₁ ++ k₂) ≤ deepest k := by
    rw [← hk, List.append_assoc (k₁ ++ k₂), List.append_assoc (k₁ ++ k₂)]
    exact deepest_le_append_left _ _
  have hleft := (deepest_le_append_left k₁ k₂).trans hn
  have hright := (deepest_le_append_right k₁ k₂).trans hn
  rw [Expr.lowered_code hfree hk₁] at hright
  have hlength : k.length = k₁.length + k₂.length + 7 := by simp [← hk, Nat.add_assoc]
  simp only [← hk, codeAt_append, List.length_append, length_popReg, ← Nat.add_assoc] at hat
  obtain ⟨⟨⟨⟨hat₁, hat₂⟩, hatp₁⟩, hatp₀⟩, hato⟩ := hat
  obtain ⟨c₁, hc₁⟩ := h₁.first .refl hk₁ hat₁ hv₁ hts hleft hsize
  obtain ⟨c₂, hc₂⟩ := h₂.after hc₁ hk₂ hat₂ hv₂ hus (by simpa using hright) hsize
  obtain ⟨c₃, hc₃⟩ := hc₂.combine hatp₁ hatp₀ hato ho hfour hsize
  exact ⟨c₃, hc₃.ends (by omega)⟩

section

variable (l : Line) {op : BinOp} {left right : Expr} (hleft : left.LeavesWord code data s)
  (hright : right.LeavesWord code data s) (hfree : (Expr.binary l op left right).callFree = true)

include hleft hright hfree

theorem Expr.leavesWord_leftFirst (hop : op.order = .leftFirst) :
    (Expr.binary l op left right).LeavesWord code data s := by
  intro n m p k v rs c hk hat hv hsize hrs
  have hfour := lowered_le_deepest k
  rw [Expr.lowered_code hfree hk] at hfour
  rw [Expr.callFree, Bool.and_eq_true] at hfree
  obtain ⟨kl, _, hkl, kr, _, hkr, o, _, ho, hcode, -⟩ := (Expr.code_leftFirst_eq_ok hop).1 hk
  have hdecisive : op.decisive = none := by rw [BinOp.decisive_eq, hop]
  obtain ⟨a, ts, hl, b, us, hr, happly, rfl⟩ := (Expr.wordValue_operands_eq_some hdecisive).1 hv
  rw [← BinOp.apply_instr ho, BinOp.rightFirst_eq, hop] at happly
  exact Expr.leaves_wordOperands hleft hright hfree.1 hkl hkr hl hr happly hcode hat hfour hsize
    (fun r hr => hrs r (List.mem_append_left _ hr)) fun r hr => hrs r (List.mem_append_right _ hr)

theorem Expr.leavesWord_rightFirst (hop : op.order = .rightFirst) :
    (Expr.binary l op left right).LeavesWord code data s := by
  intro n m p k v rs c hk hat hv hsize hrs
  have hfour := lowered_le_deepest k
  rw [Expr.lowered_code hfree hk] at hfour
  rw [Expr.callFree, Bool.and_eq_true] at hfree
  obtain ⟨kr, _, hkr, kl, _, hkl, o, _, ho, hcode, -⟩ := (Expr.code_rightFirst_eq_ok hop).1 hk
  have hdecisive : op.decisive = none := by rw [BinOp.decisive_eq, hop]
  obtain ⟨a, ts, hl, b, us, hr, happly, rfl⟩ := (Expr.wordValue_operands_eq_some hdecisive).1 hv
  rw [← BinOp.apply_instr ho, BinOp.rightFirst_eq, hop] at happly
  exact Expr.leaves_wordOperands hright hleft hfree.2 hkr hkl hr hl happly hcode hat hfour hsize
    (fun r hr => hrs r (List.mem_append_right _ hr)) fun r hr => hrs r (List.mem_append_left _ hr)

theorem Expr.leavesWord_shortCircuit (hu : (labelsOf code).Nodup) {d : Bool}
    (hop : op.order = .shortCircuit d) : (Expr.binary l op left right).LeavesWord code data s := by
  intro n m p k v rs c hk hat hv hsize hrs
  have hfour := lowered_le_deepest k
  rw [Expr.lowered_code hfree hk] at hfour
  rw [Expr.callFree, Bool.and_eq_true] at hfree
  obtain ⟨decided, _, -, done, _, -, kl, _, hkl, kr, _, hkr, rfl, -⟩ :=
    (Expr.code_shortCircuit_eq_ok hop).1 hk
  have hlowers : (if d then Instr.bnez .t0 decided else .beqz .t0 decided).lowers = 0 := by
    cases d <;> rfl
  obtain ⟨hnl, hnr⟩ := deepest_skipped kr (Expr.lowered_code hfree.1 hkl) hlowers
    (popReg .t0) (decisionCode d decided done) (pushReg .s0)
  simp only [codeAt_append, List.length_append, List.length_cons, List.length_nil,
    length_popReg, ← Nat.add_assoc] at hat
  obtain ⟨⟨⟨⟨⟨hatl, hatp⟩, hatb, hatr⟩, hatp'⟩, hatd⟩, hats⟩ := hat
  have hatd : CodeAt code _ (decisionCode d decided done) := hatd
  have hdecisive : op.decisive = some d := by rw [BinOp.decisive_eq, hop]
  obtain ⟨a, ts, hl, hv⟩ := (Expr.wordValue_decisive_eq_some hdecisive).1 hv
  have hset (c : Flat.State) (v : BitVec 32) : Flat.SameButTemporaries c (c.set .s0 v) :=
    Flat.sameButTemporaries_set c v (by decide)
  have hts : ts ⊆ rs := by
    split_ifs at hv
    · exact hv.2 ▸ List.Subset.refl ts
    · obtain ⟨b, us, -, -, rfl⟩ := hv
      exact List.subset_append_left ts us
  obtain ⟨c₁, h₁⟩ := hleft.first .refl hkl hatl hl (fun r hr => hrs r (hts hr)) hnl hsize
  obtain ⟨h₂, htest⟩ := h₁.pop_one hatp (by decide)
  have hbranch : Flat.Machine.Reaches code data ⟨_, c₁.pop .t0⟩ _ :=
    reaches_branch hatb (resolve_eq_some hu hatd.2.2.2.1)
  rw [Flat.isTrue_regs, htest] at hbranch
  split_ifs at hv hbranch with hb
  · -- the left operand decides, and the right one is skipped
    obtain ⟨rfl, rfl⟩ := hv
    have h₃ := (h₂.steps (hbranch.trans (reaches_decided hatd)) (hset _ _)).push hats (by simp)
      (by simpa using hfour) hsize
    rw [Flat.State.processor_set, Flat.State.set_regs, if_pos rfl, Flat.word_truthWord] at h₃
    exact ⟨_, h₃.ends (by simp; omega)⟩
  · obtain ⟨b, us, hr, rfl, rfl⟩ := hv
    obtain ⟨c₂, h₃⟩ := hright.first (h₂.steps hbranch (.refl _)) hkr hatr hr
      (fun r hr => hrs r (List.mem_append_right _ hr)) hnr hsize
    obtain ⟨h₄, hlast⟩ := (h₃.ends (by omega)).pop_one hatp' (by decide)
    have h₅ := (h₄.steps (reaches_undecided hu hatd (Flat.isTrue_regs _ _)) (hset _ _)).push hats
      (by simp) (by simpa using hfour) hsize
    rw [Flat.State.processor_set, Flat.State.set_regs, if_pos rfl, Flat.word_truthWord, hlast] at h₅
    exact ⟨_, h₅.ends (by simp; omega)⟩

end

theorem Expr.leavesWord_not (hu : (labelsOf code).Nodup) (l : Line) {operand : Expr}
    (h : operand.LeavesWord code data s) (hfree : operand.callFree = true) :
    (Expr.not l operand).LeavesWord code data s := by
  intro n m p k v rs c hk hat hv hsize hrs
  have hfour := lowered_le_deepest k
  rw [Expr.lowered_code (e := .not l operand) hfree hk] at hfour
  obtain ⟨done, _, -, ko, _, hko, rfl, -⟩ := Expr.code_not_eq_ok.1 hk
  obtain ⟨a, ha, rfl⟩ := Expr.wordValue_not_eq_some.1 hv
  have hdeepest : deepest ko ≤ deepest (ko ++ popReg .t0 ++
      [.li .s0 0, .bnez .t0 done, .li .s0 1, .label done] ++ pushReg .s0) := by
    rw [List.append_assoc, List.append_assoc]
    exact deepest_le_append_left _ _
  simp only [codeAt_append, List.length_append, length_popReg, ← Nat.add_assoc] at hat
  obtain ⟨⟨⟨hato, hatp⟩, hatn⟩, hats⟩ := hat
  obtain ⟨c₁, h₁⟩ := h.first .refl hko hato ha hrs hdeepest hsize
  obtain ⟨h₂, htest⟩ := h₁.pop_one hatp (by decide)
  obtain ⟨c₃, hreach, hsame, hreg⟩ := Flat.exists_negated (c := c₁.pop .t0) hu hatn
  have h₃ := (h₂.steps hreach hsame).push hats (by simp) (by simpa using hfour) hsize
  rw [hreg, htest] at h₃
  exact ⟨_, h₃.ends (by simp; omega)⟩

theorem Expr.leavesWord (hu : (labelsOf code).Nodup) {e : Expr} (hfree : e.callFree = true) :
    e.LeavesWord code data s := by
  induction e with
  | int l i => exact Expr.leavesWord_int l i
  | bool l b => exact Expr.leavesWord_bool l b
  | scalar l x => exact Expr.leavesWord_scalar l x
  | element l x index ih => exact Expr.leavesWord_element l x (ih hfree) hfree
  | call l f args => cases hfree
  | binary l op left right ihl ihr =>
    obtain ⟨hl, hr⟩ := Bool.and_eq_true_iff.1 hfree
    cases hop : op.order with
    | leftFirst => exact Expr.leavesWord_leftFirst l (ihl hl) (ihr hr) hfree hop
    | rightFirst => exact Expr.leavesWord_rightFirst l (ihl hl) (ihr hr) hfree hop
    | shortCircuit d => exact Expr.leavesWord_shortCircuit l (ihl hl) (ihr hr) hfree hu hop
  | not l operand ih => exact Expr.leavesWord_not hu l (ih hfree) hfree

end

/-- What the code of an expression without calls does on the machine with flat memory, from any state
and wherever it stands among different labels. If the expression means a word there and reads none of its
scratch area, and if the area does not meet itself, then the code runs to its end, has pushed that word,
and has changed nothing else but temporaries and the scratch area. -/
theorem Expr.code_pushes_wordValue {e : Expr} {s : Storage} (hfree : e.callFree = true)
    (hstored : ∀ x ∈ e.variables, s.Stores x) :
    (∀ n, n + e.labels < labelLimit → ∃ k, e.code s n = .ok (k, n + e.labels)) ∧
    ∀ n m k, e.code s n = .ok (k, m) → (labelsOf k).Nodup ∧
      ∀ code p data c v rs, CodeAt code p k → (labelsOf code).Nodup →
        e.wordValue s data c = some (v, rs) → deepest k ≤ 4294967296 →
        (∀ a ∈ rs, Flat.Clear (c.regs .sp) (deepest k) a) →
        ∃ c', Flat.Machine.Reaches code data ⟨p, c⟩ ⟨p + k.length, c'⟩ ∧
          c'.regs .sp = c.regs .sp - 4 ∧ c'.load (c.regs .sp) = v ∧
          (∀ r, r ∉ [.t0, .t1, .t4, .s0, .sp] → c'.regs r = c.regs r) ∧
          ∀ a, ¬ Flat.InScratch (c.regs .sp) (deepest k) a → c'.mem a = c.mem a := by
  refine ⟨fun n hn => Expr.uses_code hstored n hn, fun n m k hk => ⟨?_, ?_⟩⟩
  · exact (Expr.numbered_code hk).nodup
  · intro code p data c v rs hat hu hv hsize hrs
    obtain ⟨c', h⟩ := Expr.leavesWord hu hfree hk hat hv hsize hrs
    refine ⟨c', h.reaches, h.sp, ?_, fun r hr => ?_, h.mem⟩
    · have := h.held 0 v rfl
      rwa [Flat.below_zero] at this
    · simp only [List.mem_cons, not_or] at hr
      exact h.regs r (by simp [Flat.temporaries, hr]) hr.2.2.2.2.1

/-- An element of a local array is read, at an index that a global has, and a division by zero is
skipped. -/
theorem code_pushes_wordValue_skipped :
    let s : Storage := ⟨⟨[("i", 1)], []⟩, "f", ⟨[("xs", ⟨44, 8⟩)], [], 0, 8, true⟩⟩
    let e : Expr := .binary 1 .or (.binary 1 .greater (.int 1 1) (.element 1 "xs" (.scalar 1 "i")))
      (.binary 1 .equal (.binary 1 .div (.int 1 1) (.int 1 0)) (.int 1 0))
    let c := Flat.zeros 0x7fff0000 0x7fff0010
    ∃ k c', e.code s 0 = .ok (k, 2) ∧
      Flat.Machine.Reaches k (fun _ => 0x10010000) ⟨0, c⟩ ⟨0 + k.length, c'⟩ ∧
      c'.load 0x7fff0000 = 1 := by
  intro s e c
  have hstored : ∀ x ∈ e.variables, s.Stores x := by
    rw [show e.variables = ["xs", "i"] from rfl]
    simp only [List.forall_mem_cons, List.not_mem_nil, false_imp_iff, implies_true, and_true]
    exact ⟨.inr ⟨44, rfl⟩, .inl rfl⟩
  obtain ⟨hsome, hcode⟩ := Expr.code_pushes_wordValue (e := e) rfl hstored
  obtain ⟨k, hk⟩ := hsome 0 (by decide)
  have hdeepest : deepest k = 8 := by
    have : (e.code s 0).toOption.map (deepest ·.1) = some 8 := by decide +kernel
    rw [hk] at this
    exact Option.some.inj this
  obtain ⟨hu, hrun⟩ := hcode 0 _ k hk
  have hat : CodeAt k 0 k := by simpa using codeAt_of_split [] k []
  have hv : e.wordValue s (fun _ => 0x10010000) c = some (1, [0x10010000, 0x7fff003c]) := by
    decide +kernel
  have hrs : ∀ a ∈ [0x10010000, 0x7fff003c], Flat.Clear (c.regs .sp) (deepest k) a := by
    rw [hdeepest]
    simp only [List.forall_mem_cons, List.not_mem_nil, false_imp_iff, implies_true, and_true]
    exact ⟨Flat.clear_of_le (by decide) (by decide), Flat.clear_of_le (by decide) (by decide)⟩
  obtain ⟨c', hreach, -, hload, -⟩ := hrun k 0 _ c 1 _ hat hu hv (by rw [hdeepest]; decide) hrs
  exact ⟨k, c', hk, hreach, hload⟩

end ProcMips
