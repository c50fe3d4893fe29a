import ProcMips.Proofs.CodeGen.Correspondence
import ProcMips.Proofs.CodeGen.Decisions

/-! The code of an expression pushes the word of its value. It keeps all that lies above the stack
pointer, so the frame stays as it is and so do the operands that wait on the stack. -/

namespace ProcMips

open Mips

/-- The word that stands for a value. -/
def Value.word : Value → Int
  | int n => n
  | bool b => truthWord b

section

variable (code : List Instr) (inputs : List Int) (t : Tables)

/-- Calls come back, from the arguments on the stack of `c₀` to the result in their place. -/
def CallsReturn (call : String → List Int → Eval Int) : Prop :=
  ∀ (f : String) (args : List Int) (w : World) (r : Int) (w' : World),
    call f args w = some (r, w') →
  ∀ (c₀ c : Core) (ra : Nat), c₀.Pushes args c → 4 ∣ c₀.regs .sp → c.regs .ra = ra →
    w.Matches code t c →
  ∃ target c', resolve code (procLabel f) = some target ∧
    Machine.Reaches code inputs ⟨target, c⟩ ⟨ra, c'⟩ ∧ c₀.Pushes [r] c' ∧ w'.Matches code t c'

/-- From `c` at `p` the machine gets to `c'` at `q`, with the words `ns` on the stack of `c` and in
the world `w`. -/
structure Leaves (p q : Nat) (c : Core) (ns : List Int) (w : World) (c' : Core) : Prop where
  reaches : Machine.Reaches code inputs ⟨p, c⟩ ⟨q, c'⟩
  pushes : c.Pushes ns c'
  aligned : 4 ∣ c'.regs .sp
  world : w.Matches code t c'

end

@[simp] theorem length_popReg (r : Register) : (popReg r).length = 2 := rfl

@[simp] theorem length_pushReg (r : Register) : (pushReg r).length = 2 := rfl

variable {code : List Instr} {inputs : List Int} {t : Tables} {p q : Nat} {c c₁ c₂ : Core}
  {ns ms : List Int} {w w' : World}

namespace Leaves

theorem refl (h : w.Matches code t c) (ha : 4 ∣ c.regs .sp) : Leaves code inputs t p p c [] w c :=
  ⟨.refl, .refl c, ha, h⟩

theorem trans {q' : Nat} (h : Leaves code inputs t p q c ns w c₁)
    (h' : Leaves code inputs t q q' c₁ ms w' c₂) :
    Leaves code inputs t p q' c (ns ++ ms) w' c₂ :=
  ⟨h.reaches.trans h'.reaches, h.pushes.trans h'.pushes, h'.aligned, h'.world⟩

theorem ends {q' : Nat} (h : Leaves code inputs t p q c ns w c₁) (hq : q' = q) :
    Leaves code inputs t p q' c ns w c₁ := hq ▸ h

theorem goto {q' : Nat} (h : Leaves code inputs t p q c ns w c₁)
    (hr : Machine.Reaches code inputs ⟨q, c₁⟩ ⟨q', c₁⟩) : Leaves code inputs t p q' c ns w c₁ :=
  ⟨h.reaches.trans hr, h.pushes, h.aligned, h.world⟩

/-- Behind code that changes only some registers. -/
theorem steps {q' : Nat} {rs : List Register} (h : Leaves code inputs t p q c ns w c₁)
    (hr : Machine.Reaches code inputs ⟨q, c₁⟩ ⟨q', c₂⟩) (hs : c₁.SameExcept rs c₂)
    (hsp : .sp ∉ rs) (hfp : .fp ∉ rs) : Leaves code inputs t p q' c ns w c₂ :=
  ⟨h.reaches.trans hr, h.pushes.except hs hsp hfp, by rw [hs.regs _ hsp]; exact h.aligned,
    h.world.congr hs.sameWorld⟩

/-- The word that was pushed last is popped. -/
theorem pop {n : Int} {r : Register} (h : Leaves code inputs t p q c (ns ++ [n]) w c₁)
    (hat : CodeAt code q (popReg r)) (hsp : r ≠ .sp) (hfp : r ≠ .fp) :
    Leaves code inputs t p (q + 2) c ns w (c₁.pop r) ∧ (c₁.pop r).regs r = n := by
  refine ⟨⟨h.reaches.trans (reaches_of_effects hat (effects_popReg hsp h.aligned)), h.pushes.pop hfp,
    ?_, h.world.congr (Core.sameExcept_pop c₁ r).sameWorld⟩, h.pushes.pop_regs hsp⟩
  have := h.aligned
  simp only [Core.pop, Core.set_regs, if_true, wordSize]
  omega

theorem pop_one {n : Int} {r : Register} (h : Leaves code inputs t p q c [n] w c₁)
    (hat : CodeAt code q (popReg r)) (hsp : r ≠ .sp) (hfp : r ≠ .fp) :
    Leaves code inputs t p (q + 2) c [] w (c₁.pop r) ∧ (c₁.pop r).regs r = n := by
  rw [← List.nil_append [n]] at h
  exact h.pop hat hsp hfp

/-- Two words are popped, the one that was pushed last into `$t1`. -/
theorem pop_two {a b : Int} (h : Leaves code inputs t p q c [a, b] w c₁)
    (hat₁ : CodeAt code q (popReg .t1)) (hat₀ : CodeAt code (q + 2) (popReg .t0)) :
    ∃ c₂, Leaves code inputs t p (q + 4) c [] w c₂ ∧ c₂.regs .t0 = a ∧ c₂.regs .t1 = b := by
  rw [← List.singleton_append] at h
  obtain ⟨h₁, hb⟩ := h.pop hat₁ (by simp) (by simp)
  obtain ⟨h₀, ha⟩ := h₁.pop_one hat₀ (by simp) (by simp)
  exact ⟨_, h₀, ha, by rw [Core.pop_regs_of_ne _ (by simp) (by simp), hb]⟩

theorem push {r : Register} (h : Leaves code inputs t p q c ns w c₁)
    (hat : CodeAt code q (pushReg r)) (hsp : r ≠ .sp) :
    Leaves code inputs t p (q + 2) c (ns ++ [c₁.regs r]) w (c₁.push r) := by
  refine ⟨h.reaches.trans (reaches_of_effects hat (effects_pushReg hsp h.aligned)), h.pushes.push r,
    ?_, h.world.congr (Core.sameWorld_push c₁ r)⟩
  have := h.aligned
  simp only [Core.push_regs, if_true, wordSize]
  omega

/-- Most expressions end in an instruction that computes the value, in a register that is pushed. -/
theorem value {i : Instr} {r : Register} {n : Int} (h : Leaves code inputs t p q c ns w c₁)
    (hat : CodeAt code q (i :: pushReg r)) (hi : (Core.processor code inputs).effect i c₁ = some (c₁.set r n))
    (hsp : r ≠ .sp) (hfp : r ≠ .fp) :
    Leaves code inputs t p (q + 3) c (ns ++ [n]) w ((c₁.set r n).push r) := by
  have hset := h.steps (.of_step (step_of_effect hat.1 hi))
    (Core.sameExcept_set_self c₁ r n) (by simpa using hsp.symm)
    (by simpa using hfp.symm)
  have hpush := hset.push hat.2 hsp
  rwa [Core.set_regs, if_pos rfl] at hpush

/-- Two operands are popped, the one evaluated last first, and their result is pushed. -/
theorem combine {o : Op} {a b n : Int} (h : Leaves code inputs t p q c [a, b] w c₁)
    (hat₁ : CodeAt code q (popReg .t1)) (hat₀ : CodeAt code (q + 2) (popReg .t0))
    (hato : CodeAt code (q + 4) (.op o .s0 .t0 .t1 :: pushReg .s0)) (ho : o.apply a b = some n) :
    ∃ c', Leaves code inputs t p (q + 7) c [n] w c' := by
  obtain ⟨c₂, h₂, ha, hb⟩ := h.pop_two hat₁ hat₀
  exact ⟨_, h₂.value hato (by
    simp only [Processor.effect, Core.processor, ha, hb, ho, Option.map_some]) (by simp) (by simp)⟩

end Leaves

/-- What is ready stays ready while words are pushed. -/
theorem Ready.after {s : Storage} {base size : Int} {locals : Env} {w₀ : World}
    (hr : Ready code s base ⟨locals, w₀⟩ c) (hf : s.frame.Laid size)
    (h : Leaves code inputs s.tables p q c ns w c₁) : Ready code s base ⟨locals, w⟩ c₁ :=
  hr.pushes hf h.pushes h.world

namespace BinOp

theorem decisive_eq (op : BinOp) :
    op.decisive = match op.order with
      | .shortCircuit d => some d
      | _ => none := by
  cases op <;> rfl

theorem rightFirst_eq (op : BinOp) : op.rightFirst = (op.order == .rightFirst) := by
  cases op <;> rfl

/-- The instruction of an operator computes its value, on the operands in the order in which they are
evaluated. -/
theorem instr_apply {op : BinOp} {o : Op} {n m : Nat} {a b : Int} {v : Value}
    (ho : op.instr n = .ok (o, m)) (hv : op.apply a b = some v) :
    (if op.rightFirst then o.apply b a else o.apply a b) = some v.word := by
  cases op with
  | and | or => exact absurd ho gen_throw_ne_ok
  | add | sub | mul =>
    obtain ⟨rfl, -⟩ := gen_pure_eq_ok.1 ho
    obtain ⟨-, hv⟩ := Option.ite_none_right_eq_some.1 hv
    cases hv
    rfl
  | div | rem =>
    obtain ⟨rfl, -⟩ := gen_pure_eq_ok.1 ho
    obtain ⟨⟨hb, -⟩, hv⟩ := Option.ite_none_right_eq_some.1 hv
    cases hv
    simp [rightFirst, Op.apply, Value.word, hb]
  | less | lessEqual | equal | greaterEqual | greater =>
    obtain ⟨rfl, -⟩ := gen_pure_eq_ok.1 ho
    cases hv
    simp [rightFirst, Op.apply, Value.word, truthWord]

end BinOp

theorem isTrue_of_truthWord {b : Bool} {r : Register} (h : c.regs r = truthWord b) :
    (Core.processor code inputs).isTrue ((Core.processor code inputs).regs c r) = b := by
  change decide (c.regs r ≠ 0) = b
  rw [h]
  cases b <;> rfl

variable (inputs) in
theorem exists_negated {b : Bool} {done : String} (hu : (labelsOf code).Nodup)
    (hat : CodeAt code p [.li .s0 0, .bnez .t0 done, .li .s0 1, .label done])
    (hr : c.regs .t0 = truthWord b) :
    ∃ c', Machine.Reaches code inputs ⟨p, c⟩ ⟨p + 4, c'⟩ ∧ c.SameExcept [.s0] c' ∧
      c'.regs .s0 = truthWord !b := by
  have hreg : (c.set .s0 0).regs .t0 = truthWord b := by simpa using hr
  have hreach : Machine.Reaches code inputs ⟨p, c⟩ _ :=
    reaches_negated hu hat (isTrue_of_truthWord hreg)
  have hfirst : c.SameExcept [.s0] (c.set .s0 0) := Core.sameExcept_set_self c .s0 0
  cases b with
  | true => exact ⟨_, hreach, hfirst, Core.set_regs _ _ _ _⟩
  | false => exact ⟨_, hreach, hfirst.trans (Core.sameExcept_set_self _ .s0 1), Core.set_regs _ _ _ _⟩

/-- Wherever the code of an expression stands, it pushes the value. -/
def Expr.Pushed (code : List Instr) (inputs : List Int) (s : Storage) (base : Int)
    (call : String → List Int → Eval Int) (locals : Env) (e : Expr) : Prop :=
  ∀ ⦃n m p : Nat⦄ ⦃k : List Instr⦄ ⦃v : Value⦄ ⦃w w' : World⦄ ⦃c : Core⦄,
    e.eval call locals w = some (v, w') → e.code s n = .ok (k, m) → CodeAt code p k →
    Ready code s base ⟨locals, w⟩ c →
    ∃ c', Leaves code inputs s.tables p (p + k.length) c [v.word] w' c'

section

variable {s : Storage} {base size : Int} {call : String → List Int → Eval Int} {locals : Env}

theorem Expr.pushed_int (l : Line) (i : Int) :
    (Expr.int l i).Pushed code inputs s base call locals := by
  intro n m p k v w w' c he hk hat hr
  obtain ⟨rfl, rfl⟩ := run_pure_eq_some.1 he
  obtain ⟨rfl, -⟩ := Expr.code_int_eq_ok.1 hk
  exact ⟨_, (Leaves.refl hr.world hr.aligned).value hat rfl (by simp) (by simp)⟩

theorem Expr.pushed_bool (l : Line) (b : Bool) :
    (Expr.bool l b).Pushed code inputs s base call locals := by
  intro n m p k v w w' c he hk hat hr
  obtain ⟨rfl, rfl⟩ := run_pure_eq_some.1 he
  obtain ⟨rfl, -⟩ := Expr.code_bool_eq_ok.1 hk
  exact ⟨_, (Leaves.refl hr.world hr.aligned).value hat rfl (by simp) (by simp)⟩

section

variable (hf : s.frame.Laid size)

include hf

theorem Expr.pushed_scalar (l : Line) (x : String) :
    (Expr.scalar l x).Pushed code inputs s base call locals := by
  intro n m p k v w w' c he hk hat hr
  simp only [Expr.eval, run_bind_eq_some, run_pure_eq_some] at he
  obtain ⟨i, _, hread, rfl, rfl⟩ := he
  obtain ⟨a, _, ha, rfl, rfl⟩ := Expr.code_scalar_eq_ok.1 hk
  obtain ⟨rfl, haccess, hmem⟩ := hr.read hf hread
  have hlw : (Core.processor code inputs).effect (.lw .t0 a) c = some (c.set .t0 i) :=
    effect_lw (place_scalarAddress hr.fp ha) haccess hmem
  exact ⟨_, (Leaves.refl hr.world hr.aligned).value hat hlw (by simp) (by simp)⟩

theorem Expr.pushed_element (l : Line) (x : String) {index : Expr}
    (h : index.Pushed code inputs s base call locals) :
    (Expr.element l x index).Pushed code inputs s base call locals := by
  intro n m p k v w w' c he hk hat hr
  simp only [Expr.eval, run_bind_eq_some, Eval.need_eq_some, run_pure_eq_some,
    Value.int?_eq_some] at he
  obtain ⟨_, w₁, hi, i, _, ⟨rfl, rfl⟩, a, _, hread, rfl, rfl⟩ := he
  obtain ⟨ki, _, hki, scale, address, _, haddress, rfl, rfl⟩ := Expr.code_element_eq_ok.1 hk
  simp only [codeAt_append, List.length_append, length_popReg, ← Nat.add_assoc] at hat
  obtain ⟨⟨⟨hati, hatp⟩, hats⟩, hatl⟩ := hat
  obtain ⟨c₁, h₁⟩ := h hi hki hati hr
  obtain ⟨h₂, hindex⟩ := h₁.pop_one hatp (by simp) (by simp)
  obtain ⟨c₃, heffects, hplace, hsame⟩ :=
    effects_elementAddress code inputs (.inl rfl) (hr.after hf h₂).fp haddress
  rw [hindex] at hplace
  have h₃ := h₂.steps (reaches_of_effects hats heffects) hsame (by simp) (by simp)
  obtain ⟨rfl, haccess, hmem⟩ := (hr.after hf h₃).read hf hread
  have hlw : (Core.processor code inputs).effect (.lw .t1 address) c₃ = some (c₃.set .t1 a) :=
    effect_lw hplace haccess hmem
  exact ⟨_, (h₃.value hatl hlw (by simp) (by simp)).ends (by simp; omega)⟩

/-- The arguments of a call are pushed from left to right. -/
theorem Expr.leaves_codes_of {es : List Expr}
    (h : ∀ e ∈ es, e.Pushed code inputs s base call locals) {n m : Nat} {k : List Instr}
    (he : Expr.evalAll call locals es w = some (ns, w')) (hk : Expr.codes s es n = .ok (k, m))
    (hat : CodeAt code p k) (hr : Ready code s base ⟨locals, w⟩ c) :
    ∃ c', Leaves code inputs s.tables p (p + k.length) c ns w' c' := by
  induction es generalizing n m k p c w ns with
  | nil =>
    obtain ⟨rfl, rfl⟩ := run_pure_eq_some.1 he
    obtain ⟨rfl, -⟩ := Expr.codes_nil_eq_ok.1 hk
    exact ⟨c, .refl hr.world hr.aligned⟩
  | cons e es ih =>
    rw [List.forall_mem_cons] at h
    simp only [Expr.evalAll, run_bind_eq_some, Eval.need_eq_some, run_pure_eq_some] at he
    obtain ⟨v, w₁, hv, a, _, ⟨hint, rfl⟩, as, _, has, rfl, rfl⟩ := he
    obtain ⟨k₁, _, hk₁, k₂, _, hk₂, rfl, rfl⟩ := Expr.codes_cons_eq_ok.1 hk
    obtain ⟨hat₁, hat₂⟩ := codeAt_append.1 hat
    obtain rfl := Value.int?_eq_some.1 hint
    obtain ⟨c₁, h₁⟩ := h.1 hv hk₁ hat₁ hr
    obtain ⟨c₂, h₂⟩ := ih h.2 has hk₂ hat₂ (hr.after hf h₁)
    refine ⟨c₂, ?_⟩
    rw [List.length_append, ← Nat.add_assoc]
    exact h₁.trans h₂

theorem Expr.pushed_call (hcall : CallsReturn code inputs s.tables call) (l : Line) (f : String)
    {args : List Expr} (h : ∀ e ∈ args, e.Pushed code inputs s base call locals) :
    (Expr.call l f args).Pushed code inputs s base call locals := by
  intro n m p k v w w' c he hk hat hr
  simp only [Expr.eval, run_bind_eq_some, run_pure_eq_some] at he
  obtain ⟨as, w₁, has, r, _, hrun, rfl, rfl⟩ := he
  obtain ⟨ka, _, hka, rfl, rfl⟩ := Expr.code_call_eq_ok.1 hk
  obtain ⟨hata, hatj, -⟩ := codeAt_append.1 hat
  obtain ⟨c₁, h₁⟩ := Expr.leaves_codes_of hf h has hka hata hr
  let c₂ := c₁.set .ra (p + ka.length + 1 : Nat)
  obtain ⟨target, c₃, hresolve, hreach, hpush, hworld⟩ := hcall f as w₁ r _ hrun c c₂
    (p + ka.length + 1) (h₁.pushes.set _ (by simp) (by simp)) hr.aligned (by simp [c₂])
    (h₁.world.congr (Core.sameExcept_set_self c₁ .ra _).sameWorld)
  rw [List.length_append, List.length_singleton, ← Nat.add_assoc]
  exact ⟨c₃, h₁.reaches.trans ((reaches_jal hatj hresolve).trans hreach), hpush,
    hpush.aligned hr.aligned, hworld⟩

/-- Two operands, one evaluated after the other, and their instruction. -/
theorem Expr.leaves_operands {e₁ e₂ : Expr} {n₁ n₂ m₁ m₂ : Nat} {k₁ k₂ : List Instr} {a b r : Int}
    {w₁ : World} {o : Op} (h₁ : e₁.Pushed code inputs s base call locals)
    (h₂ : e₂.Pushed code inputs s base call locals)
    (he₁ : e₁.eval call locals w = some (.int a, w₁))
    (he₂ : e₂.eval call locals w₁ = some (.int b, w')) (hk₁ : e₁.code s n₁ = .ok (k₁, m₁))
    (hk₂ : e₂.code s n₂ = .ok (k₂, m₂)) (ho : o.apply a b = some r)
    (hat : CodeAt code p
      (k₁ ++ k₂ ++ popReg .t1 ++ popReg .t0 ++ .op o .s0 .t0 .t1 :: pushReg .s0))
    (hr : Ready code s base ⟨locals, w⟩ c) :
    ∃ c', Leaves code inputs s.tables p (p + (k₁.length + k₂.length + 7)) c [r] w' c' := by
  simp only [codeAt_append, List.length_append, length_popReg, ← Nat.add_assoc] at hat
  obtain ⟨⟨⟨⟨hatl, hatr⟩, hat₁⟩, hat₀⟩, hato⟩ := hat
  obtain ⟨c₁, hc₁⟩ := h₁ he₁ hk₁ hatl hr
  obtain ⟨c₂, hc₂⟩ := h₂ he₂ hk₂ hatr (hr.after hf hc₁)
  obtain ⟨c₃, hc₃⟩ := (hc₁.trans hc₂).combine hat₁ hat₀ hato ho
  exact ⟨c₃, hc₃.ends (by omega)⟩

section

variable (l : Line) {op : BinOp} {left right : Expr}
  (hleft : left.Pushed code inputs s base call locals)
  (hright : right.Pushed code inputs s base call locals)

include hleft hright

theorem Expr.pushed_leftFirst (hop : op.order = .leftFirst) :
    (Expr.binary l op left right).Pushed code inputs s base call locals := by
  intro n m p k v w w' c he hk hat hr
  rw [Expr.eval, BinOp.decisive_eq, BinOp.rightFirst_eq] at he
  simp only [hop, beq_eq_false_iff_ne.2, ne_eq, reduceCtorEq, not_false_eq_true,
    Bool.false_eq_true, if_false, run_bind_eq_some, Eval.need_eq_some, Value.int?_eq_some] at he
  obtain ⟨_, w₁, hl, a, _, ⟨rfl, rfl⟩, _, w₂, hr', b, _, ⟨rfl, rfl⟩, hv, rfl⟩ := he
  obtain ⟨kl, _, hkl, kr, _, hkr, o, _, ho, rfl, rfl⟩ := (Expr.code_leftFirst_eq_ok hop).1 hk
  have happly : o.apply a b = some v.word := by
    simpa [BinOp.rightFirst_eq, hop] using BinOp.instr_apply ho hv
  obtain ⟨c', h⟩ := Expr.leaves_operands hf hleft hright hl hr' hkl hkr happly hat hr
  exact ⟨c', h.ends (by simp; omega)⟩

theorem Expr.pushed_rightFirst (hop : op.order = .rightFirst) :
    (Expr.binary l op left right).Pushed code inputs s base call locals := by
  intro n m p k v w w' c he hk hat hr
  rw [Expr.eval, BinOp.decisive_eq, BinOp.rightFirst_eq] at he
  simp only [hop, beq_self_eq_true, if_true, run_bind_eq_some, Eval.need_eq_some,
    Value.int?_eq_some] at he
  obtain ⟨_, w₁, hr', b, _, ⟨rfl, rfl⟩, _, w₂, hl, a, _, ⟨rfl, rfl⟩, hv, rfl⟩ := he
  obtain ⟨kr, _, hkr, kl, _, hkl, o, _, ho, rfl, rfl⟩ := (Expr.code_rightFirst_eq_ok hop).1 hk
  have happly : o.apply b a = some v.word := by
    simpa [BinOp.rightFirst_eq, hop] using BinOp.instr_apply ho hv
  obtain ⟨c', h⟩ := Expr.leaves_operands hf hright hleft hr' hl hkr hkl happly hat hr
  exact ⟨c', h.ends (by simp; omega)⟩

theorem Expr.pushed_shortCircuit (hu : (labelsOf code).Nodup) {d : Bool}
    (hop : op.order = .shortCircuit d) :
    (Expr.binary l op left right).Pushed code inputs s base call locals := by
  intro n m p k v w w' c he hk hat hr
  rw [Expr.eval, BinOp.decisive_eq] at he
  simp only [hop, run_bind_eq_some, Eval.need_eq_some, Value.bool?_eq_some] at he
  obtain ⟨_, w₁, hl, b, _, ⟨rfl, rfl⟩, he⟩ := he
  obtain ⟨decided, _, -, done, _, -, kl, _, hkl, kr, _, hkr, rfl, rfl⟩ :=
    (Expr.code_shortCircuit_eq_ok hop).1 hk
  simp only [codeAt_append, List.length_append, List.length_cons, List.length_nil,
    length_popReg, ← Nat.add_assoc] at hat
  obtain ⟨⟨⟨⟨⟨hatl, hatp⟩, hatb, hatr⟩, hatp'⟩, hatd⟩, hats⟩ := hat
  have hatd : CodeAt code _ (decisionCode d decided done) := hatd
  obtain ⟨c₁, h₁⟩ := hleft hl hkl hatl hr
  obtain ⟨h₂, htest⟩ := h₁.pop_one hatp (by simp) (by simp)
  have hbranch : Machine.Reaches code inputs ⟨_, c₁.pop .t0⟩ _ :=
    reaches_branch hatb (resolve_eq_some hu hatd.2.2.2.1)
  rw [isTrue_of_truthWord htest] at hbranch
  split_ifs at he hbranch with hb
  · -- the left operand decides, and the right one is skipped
    obtain ⟨rfl, rfl⟩ := run_pure_eq_some.1 he
    have h₃ : Leaves code inputs s.tables p _ c [] _ ((c₁.pop .t0).set .s0 (truthWord d)) :=
      h₂.steps (hbranch.trans (reaches_decided hatd)) (Core.sameExcept_set_self _ .s0 _) (by simp) (by simp)
    have h₄ := h₃.push hats (by simp)
    rw [Core.set_regs, if_pos rfl] at h₄
    exact ⟨_, h₄.ends (by simp; omega)⟩
  · simp only [run_bind_eq_some, Eval.need_eq_some, Value.bool?_eq_some, run_pure_eq_some] at he
    obtain ⟨_, w₂, hr', b', _, ⟨rfl, rfl⟩, rfl, rfl⟩ := he
    have h₃ := h₂.goto hbranch
    obtain ⟨c₂, h₄⟩ := hright hr' hkr hatr (hr.after hf h₃)
    obtain ⟨h₅, hlast⟩ := ((h₃.trans h₄).ends (by omega)).pop_one hatp' (by simp) (by simp)
    have h₆ : Leaves code inputs s.tables p _ c [] _ ((c₂.pop .t0).set .s0 (truthWord b')) :=
      h₅.steps (reaches_undecided hu hatd (isTrue_of_truthWord hlast)) (Core.sameExcept_set_self _ .s0 _)
        (by simp) (by simp)
    have h₇ := h₆.push hats (by simp)
    rw [Core.set_regs, if_pos rfl] at h₇
    exact ⟨_, h₇.ends (by simp; omega)⟩

end

end

theorem Expr.pushed_not (hu : (labelsOf code).Nodup) (l : Line) {operand : Expr}
    (h : operand.Pushed code inputs s base call locals) :
    (Expr.not l operand).Pushed code inputs s base call locals := by
  intro n m p k v w w' c he hk hat hr
  simp only [Expr.eval, run_bind_eq_some, Eval.need_eq_some, run_pure_eq_some,
    Value.bool?_eq_some] at he
  obtain ⟨_, w₁, ho, b, _, ⟨rfl, rfl⟩, rfl, rfl⟩ := he
  obtain ⟨done, _, -, ko, _, hko, rfl, rfl⟩ := Expr.code_not_eq_ok.1 hk
  simp only [codeAt_append, List.length_append, length_popReg, ← Nat.add_assoc] at hat
  obtain ⟨⟨⟨hato, hatp⟩, hatn⟩, hats⟩ := hat
  obtain ⟨c₁, h₁⟩ := h ho hko hato hr
  obtain ⟨h₂, htest⟩ := h₁.pop_one hatp (by simp) (by simp)
  obtain ⟨c₃, hreach, hsame, hreg⟩ := exists_negated inputs hu hatn htest
  have h₃ := (h₂.steps hreach hsame (by simp) (by simp)).push hats (by simp)
  rw [hreg] at h₃
  exact ⟨_, h₃.ends (by simp; omega)⟩

theorem Expr.pushed (hf : s.frame.Laid size) (hu : (labelsOf code).Nodup)
    (hcall : CallsReturn code inputs s.tables call) (e : Expr) :
    e.Pushed code inputs s base call locals := by
  induction e with
  | int l i => exact Expr.pushed_int l i
  | bool l b => exact Expr.pushed_bool l b
  | scalar l x => exact Expr.pushed_scalar hf l x
  | element l x index ih => exact Expr.pushed_element hf l x ih
  | call l f args ih => exact Expr.pushed_call hf hcall l f ih
  | binary l op left right ihl ihr =>
    cases hop : op.order with
    | leftFirst => exact Expr.pushed_leftFirst hf l ihl ihr hop
    | rightFirst => exact Expr.pushed_rightFirst hf l ihl ihr hop
    | shortCircuit d => exact Expr.pushed_shortCircuit hf l ihl ihr hu hop
  | not l operand ih => exact Expr.pushed_not hu l ih

end

end ProcMips
