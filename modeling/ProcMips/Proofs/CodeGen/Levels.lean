import ProcMips.Proofs.Analysis.WellFormed
import ProcMips.Proofs.CodeGen.Activations
import ProcMips.Proofs.Machine.Levels

/-! The code of expressions and statements is level. An expression leaves the stack one word deeper, and
a statement as deep as it was, whatever is jumped over in them and wherever they return. -/

namespace ProcMips

open Mips

section

variable {x : Sizes} {marks : List (String × Int)} {base d e : Int} {k : List Instr}

namespace Mips

theorem LevelledBy.flat {i : Instr} (hd : base ≤ d) (hi : i.plain = true) (hg : i.growth x = 0)
    (hm : ∀ l ∈ i.mentions, (l, d) ∈ marks) (h : LevelledBy x marks base d k e) :
    LevelledBy x marks base d (i :: k) e :=
  .cons hd hi hm (by rwa [hg, Int.add_zero])

/-- The instruction leaves the stack pointer alone, and has nothing to do with labels. -/
def Instr.still : Instr → Bool
  | subi r _ _ | addi r _ _ | op _ r _ _ | li r _ | move r _ | lw r _ => r ≠ .sp
  | sw .. | syscall => true
  | _ => false

theorem LevelledBy.still {i : Instr} (hd : base ≤ d) (hi : i.still = true)
    (h : LevelledBy x marks base d k e) : LevelledBy x marks base d (i :: k) e := by
  have hplain : i.plain = true ∧ i.growth x = 0 ∧ i.mentions = [] := by
    cases i <;> simp_all [Instr.still, Instr.plain, Instr.growth, Instr.mentions]
  obtain ⟨hp, hg, hm⟩ := hplain
  exact .flat hd hp hg (by simp [hm]) h

theorem levelledBy_still (hd : base ≤ d) (hk : ∀ i ∈ k, i.still = true) :
    LevelledBy x marks base d k d := by
  induction k with
  | nil => exact .nil hd
  | cons i k ih =>
    rw [List.forall_mem_cons] at hk
    exact .still hd hk.1 (ih hk.2)

theorem levelled_still (hd : base ≤ d) (hk : ∀ i ∈ k, i.still = true) : Levelled x base d k d := by
  refine ⟨[], ?_, levelledBy_still hd hk⟩
  symm
  rw [List.map_nil, List.eq_nil_iff_forall_not_mem]
  intro l hl
  cases hk _ (mem_labelsOf.1 hl)

theorem levelledBy_pushReg (r : Register) (hd : base ≤ d) :
    LevelledBy x marks base d (pushReg r) (d + wordSize) := by
  have hd' : base ≤ d + wordSize := by unfold wordSize; omega
  exact .cons hd rfl (List.forall_mem_nil _) (.still hd' rfl (.nil hd'))

theorem levelledBy_popReg {r : Register} (hr : r ≠ .sp) (hd : base ≤ d) :
    LevelledBy x marks base (d + wordSize) (popReg r) d := by
  have hd' : base ≤ d + wordSize := by unfold wordSize; omega
  have hgrowth : d + wordSize + (Instr.addi .sp .sp wordSize).growth x = d :=
    Int.add_neg_cancel_right d wordSize
  refine .still hd' (by simpa [Instr.still] using hr) (.cons hd' rfl (List.forall_mem_nil _) ?_)
  rw [hgrowth]
  exact .nil hd

theorem levelled_pushReg (r : Register) (hd : base ≤ d) :
    Levelled x base d (pushReg r) (d + wordSize) :=
  ⟨[], rfl, levelledBy_pushReg r hd⟩

theorem levelled_popReg {r : Register} (hr : r ≠ .sp) (hd : base ≤ d) :
    Levelled x base (d + wordSize) (popReg r) d :=
  ⟨[], rfl, levelledBy_popReg hr hd⟩

end Mips

/-- Wherever the code of an expression stands, it leaves one word more. -/
def Expr.PushesWord (x : Sizes) (s : Storage) (e : Expr) : Prop :=
  ∀ ⦃d : Int⦄ ⦃n m : Nat⦄ ⦃k : List Instr⦄, x.base ≤ d → e.code s n = .ok (k, m) →
    Levelled x x.base d k (d + wordSize)

/-- Wherever the code of a statement stands, it leaves the stack as deep as it was. -/
def Stmt.StaysLevel (x : Sizes) (s : Storage) (t : Stmt) : Prop :=
  ∀ ⦃n m : Nat⦄ ⦃k : List Instr⦄, t.code s n = .ok (k, m) → Levelled x x.base x.base k x.base

section

variable {s : Storage}

theorem Storage.still_elementAddress {y : String} {scratch : Register} {n m : Nat} {c : List Instr}
    {a : Address} (hs : scratch ≠ .sp) (h : s.elementAddress y scratch n = .ok ((c, a), m)) :
    ∀ i ∈ c, i.still = true := by
  rw [Storage.elementAddress_eq_ok] at h
  obtain ⟨h, -⟩ := h
  split_ifs at h
  · obtain ⟨rfl, -⟩ := h
    simpa [scaled, Instr.still] using hs
  · obtain ⟨o, -, rfl, -⟩ := h
    simpa [scaled, Instr.still] using hs

namespace Expr

/-- An instruction that computes a value, which is pushed. -/
theorem levelled_value {i : Instr} {r : Register} (hd : x.base ≤ d) (hi : i.still = true) :
    Levelled x x.base d (i :: pushReg r) (d + wordSize) :=
  @Levelled.append _ _ _ _ _ [i] _ (levelled_still hd (by simpa using hi)) (levelled_pushReg r hd)

theorem pushesWord_int (l : Line) (i : Int) : (Expr.int l i).PushesWord x s := by
  intro d n m k hd hk
  obtain ⟨rfl, -⟩ := Expr.code_int_eq_ok.1 hk
  exact levelled_value hd rfl

theorem pushesWord_bool (l : Line) (b : Bool) : (Expr.bool l b).PushesWord x s := by
  intro d n m k hd hk
  obtain ⟨rfl, -⟩ := Expr.code_bool_eq_ok.1 hk
  exact levelled_value hd rfl

theorem pushesWord_scalar (l : Line) (y : String) : (Expr.scalar l y).PushesWord x s := by
  intro d n m k hd hk
  obtain ⟨a, _, -, rfl, -⟩ := Expr.code_scalar_eq_ok.1 hk
  exact levelled_value hd rfl

theorem pushesWord_element (l : Line) (y : String) {index : Expr}
    (h : index.PushesWord x s) : (Expr.element l y index).PushesWord x s := by
  intro d n m k hd hk
  obtain ⟨ki, _, hi, scale, a, _, ha, rfl, -⟩ := Expr.code_element_eq_ok.1 hk
  have hscale := Storage.still_elementAddress (by decide) ha
  exact (((h hd hi).append (levelled_popReg (by decide) hd)).append (levelled_still hd hscale)).append
    (levelled_value hd rfl)

theorem levelled_codes_of {es : List Expr} (h : ∀ e ∈ es, e.PushesWord x s) {n m : Nat}
    (hd : x.base ≤ d) (hk : Expr.codes s es n = .ok (k, m)) :
    Levelled x x.base d k (d + wordSize * es.length) := by
  induction es generalizing d n m k with
  | nil =>
    obtain ⟨rfl, -⟩ := Expr.codes_nil_eq_ok.1 hk
    simpa using levelled_still (x := x) (k := []) hd (by simp)
  | cons e es ih =>
    rw [List.forall_mem_cons] at h
    obtain ⟨k₁, _, h₁, k₂, _, h₂, rfl, -⟩ := Expr.codes_cons_eq_ok.1 hk
    have hrest := ih (d := d + wordSize) h.2 (by unfold wordSize; omega) h₂
    have hdepth : d + wordSize * ((e :: es).length : Int) = d + wordSize + wordSize * es.length := by
      rw [List.length_cons]
      unfold wordSize
      omega
    rw [hdepth]
    exact (h.1 hd h₁).append hrest

/-- Behind its arguments, a call leaves its result in their place. -/
theorem levelled_call {f : String} {es : List Expr} (h : ∀ e ∈ es, e.PushesWord x s)
    {n m : Nat} (hd : x.base ≤ d) (hk : Expr.codes s es n = .ok (k, m))
    (hf : x.released (procLabel f) = wordSize * es.length - wordSize) :
    Levelled x x.base d (k ++ [.jal (procLabel f)]) (d + wordSize) := by
  have hgrowth : d + wordSize * (es.length : Int) + (Instr.jal (procLabel f)).growth x =
      d + wordSize := by
    rw [Instr.growth, hf]
    omega
  refine (levelled_codes_of h hd hk).append ⟨[], rfl, .cons ?_ rfl (List.forall_mem_nil _) ?_⟩
  · unfold wordSize
    omega
  · rw [hgrowth]
    exact .nil (by unfold wordSize; omega)

theorem pushesWord_call (l : Line) {f : String} {args : List Expr}
    (hf : x.released (procLabel f) = wordSize * args.length - wordSize)
    (h : ∀ a ∈ args, a.PushesWord x s) : (Expr.call l f args).PushesWord x s := by
  intro d n m k hd hk
  obtain ⟨ka, _, ha, rfl, -⟩ := Expr.code_call_eq_ok.1 hk
  exact levelled_call h hd ha hf

section

variable {op : BinOp} {l : Line} {left right : Expr} (hleft : left.PushesWord x s)
  (hright : right.PushesWord x s)

include hleft hright

/-- Two operands are computed one after the other, popped and combined. -/
theorem levelled_operands {n₁ n₂ m₁ m₂ : Nat} {k₁ k₂ : List Instr} {o : Op} (hd : x.base ≤ d)
    (hl : left.code s n₁ = .ok (k₁, m₁)) (hr : right.code s n₂ = .ok (k₂, m₂)) :
    Levelled x x.base d (k₁ ++ k₂ ++ popReg .t1 ++ popReg .t0 ++ .op o .s0 .t0 .t1 :: pushReg .s0)
      (d + wordSize) := by
  have hd' : x.base ≤ d + wordSize := by unfold wordSize; omega
  exact ((((hleft hd hl).append (hright hd' hr)).append (levelled_popReg (by decide) hd')).append
    (levelled_popReg (by decide) hd)).append (levelled_value hd rfl)

omit hleft in
/-- The right operand can be jumped over, and the value is then put into `$s0`. -/
theorem levelled_decision (b : Bool) (decided done : String) {n m : Nat} (hd : x.base ≤ d)
    (hr : right.code s n = .ok (k, m)) :
    Levelled x x.base d ((if b then .bnez .t0 decided else .beqz .t0 decided) :: k ++ popReg .t0 ++
      decisionCode b decided done) d := by
  obtain ⟨marks, hmarks, h⟩ := hright hd hr
  let all := marks ++ [(decided, d), (done, d)]
  have hdecided : ∀ l ∈ [decided], (l, d) ∈ all := by simp [all]
  have hdone : ∀ l ∈ [done], (l, d) ∈ all := by simp [all]
  refine ⟨all, ?_, ?_⟩
  · cases b <;> simp [all, hmarks, labelsOf_cons, decisionCode]
  · have hbranch {k : List Instr} (h : LevelledBy x all x.base d k d) :
        LevelledBy x all x.base d
          ((if b then .bnez .t0 decided else .beqz .t0 decided) :: k) d := by
      cases b <;> exact .flat hd rfl rfl hdecided h
    have hend : LevelledBy x all x.base d (decisionCode b decided done) d :=
      hbranch (.still hd rfl (.flat hd rfl rfl hdone (.flat hd rfl rfl hdecided
        (.still hd rfl (.flat hd rfl rfl hdone (.nil hd))))))
    have hskipped : LevelledBy x all x.base d (k ++ popReg .t0) d :=
      (h.mono (List.subset_append_left _ _)).append (levelledBy_popReg (by decide) hd)
    rw [List.append_assoc, List.cons_append, ← List.append_assoc]
    exact hbranch (hskipped.append hend)

theorem pushesWord_binary : (Expr.binary l op left right).PushesWord x s := by
  intro d n m k hd hk
  cases hop : op.order with
  | leftFirst =>
    obtain ⟨kl, _, hl, kr, _, hr, o, _, -, rfl, -⟩ := (Expr.code_leftFirst_eq_ok hop).1 hk
    exact levelled_operands hleft hright hd hl hr
  | rightFirst =>
    obtain ⟨kr, _, hr, kl, _, hl, o, _, -, rfl, -⟩ := (Expr.code_rightFirst_eq_ok hop).1 hk
    exact levelled_operands hright hleft hd hr hl
  | shortCircuit b =>
    obtain ⟨decided, _, -, done, _, -, kl, _, hl, kr, _, hr, rfl, -⟩ :=
      (Expr.code_shortCircuit_eq_ok hop).1 hk
    have hdecision := levelled_decision hright b decided done hd hr
    have hall := (((hleft hd hl).append (levelled_popReg (r := .t0) (by decide) hd)).append
      hdecision).append (levelled_pushReg .s0 hd)
    simpa only [List.append_assoc, List.cons_append, decisionCode] using hall

end

theorem pushesWord_not (l : Line) {operand : Expr} (h : operand.PushesWord x s) :
    (Expr.not l operand).PushesWord x s := by
  intro d n m k hd hk
  obtain ⟨done, _, -, ko, _, ho, rfl, -⟩ := Expr.code_not_eq_ok.1 hk
  have hmark : ∀ l ∈ [done], (l, d) ∈ [(done, d)] := by simp
  have hnegate : Levelled x x.base d [.li .s0 0, .bnez .t0 done, .li .s0 1, .label done] d :=
    ⟨[(done, d)], rfl, .still hd rfl (.flat hd rfl rfl hmark (.still hd rfl
      (.flat hd rfl rfl hmark (.nil hd))))⟩
  exact (((h hd ho).append (levelled_popReg (by decide) hd)).append hnegate).append
    (levelled_pushReg .s0 hd)

/-- The procedures that can be called release their arguments but for one word. -/
theorem pushesWord {v : Visible} {callable : List Procedure} {e : Expr} {ty : Ty}
    (hcall : ∀ q ∈ callable,
      x.released (procLabel q.name) = wordSize * q.params.length - wordSize)
    (h : e.HasType v callable ty) : e.PushesWord x s := by
  induction h with
  | int l i => exact pushesWord_int l i
  | bool l b => exact pushesWord_bool l b
  | scalar l hy => exact pushesWord_scalar l _
  | element l hy _ ih => exact pushesWord_element l _ ih
  | call l hq hn _ ih => exact pushesWord_call l (by rw [hcall _ hq, hn]) ih
  | binary l _ _ ihl ihr => exact pushesWord_binary ihl ihr
  | not l _ ih => exact pushesWord_not l ih

end Expr

namespace Expr

/-- The value of an expression is popped. -/
theorem levelled_pop {e : Expr} (h : e.PushesWord x s) {r : Register} (hr : r ≠ .sp)
    {n m : Nat} (hk : e.code s n = .ok (k, m)) : Levelled x x.base x.base (k ++ popReg r) x.base :=
  (h (Int.le_refl _) hk).append (levelled_popReg hr (Int.le_refl _))

/-- A condition is level wherever the label that it can jump to stands at the same depth. -/
theorem exists_marks_branchCode {e : Expr} (h : e.PushesWord x s) {l : String} {n m : Nat}
    (hk : e.branchCode s l n = .ok (k, m)) :
    ∃ marks, marks.map Prod.fst = labelsOf k ∧ ∀ all, marks ⊆ all → (l, x.base) ∈ all →
      LevelledBy x all x.base x.base k x.base := by
  obtain ⟨kc, _, hc, rfl, -⟩ := Expr.branchCode_eq_ok.1 hk
  obtain ⟨marks, hmarks, hlevel⟩ := levelled_pop h (r := .s0) (by decide) hc
  refine ⟨marks, by simpa [labelsOf_cons] using hmarks, fun all hall hl => ?_⟩
  have hl : ∀ l' ∈ [l], (l', x.base) ∈ all := by simpa using hl
  have hle := Int.le_refl x.base
  exact (hlevel.mono hall).append (.flat hle rfl rfl hl (.nil hle))

end Expr

namespace Stmt

theorem staysLevel_assign (l : Line) {target : Target} {value : Expr}
    (ht : ∀ y index, target = .element y index → index.PushesWord x s)
    (hv : value.PushesWord x s) : (Stmt.assign l target value).StaysLevel x s := by
  intro n m k hk
  have hle := Int.le_refl x.base
  cases target with
  | scalar y =>
    obtain ⟨kv, _, hkv, a, _, -, rfl, -⟩ := Stmt.code_assign_scalar_eq_ok.1 hk
    exact (Expr.levelled_pop hv (by decide) hkv).append
      (levelled_still hle (List.forall_mem_singleton.2 rfl))
  | element y index =>
    obtain ⟨ki, _, hki, kv, _, hkv, scale, a, _, ha, rfl, -⟩ := Stmt.code_assign_element_eq_ok.1 hk
    have hle' : x.base ≤ x.base + wordSize := by unfold wordSize; omega
    have hscale := Storage.still_elementAddress (by decide) ha
    have hpops := (((ht y index rfl hle hki).append (hv hle' hkv)).append
      (levelled_popReg (r := .t1) (by decide) hle')).append (levelled_popReg (r := .t0) (by decide) hle)
    exact (hpops.append (levelled_still hle hscale)).append
      (levelled_still hle (List.forall_mem_singleton.2 rfl))

theorem staysLevel_input (l : Line) {target : Target}
    (ht : ∀ y index, target = .element y index → index.PushesWord x s) :
    (Stmt.input l target).StaysLevel x s := by
  intro n m k hk
  have hle := Int.le_refl x.base
  have hread : Levelled x x.base x.base readInt x.base := levelled_still hle (by decide)
  cases target with
  | scalar y =>
    obtain ⟨a, _, -, rfl, -⟩ := Stmt.code_input_scalar_eq_ok.1 hk
    exact hread.append (levelled_still hle (List.forall_mem_singleton.2 rfl))
  | element y index =>
    obtain ⟨ki, _, hki, scale, a, _, ha, rfl, -⟩ := Stmt.code_input_element_eq_ok.1 hk
    have hle' : x.base ≤ x.base + wordSize := by unfold wordSize; omega
    have hscale := Storage.still_elementAddress (by decide) ha
    have hpop := ((ht y index rfl hle hki).append
      (levelled_still hle' (k := readInt) (by decide))).append
      (levelled_popReg (r := .t0) (by decide) hle)
    exact (hpop.append (levelled_still hle hscale)).append
      (levelled_still hle (List.forall_mem_singleton.2 rfl))

theorem staysLevel_output (l : Line) {value : Expr} (hv : value.PushesWord x s) :
    (Stmt.output l value).StaysLevel x s := by
  intro n m k hk
  obtain ⟨kv, _, hkv, rfl, -⟩ := Stmt.code_output_eq_ok.1 hk
  exact (Expr.levelled_pop hv (by decide) hkv).append (levelled_still (Int.le_refl _) (by decide))

theorem staysLevel_ret (hsize : s.frame.size = .ok x.frame) (l : Line) {value : Expr}
    (hv : value.PushesWord x s) : (Stmt.ret l value).StaysLevel x s := by
  intro n m k hk
  obtain ⟨kv, _, hkv, ke, _, hke, rfl, -⟩ := Stmt.code_ret_eq_ok.1 hk
  rw [Storage.epilogue_eq_ok hsize hke]
  exact (Expr.levelled_pop hv (by decide) hkv).append levelled_epilogue

theorem staysLevel_call (l : Line) {f : String} {args : List Expr}
    (hf : x.released (procLabel f) = wordSize * args.length - wordSize)
    (h : ∀ a ∈ args, a.PushesWord x s) : (Stmt.call l f args).StaysLevel x s := by
  intro n m k hk
  obtain ⟨ka, _, hka, rfl, -⟩ := Stmt.code_call_eq_ok.1 hk
  have hle := Int.le_refl x.base
  have hall := (Expr.levelled_call h hle hka hf).append (levelled_popReg (r := .t0) (by decide) hle)
  rwa [List.append_assoc, List.singleton_append] at hall

theorem levelled_codes_of {ts : List Stmt} (h : ∀ t ∈ ts, t.StaysLevel x s) {n m : Nat}
    (hk : Stmt.codes s ts n = .ok (k, m)) : Levelled x x.base x.base k x.base := by
  induction ts generalizing n m k with
  | nil =>
    obtain ⟨rfl, -⟩ := Stmt.codes_nil_eq_ok.1 hk
    exact levelled_still (Int.le_refl _) (List.forall_mem_nil _)
  | cons t ts ih =>
    rw [List.forall_mem_cons] at h
    obtain ⟨k₁, _, h₁, k₂, _, h₂, rfl, -⟩ := Stmt.codes_cons_eq_ok.1 hk
    exact (h.1 h₁).append (ih h.2 h₂)

theorem staysLevel_ifThen (l : Line) {cond : Expr} {yes : Stmt} (hc : cond.PushesWord x s)
    (hy : yes.StaysLevel x s) : (Stmt.ifThen l cond yes).StaysLevel x s := by
  intro n m k hk
  obtain ⟨done, _, -, kc, _, hkc, ky, _, hky, rfl, -⟩ := Stmt.code_ifThen_eq_ok.1 hk
  obtain ⟨mc, hmc, hcond⟩ := Expr.exists_marks_branchCode hc hkc
  obtain ⟨my, hmy, hyes⟩ := hy hky
  let all := mc ++ my ++ [(done, x.base)]
  have hdone : ∀ l ∈ [done], (l, x.base) ∈ all := by simp [all]
  have hle := Int.le_refl x.base
  refine ⟨all, by simp [all, hmc, hmy], ?_⟩
  exact ((hcond all (by simp [all]) (hdone _ (by simp))).append (hyes.mono (by simp [all]))).append
    (.flat hle rfl rfl hdone (.nil hle))

theorem staysLevel_ifElse (l : Line) {cond : Expr} {yes no : Stmt} (hc : cond.PushesWord x s)
    (hy : yes.StaysLevel x s) (hn : no.StaysLevel x s) :
    (Stmt.ifElse l cond yes no).StaysLevel x s := by
  intro n m k hk
  obtain ⟨otherwise, _, -, done, _, -, kc, _, hkc, ky, _, hky, kn, _, hkn, rfl, -⟩ :=
    Stmt.code_ifElse_eq_ok.1 hk
  obtain ⟨mc, hmc, hcond⟩ := Expr.exists_marks_branchCode hc hkc
  obtain ⟨my, hmy, hyes⟩ := hy hky
  obtain ⟨mn, hmn, hno⟩ := hn hkn
  let all := mc ++ my ++ [(otherwise, x.base)] ++ mn ++ [(done, x.base)]
  have hdone : ∀ l ∈ [done], (l, x.base) ∈ all := by simp [all]
  have hotherwise : ∀ l ∈ [otherwise], (l, x.base) ∈ all := by simp [all]
  have hle := Int.le_refl x.base
  refine ⟨all, by simp [all, hmc, hmy, hmn, labelsOf_cons], ?_⟩
  have hfirst := (hcond all (by simp [all]) (hotherwise _ (by simp))).append
    (hyes.mono (by simp [all]))
  have hskip : LevelledBy x all x.base x.base [.j done, .label otherwise] x.base :=
    .flat hle rfl rfl hdone (.flat hle rfl rfl hotherwise (.nil hle))
  exact ((hfirst.append hskip).append (hno.mono fun _ hp => by simp [all, hp])).append
    (.flat hle rfl rfl hdone (.nil hle))

theorem staysLevel_loop (l : Line) {cond : Expr} {body : Stmt} (hc : cond.PushesWord x s)
    (hb : body.StaysLevel x s) : (Stmt.loop l cond body).StaysLevel x s := by
  intro n m k hk
  obtain ⟨start, _, -, done, _, -, kc, _, hkc, kb, _, hkb, rfl, -⟩ := Stmt.code_loop_eq_ok.1 hk
  obtain ⟨mc, hmc, hcond⟩ := Expr.exists_marks_branchCode hc hkc
  obtain ⟨mb, hmb, hbody⟩ := hb hkb
  let all := (start, x.base) :: mc ++ mb ++ [(done, x.base)]
  have hstart : ∀ l ∈ [start], (l, x.base) ∈ all := by simp [all]
  have hdone : ∀ l ∈ [done], (l, x.base) ∈ all := by simp [all]
  have hle := Int.le_refl x.base
  refine ⟨all, by simp [all, hmc, hmb, labelsOf_cons], ?_⟩
  have htest : LevelledBy x all x.base x.base (.label start :: kc) x.base :=
    .flat hle rfl rfl hstart (hcond all (fun _ hp => by simp [all, hp]) (hdone _ (by simp)))
  exact (htest.append (hbody.mono fun _ hp => by simp [all, hp])).append
    (.flat hle rfl rfl hstart (.flat hle rfl rfl hdone (.nil hle)))

theorem staysLevel {callable : List Procedure} {v : Visible} {t : Stmt}
    (hsize : s.frame.size = .ok x.frame)
    (hcall : ∀ q ∈ callable,
      x.released (procLabel q.name) = wordSize * q.params.length - wordSize)
    (h : t.WellFormed callable v) : t.StaysLevel x s := by
  have htarget {v : Visible} {target : Target} (h : target.WellFormed v callable) :
      ∀ y index, target = .element y index → index.PushesWord x s := by
    intro y index heq
    subst heq
    cases h with
    | element _ hi => exact Expr.pushesWord hcall hi
  induction h with
  | declare l shape hx =>
    intro n m k hk
    obtain ⟨rfl, -⟩ := Stmt.code_declare_eq_ok.1 hk
    exact levelled_still (Int.le_refl _) (List.forall_mem_nil _)
  | assign l ht hv => exact staysLevel_assign l (htarget ht) (Expr.pushesWord hcall hv)
  | block l _ ih =>
    intro n m k hk
    refine levelled_codes_of (fun t ht => ?_) (code_block_eq_ok.1 hk)
    obtain ⟨before, rest, hsplit⟩ := List.append_of_mem ht
    exact ih before t rest hsplit
  | ifThen l hc _ ihy => exact staysLevel_ifThen l (Expr.pushesWord hcall hc) ihy
  | ifElse l hc _ _ ihy ihn => exact staysLevel_ifElse l (Expr.pushesWord hcall hc) ihy ihn
  | loop l hc _ ih => exact staysLevel_loop l (Expr.pushesWord hcall hc) ih
  | output l hv => exact staysLevel_output l (Expr.pushesWord hcall hv)
  | input l ht => exact staysLevel_input l (htarget ht)
  | ret l hv => exact staysLevel_ret hsize l (Expr.pushesWord hcall hv)
  | call l hq hn ha =>
    exact staysLevel_call l (by rw [hcall _ hq, hn]) fun a h => Expr.pushesWord hcall (ha a h)

end Stmt

end

end

end ProcMips
