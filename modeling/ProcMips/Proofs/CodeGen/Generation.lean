import ProcMips.Proofs.Sequencing

/-! What generated code consists of. For each form of expression and statement, the code is put together
from the code of its parts, generated one behind the other. -/

namespace ProcMips

open Mips

variable {s : Storage} {l : Line} {y : String} {n m : Nat} {k : List Instr}

theorem Storage.code_epilogue_eq_ok :
    s.epilogue n = .ok (k, m) ↔ ∃ size n₁, Gen.word s.frame.size n = .ok (size, n₁) ∧
      restoreRegisters ++ [.li .t1 size, .op .add .sp .sp .t1] ++ pushReg .t0 ++ [.jr .ra] = k ∧
      n₁ = m := by
  simp only [Storage.epilogue, gen_bind_eq_ok, gen_pure_eq_ok]

namespace Expr

theorem code_int_eq_ok {i : Int} :
    (Expr.int l i).code s n = .ok (k, m) ↔ .li .s0 i :: pushReg .s0 = k ∧ n = m := by
  rw [Expr.code, gen_pure_eq_ok]

theorem code_bool_eq_ok {b : Bool} :
    (Expr.bool l b).code s n = .ok (k, m) ↔ .li .s0 (truthWord b) :: pushReg .s0 = k ∧ n = m := by
  rw [Expr.code, gen_pure_eq_ok]

theorem code_scalar_eq_ok :
    (Expr.scalar l y).code s n = .ok (k, m) ↔ ∃ a n₁, s.scalarAddress y n = .ok (a, n₁) ∧
      .lw .t0 a :: pushReg .t0 = k ∧ n₁ = m := by
  simp only [Expr.code, gen_bind_eq_ok, gen_pure_eq_ok]

theorem code_element_eq_ok {index : Expr} :
    (Expr.element l y index).code s n = .ok (k, m) ↔
      ∃ ki n₁, index.code s n = .ok (ki, n₁) ∧
      ∃ scale a n₂, s.elementAddress y .t1 n₁ = .ok ((scale, a), n₂) ∧
      ki ++ popReg .t0 ++ scale ++ .lw .t1 a :: pushReg .t1 = k ∧ n₂ = m := by
  simp only [Expr.code, gen_bind_eq_ok, gen_pure_eq_ok, Prod.exists]

theorem code_call_eq_ok {f : String} {args : List Expr} :
    (Expr.call l f args).code s n = .ok (k, m) ↔
      ∃ ka n₁, Expr.codes s args n = .ok (ka, n₁) ∧ ka ++ [.jal (procLabel f)] = k ∧ n₁ = m := by
  simp only [Expr.code, gen_bind_eq_ok, gen_pure_eq_ok]

theorem code_not_eq_ok {operand : Expr} :
    (Expr.not l operand).code s n = .ok (k, m) ↔
      ∃ done n₁, Gen.freshLabel n = .ok (done, n₁) ∧
      ∃ ko n₂, operand.code s n₁ = .ok (ko, n₂) ∧
      ko ++ popReg .t0 ++ [.li .s0 0, .bnez .t0 done, .li .s0 1, .label done] ++ pushReg .s0 = k ∧
      n₂ = m := by
  simp only [Expr.code, gen_bind_eq_ok, gen_pure_eq_ok]

section

variable {op : BinOp} {left right : Expr}

theorem code_leftFirst_eq_ok (hop : op.order = .leftFirst) :
    (Expr.binary l op left right).code s n = .ok (k, m) ↔
      ∃ kl n₁, left.code s n = .ok (kl, n₁) ∧ ∃ kr n₂, right.code s n₁ = .ok (kr, n₂) ∧
      ∃ o n₃, op.instr n₂ = .ok (o, n₃) ∧
      kl ++ kr ++ popReg .t1 ++ popReg .t0 ++ .op o .s0 .t0 .t1 :: pushReg .s0 = k ∧ n₃ = m := by
  simp only [Expr.code, hop, gen_bind_eq_ok, gen_pure_eq_ok]

theorem code_rightFirst_eq_ok (hop : op.order = .rightFirst) :
    (Expr.binary l op left right).code s n = .ok (k, m) ↔
      ∃ kr n₁, right.code s n = .ok (kr, n₁) ∧ ∃ kl n₂, left.code s n₁ = .ok (kl, n₂) ∧
      ∃ o n₃, op.instr n₂ = .ok (o, n₃) ∧
      kr ++ kl ++ popReg .t1 ++ popReg .t0 ++ .op o .s0 .t0 .t1 :: pushReg .s0 = k ∧ n₃ = m := by
  simp only [Expr.code, hop, gen_bind_eq_ok, gen_pure_eq_ok]

theorem code_shortCircuit_eq_ok {b : Bool} (hop : op.order = .shortCircuit b) :
    (Expr.binary l op left right).code s n = .ok (k, m) ↔
      ∃ decided n₁, Gen.freshLabel n = .ok (decided, n₁) ∧
      ∃ done n₂, Gen.freshLabel n₁ = .ok (done, n₂) ∧
      ∃ kl n₃, left.code s n₂ = .ok (kl, n₃) ∧ ∃ kr n₄, right.code s n₃ = .ok (kr, n₄) ∧
      kl ++ popReg .t0 ++ (if b then .bnez .t0 decided else .beqz .t0 decided) :: kr ++ popReg .t0 ++
        [if b then .bnez .t0 decided else .beqz .t0 decided, .li .s0 (truthWord !b), .j done,
          .label decided, .li .s0 (truthWord b), .label done] ++ pushReg .s0 = k ∧ n₄ = m := by
  simp only [Expr.code, hop, gen_bind_eq_ok, gen_pure_eq_ok]

end

theorem codes_nil_eq_ok : Expr.codes s [] n = .ok (k, m) ↔ [] = k ∧ n = m := by
  rw [Expr.codes, gen_pure_eq_ok]

theorem codes_cons_eq_ok {e : Expr} {es : List Expr} :
    Expr.codes s (e :: es) n = .ok (k, m) ↔
      ∃ k₁ n₁, e.code s n = .ok (k₁, n₁) ∧ ∃ k₂ n₂, Expr.codes s es n₁ = .ok (k₂, n₂) ∧
      k₁ ++ k₂ = k ∧ n₂ = m := by
  simp only [Expr.codes, gen_bind_eq_ok, gen_pure_eq_ok]

theorem branchCode_eq_ok {cond : Expr} {onFalse : String} :
    cond.branchCode s onFalse n = .ok (k, m) ↔ ∃ kc n₁, cond.code s n = .ok (kc, n₁) ∧
      kc ++ popReg .s0 ++ [.beqz .s0 onFalse] = k ∧ n₁ = m := by
  simp only [Expr.branchCode, gen_bind_eq_ok, gen_pure_eq_ok]

end Expr

namespace Stmt

variable {index value cond : Expr} {t yes no body : Stmt} {ts : List Stmt}

theorem code_declare_eq_ok {shape : Shape} :
    (Stmt.declare l y shape).code s n = .ok (k, m) ↔ [] = k ∧ n = m := by
  rw [Stmt.code, gen_pure_eq_ok]

theorem code_assign_scalar_eq_ok :
    (Stmt.assign l (.scalar y) value).code s n = .ok (k, m) ↔
      ∃ kv n₁, value.code s n = .ok (kv, n₁) ∧ ∃ a n₂, s.scalarAddress y n₁ = .ok (a, n₂) ∧
      kv ++ popReg .s0 ++ [.sw .s0 a] = k ∧ n₂ = m := by
  simp only [Stmt.code, gen_bind_eq_ok, gen_pure_eq_ok]

theorem code_assign_element_eq_ok :
    (Stmt.assign l (.element y index) value).code s n = .ok (k, m) ↔
      ∃ ki n₁, index.code s n = .ok (ki, n₁) ∧ ∃ kv n₂, value.code s n₁ = .ok (kv, n₂) ∧
      ∃ scale a n₃, s.elementAddress y .t2 n₂ = .ok ((scale, a), n₃) ∧
      ki ++ kv ++ popReg .t1 ++ popReg .t0 ++ scale ++ [.sw .t1 a] = k ∧ n₃ = m := by
  simp only [Stmt.code, gen_bind_eq_ok, gen_pure_eq_ok, Prod.exists]

theorem code_block_eq_ok :
    (Stmt.block l ts).code s n = .ok (k, m) ↔ Stmt.codes s ts n = .ok (k, m) := by
  rw [Stmt.code]

theorem code_ifThen_eq_ok :
    (Stmt.ifThen l cond yes).code s n = .ok (k, m) ↔
      ∃ done n₁, Gen.freshLabel n = .ok (done, n₁) ∧
      ∃ kc n₂, cond.branchCode s done n₁ = .ok (kc, n₂) ∧
      ∃ ky n₃, yes.code s n₂ = .ok (ky, n₃) ∧ kc ++ ky ++ [.label done] = k ∧ n₃ = m := by
  simp only [Stmt.code, gen_bind_eq_ok, gen_pure_eq_ok]

theorem code_ifElse_eq_ok :
    (Stmt.ifElse l cond yes no).code s n = .ok (k, m) ↔
      ∃ otherwise n₁, Gen.freshLabel n = .ok (otherwise, n₁) ∧
      ∃ done n₂, Gen.freshLabel n₁ = .ok (done, n₂) ∧
      ∃ kc n₃, cond.branchCode s otherwise n₂ = .ok (kc, n₃) ∧
      ∃ ky n₄, yes.code s n₃ = .ok (ky, n₄) ∧ ∃ kn n₅, no.code s n₄ = .ok (kn, n₅) ∧
      kc ++ ky ++ [.j done, .label otherwise] ++ kn ++ [.label done] = k ∧ n₅ = m := by
  simp only [Stmt.code, gen_bind_eq_ok, gen_pure_eq_ok]

theorem code_loop_eq_ok :
    (Stmt.loop l cond body).code s n = .ok (k, m) ↔
      ∃ start n₁, Gen.freshLabel n = .ok (start, n₁) ∧
      ∃ done n₂, Gen.freshLabel n₁ = .ok (done, n₂) ∧
      ∃ kc n₃, cond.branchCode s done n₂ = .ok (kc, n₃) ∧
      ∃ kb n₄, body.code s n₃ = .ok (kb, n₄) ∧
      .label start :: kc ++ kb ++ [.j start, .label done] = k ∧ n₄ = m := by
  simp only [Stmt.code, gen_bind_eq_ok, gen_pure_eq_ok]

theorem code_output_eq_ok :
    (Stmt.output l value).code s n = .ok (k, m) ↔ ∃ kv n₁, value.code s n = .ok (kv, n₁) ∧
      kv ++ popReg .a0 ++ printInt = k ∧ n₁ = m := by
  simp only [Stmt.code, gen_bind_eq_ok, gen_pure_eq_ok]

theorem code_input_scalar_eq_ok :
    (Stmt.input l (.scalar y)).code s n = .ok (k, m) ↔
      ∃ a n₁, s.scalarAddress y n = .ok (a, n₁) ∧ readInt ++ [.sw .v0 a] = k ∧ n₁ = m := by
  simp only [Stmt.code, gen_bind_eq_ok, gen_pure_eq_ok]

theorem code_input_element_eq_ok :
    (Stmt.input l (.element y index)).code s n = .ok (k, m) ↔
      ∃ ki n₁, index.code s n = .ok (ki, n₁) ∧
      ∃ scale a n₂, s.elementAddress y .t2 n₁ = .ok ((scale, a), n₂) ∧
      ki ++ readInt ++ popReg .t0 ++ scale ++ [.sw .v0 a] = k ∧ n₂ = m := by
  simp only [Stmt.code, gen_bind_eq_ok, gen_pure_eq_ok, Prod.exists]

theorem code_ret_eq_ok :
    (Stmt.ret l value).code s n = .ok (k, m) ↔ ∃ kv n₁, value.code s n = .ok (kv, n₁) ∧
      ∃ ke n₂, s.epilogue n₁ = .ok (ke, n₂) ∧ kv ++ popReg .t0 ++ ke = k ∧ n₂ = m := by
  simp only [Stmt.code, gen_bind_eq_ok, gen_pure_eq_ok]

theorem code_call_eq_ok {f : String} {args : List Expr} :
    (Stmt.call l f args).code s n = .ok (k, m) ↔ ∃ ka n₁, Expr.codes s args n = .ok (ka, n₁) ∧
      ka ++ .jal (procLabel f) :: popReg .t0 = k ∧ n₁ = m := by
  simp only [Stmt.code, gen_bind_eq_ok, gen_pure_eq_ok]

theorem codes_nil_eq_ok : Stmt.codes s [] n = .ok (k, m) ↔ [] = k ∧ n = m := by
  rw [Stmt.codes, gen_pure_eq_ok]

theorem codes_cons_eq_ok :
    Stmt.codes s (t :: ts) n = .ok (k, m) ↔
      ∃ k₁ n₁, t.code s n = .ok (k₁, n₁) ∧ ∃ k₂ n₂, Stmt.codes s ts n₁ = .ok (k₂, n₂) ∧
      k₁ ++ k₂ = k ∧ n₂ = m := by
  simp only [Stmt.codes, gen_bind_eq_ok, gen_pure_eq_ok]

end Stmt

end ProcMips
