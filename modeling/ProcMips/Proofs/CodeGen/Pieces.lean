import ProcMips.Proofs.Analysis.Points
import ProcMips.Proofs.CodeGen.Generation

/-! The statements and expressions inside a statement, their types, and their code: it stands in one
piece in the code of the statement. -/

namespace ProcMips

open Mips

/-- An expression stands in another one, or is that one. -/
inductive Expr.Within (e : Expr) : Expr → Prop
  | here : Within e e
  | element {l : Line} {y : String} {index : Expr} (h : Within e index) :
    Within e (.element l y index)
  | arg {l : Line} {f : String} {args : List Expr} {a : Expr} (ha : a ∈ args) (h : Within e a) :
    Within e (.call l f args)
  | left {l : Line} {op : BinOp} {left right : Expr} (h : Within e left) :
    Within e (.binary l op left right)
  | right {l : Line} {op : BinOp} {left right : Expr} (h : Within e right) :
    Within e (.binary l op left right)
  | not {l : Line} {operand : Expr} (h : Within e operand) : Within e (.not l operand)

def Target.operands : Target → List Expr
  | scalar _ => []
  | element _ index => [index]

/-- The expressions of a statement itself, apart from those in the statements inside it. -/
def Stmt.operands : Stmt → List Expr
  | declare .. | block .. => []
  | assign _ target value => target.operands ++ [value]
  | ifThen _ condition _ | ifElse _ condition _ _ | loop _ condition _ => [condition]
  | output _ value | ret _ value => [value]
  | input _ target => target.operands
  | call _ _ args => args

section

variable {callable : List Procedure} {v : Visible} {s : Storage} {n m : Nat} {k : List Instr}

theorem Expr.HasType.within {e e' : Expr} {ty : Ty} (h : e'.HasType v callable ty)
    (hw : e.Within e') : ∃ ty, e.HasType v callable ty := by
  induction hw generalizing ty with
  | here => exact ⟨ty, h⟩
  | element _ ih =>
    cases h with
    | element _ _ hi => exact ih hi
  | arg ha _ ih =>
    cases h with
    | call _ _ _ hargs => exact ih (hargs _ ha)
  | left _ ih =>
    cases h with
    | binary _ hl _ => exact ih hl
  | right _ ih =>
    cases h with
    | binary _ _ hr => exact ih hr
  | not _ ih =>
    cases h with
    | not _ ho => exact ih ho

theorem Target.WellFormed.operand {target : Target} (h : target.WellFormed v callable) {e : Expr}
    (he : e ∈ target.operands) : e.HasType v callable .int := by
  cases h with
  | scalar => cases he
  | element _ hi => rwa [List.mem_singleton.1 he]

theorem Stmt.WellFormed.operand {t : Stmt} (h : t.WellFormed callable v) {e : Expr}
    (he : e ∈ t.operands) : ∃ ty, e.HasType v callable ty := by
  cases h with
  | declare | block => cases he
  | assign _ ht hv =>
    rcases List.mem_append.1 he with he | he
    · exact ⟨_, ht.operand he⟩
    · exact ⟨_, List.mem_singleton.1 he ▸ hv⟩
  | ifThen _ hc | ifElse _ hc | loop _ hc => exact ⟨_, List.mem_singleton.1 he ▸ hc⟩
  | output _ hv | ret _ hv => exact ⟨_, List.mem_singleton.1 he ▸ hv⟩
  | input _ ht => exact ⟨_, ht.operand he⟩
  | call _ _ _ ha => exact ⟨_, ha e he⟩

theorem Stmt.Contains.exists_wellFormed {bs cs : List Block} {t u : Stmt} (h : Contains bs t cs u)
    (ht : t.WellFormed callable v) : ∃ v, u.WellFormed callable v := by
  induction h generalizing v with
  | here => exact ⟨v, ht⟩
  | block _ ih =>
    cases ht with
    | block _ hb => exact ih (hb _ _ _ rfl)
  | ifThen _ ih =>
    cases ht with
    | ifThen _ _ hy => exact ih hy
  | ifElseYes _ ih =>
    cases ht with
    | ifElse _ _ hy _ => exact ih hy
  | ifElseNo _ ih =>
    cases ht with
    | ifElse _ _ _ hn => exact ih hn
  | loop _ ih =>
    cases ht with
    | loop _ _ hb => exact ih hb

/-- Code that `g` generates stands somewhere in `k`. -/
def StandsIn (g : Gen (List Instr)) (k : List Instr) : Prop :=
  ∃ n m c, g n = .ok (c, m) ∧ c <:+: k

namespace StandsIn

variable {g : Gen (List Instr)} {c : List Instr}

theorem whole (h : g n = .ok (k, m)) : StandsIn g k := ⟨n, m, k, h, List.infix_refl k⟩

theorem trans (h : StandsIn g c) (hc : c <:+: k) : StandsIn g k := by
  obtain ⟨n, m, c', hg, hc'⟩ := h
  exact ⟨n, m, c', hg, hc'.trans hc⟩

theorem left (h : StandsIn g c) : StandsIn g (c ++ k) := h.trans (List.prefix_append c k).isInfix

theorem right (h : StandsIn g k) : StandsIn g (c ++ k) := h.trans (List.suffix_append c k).isInfix

theorem tail {i : Instr} (h : StandsIn g k) : StandsIn g (i :: k) :=
  h.trans (List.suffix_cons i k).isInfix

end StandsIn

namespace Expr

theorem standsIn_codes_of_mem {es : List Expr} {e : Expr} (he : e ∈ es)
    (hk : Expr.codes s es n = .ok (k, m)) : StandsIn (e.code s) k := by
  induction es generalizing n m k with
  | nil => cases he
  | cons e' es ih =>
    obtain ⟨k₁, _, h₁, k₂, _, h₂, rfl, -⟩ := Expr.codes_cons_eq_ok.1 hk
    rcases List.mem_cons.1 he with rfl | he
    · exact (StandsIn.whole h₁).left
    · exact (ih he h₂).right

theorem standsIn_binary {l : Line} {op : BinOp} {left right : Expr}
    (hk : (Expr.binary l op left right).code s n = .ok (k, m)) :
    StandsIn (left.code s) k ∧ StandsIn (right.code s) k := by
  cases hop : op.order with
  | leftFirst =>
    obtain ⟨kl, _, hl, kr, _, hr, o, _, -, rfl, -⟩ := (Expr.code_leftFirst_eq_ok hop).1 hk
    exact ⟨(StandsIn.whole hl).left.left.left.left, (StandsIn.whole hr).right.left.left.left⟩
  | rightFirst =>
    obtain ⟨kr, _, hr, kl, _, hl, o, _, -, rfl, -⟩ := (Expr.code_rightFirst_eq_ok hop).1 hk
    exact ⟨(StandsIn.whole hl).right.left.left.left, (StandsIn.whole hr).left.left.left.left⟩
  | shortCircuit b =>
    obtain ⟨decided, _, -, done, _, -, kl, _, hl, kr, _, hr, rfl, -⟩ :=
      (Expr.code_shortCircuit_eq_ok hop).1 hk
    exact ⟨(StandsIn.whole hl).left.left.left.left.left,
      (StandsIn.whole hr).tail.right.left.left.left⟩

theorem standsIn_branchCode {e : Expr} {l : String} (hk : e.branchCode s l n = .ok (k, m)) :
    StandsIn (e.code s) k := by
  obtain ⟨kc, _, hc, rfl, -⟩ := Expr.branchCode_eq_ok.1 hk
  exact (StandsIn.whole hc).left.left

theorem Within.standsIn {e e' : Expr} (h : e.Within e') (hk : e'.code s n = .ok (k, m)) :
    StandsIn (e.code s) k := by
  induction h generalizing n m k with
  | here => exact .whole hk
  | element _ ih =>
    obtain ⟨ki, _, hi, scale, a, _, -, rfl, -⟩ := Expr.code_element_eq_ok.1 hk
    exact (ih hi).left.left.left
  | arg ha _ ih =>
    obtain ⟨ka, _, hka, rfl, -⟩ := Expr.code_call_eq_ok.1 hk
    obtain ⟨_, _, c, hc, hinfix⟩ := standsIn_codes_of_mem ha hka
    exact ((ih hc).trans hinfix).left
  | left _ ih =>
    obtain ⟨_, _, c, hc, hinfix⟩ := (standsIn_binary hk).1
    exact (ih hc).trans hinfix
  | right _ ih =>
    obtain ⟨_, _, c, hc, hinfix⟩ := (standsIn_binary hk).2
    exact (ih hc).trans hinfix
  | not _ ih =>
    obtain ⟨done, _, -, ko, _, ho, rfl, -⟩ := Expr.code_not_eq_ok.1 hk
    exact (ih ho).left.left.left

end Expr

namespace Stmt

theorem standsIn_operand {t : Stmt} {e : Expr} (he : e ∈ t.operands)
    (hk : t.code s n = .ok (k, m)) : StandsIn (e.code s) k := by
  cases t with
  | declare | block => cases he
  | assign l target value =>
    cases target with
    | scalar y =>
      obtain ⟨kv, _, hv, a, _, -, rfl, -⟩ := Stmt.code_assign_scalar_eq_ok.1 hk
      rw [List.mem_singleton.1 he]
      exact (StandsIn.whole hv).left.left
    | element y index =>
      obtain ⟨ki, _, hi, kv, _, hv, scale, a, _, -, rfl, -⟩ := Stmt.code_assign_element_eq_ok.1 hk
      rcases List.mem_cons.1 he with rfl | he
      · exact (StandsIn.whole hi).left.left.left.left.left
      · rw [List.mem_singleton.1 he]
        exact (StandsIn.whole hv).right.left.left.left.left
  | ifThen l cond yes =>
    obtain ⟨done, _, -, kc, _, hc, ky, _, -, rfl, -⟩ := Stmt.code_ifThen_eq_ok.1 hk
    rw [List.mem_singleton.1 he]
    exact (Expr.standsIn_branchCode hc).left.left
  | ifElse l cond yes no =>
    obtain ⟨otherwise, _, -, done, _, -, kc, _, hc, ky, _, -, kn, _, -, rfl, -⟩ :=
      Stmt.code_ifElse_eq_ok.1 hk
    rw [List.mem_singleton.1 he]
    exact (Expr.standsIn_branchCode hc).left.left.left.left
  | loop l cond body =>
    obtain ⟨start, _, -, done, _, -, kc, _, hc, kb, _, -, rfl, -⟩ := Stmt.code_loop_eq_ok.1 hk
    rw [List.mem_singleton.1 he]
    exact (Expr.standsIn_branchCode hc).tail.left.left
  | output l value =>
    obtain ⟨kv, _, hv, rfl, -⟩ := Stmt.code_output_eq_ok.1 hk
    rw [List.mem_singleton.1 he]
    exact (StandsIn.whole hv).left.left
  | input l target =>
    cases target with
    | scalar y => cases he
    | element y index =>
      obtain ⟨ki, _, hi, scale, a, _, -, rfl, -⟩ := Stmt.code_input_element_eq_ok.1 hk
      rw [List.mem_singleton.1 he]
      exact (StandsIn.whole hi).left.left.left.left
  | ret l value =>
    obtain ⟨kv, _, hv, ke, _, -, rfl, -⟩ := Stmt.code_ret_eq_ok.1 hk
    rw [List.mem_singleton.1 he]
    exact (StandsIn.whole hv).left.left
  | call l f args =>
    obtain ⟨ka, _, ha, rfl, -⟩ := Stmt.code_call_eq_ok.1 hk
    exact (Expr.standsIn_codes_of_mem he ha).left

theorem standsIn_codes {before rest : List Stmt} {t : Stmt}
    (hk : Stmt.codes s (before ++ t :: rest) n = .ok (k, m)) : StandsIn (t.code s) k := by
  induction before generalizing n m k with
  | nil =>
    obtain ⟨k₁, _, h₁, k₂, _, -, rfl, -⟩ := Stmt.codes_cons_eq_ok.1 hk
    exact (StandsIn.whole h₁).left
  | cons u before ih =>
    obtain ⟨k₁, _, -, k₂, _, h₂, rfl, -⟩ := Stmt.codes_cons_eq_ok.1 hk
    exact (ih h₂).right

theorem Contains.standsIn {bs cs : List Block} {t u : Stmt} (h : Contains bs t cs u)
    (hk : t.code s n = .ok (k, m)) : StandsIn (u.code s) k := by
  induction h generalizing n m k with
  | here => exact .whole hk
  | block _ ih =>
    obtain ⟨_, _, c, hc, hinfix⟩ := standsIn_codes (Stmt.code_block_eq_ok.1 hk)
    exact (ih hc).trans hinfix
  | ifThen _ ih =>
    obtain ⟨done, _, -, kc, _, -, ky, _, hy, rfl, -⟩ := Stmt.code_ifThen_eq_ok.1 hk
    exact (ih hy).right.left
  | ifElseYes _ ih =>
    obtain ⟨otherwise, _, -, done, _, -, kc, _, -, ky, _, hy, kn, _, -, rfl, -⟩ :=
      Stmt.code_ifElse_eq_ok.1 hk
    exact (ih hy).right.left.left.left
  | ifElseNo _ ih =>
    obtain ⟨otherwise, _, -, done, _, -, kc, _, -, ky, _, -, kn, _, hn, rfl, -⟩ :=
      Stmt.code_ifElse_eq_ok.1 hk
    exact (ih hn).right.left
  | loop _ ih =>
    obtain ⟨start, _, -, done, _, -, kc, _, -, kb, _, hb, rfl, -⟩ := Stmt.code_loop_eq_ok.1 hk
    exact (ih hb).right.left

end Stmt

end

end ProcMips
