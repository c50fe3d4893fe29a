import ProcMips.Proofs.Analysis.WellFormed
import ProcMips.Proofs.CodeGen.Labels

/-! What the instructions of a procedure name besides the labels among them: the blocks of global
variables that they load from and store to, and the procedures that they call. -/

namespace ProcMips

open Mips

namespace Mips

/-- The label of the block that an operand is in. -/
def Address.label? : Address → Option String
  | label l | indexed l _ => some l
  | offset .. | indirect _ => none

namespace Instr

/-- The data label that is loaded from or stored to. -/
def dataLabel? : Instr → Option String
  | lw _ a | sw _ a => a.label?
  | _ => none

/-- The label that is jumped to. -/
def target? : Instr → Option String
  | j l | beqz _ l | bnez _ l => some l
  | _ => none

end Instr

/-- The labels of the blocks that code sets up, in order. -/
def wordsOf (k : List Instr) : List String :=
  k.filterMap fun
    | .word l _ => some l
    | _ => none

theorem wordsOf_append (k k' : List Instr) : wordsOf (k ++ k') = wordsOf k ++ wordsOf k' :=
  List.filterMap_append

end Mips

/-- A data label is that of a global variable. -/
def Tables.Names (t : Tables) (l : String) : Prop := ∃ x, t.isGlobal x = true ∧ l = globalLabel x

/-- An instruction calls what can be called and is about blocks of globals. It is no directive. -/
def Mips.Instr.Refers (t : Tables) (callable : List Procedure) : Instr → Prop
  | lw _ a | sw _ a => ∀ l, a.label? = some l → t.Names l
  | jal l => ∃ q ∈ callable, l = procLabel q.name
  | sectionStart _ | global _ | word .. => False
  | _ => True

/-- All instructions of `k` refer to globals and procedures. -/
def Refer (t : Tables) (callable : List Procedure) (k : List Instr) : Prop :=
  ∀ i ∈ k, i.Refers t callable

section

variable {t : Tables} {callable : List Procedure} {k k' : List Instr}

theorem refer_nil : Refer t callable [] := List.forall_mem_nil _

theorem refer_cons {i : Instr} :
    Refer t callable (i :: k) ↔ i.Refers t callable ∧ Refer t callable k := List.forall_mem_cons

theorem refer_append :
    Refer t callable (k ++ k') ↔ Refer t callable k ∧ Refer t callable k' := List.forall_mem_append

theorem Refer.dataLabel (h : Refer t callable k) {i : Instr} (hi : i ∈ k) {l : String}
    (hl : i.dataLabel? = some l) : t.Names l := by
  have hi := h i hi
  cases i with
  | lw d a | sw r a => exact hi l hl
  | _ => cases hl

theorem Refer.jal (h : Refer t callable k) {l : String} (hl : .jal l ∈ k) :
    ∃ q ∈ callable, l = procLabel q.name := h _ hl

theorem Refer.wordsOf (h : Refer t callable k) : wordsOf k = [] := by
  refine List.filterMap_eq_nil_iff.2 fun i hi => ?_
  have hi := h i hi
  cases i with
  | word => cases hi
  | _ => rfl

theorem Refer.mono {callable' : List Procedure} (h : Refer t callable k) (hs : callable ⊆ callable') :
    Refer t callable' k := by
  intro i hi
  have hi := h i hi
  cases i with
  | jal l =>
    obtain ⟨q, hq, rfl⟩ := hi
    exact ⟨q, hs hq, rfl⟩
  | _ => exact hi

theorem refer_pushReg (r : Register) : Refer t callable (pushReg r) := by
  simp [Refer, pushReg, Instr.Refers, Address.label?]

theorem refer_popReg (r : Register) : Refer t callable (popReg r) := by
  simp [Refer, popReg, Instr.Refers, Address.label?]

theorem refer_saveRegisters : Refer t callable saveRegisters := by
  simp [Refer, saveRegisters, Instr.Refers, Address.label?, savedPlaces, Register.saved]

theorem refer_restoreRegisters : Refer t callable restoreRegisters := by
  simp [Refer, restoreRegisters, Instr.Refers, Address.label?, savedPlaces, Register.saved]

end

namespace Storage

variable {s : Storage} {callable : List Procedure} {x : String} {n m : Nat}

theorem names_scalarAddress {a : Address} (h : s.scalarAddress x n = .ok (a, m)) :
    ∀ l, a.label? = some l → s.tables.Names l := by
  obtain ⟨h, -⟩ := scalarAddress_eq_ok.1 h
  split_ifs at h with hx
  · rintro _ hl
    rw [h] at hl
    cases hl
    exact ⟨x, hx, rfl⟩
  · obtain ⟨o, -, rfl⟩ := h
    rintro _ ⟨⟩

theorem names_elementAddress {r : Register} {c : List Instr} {a : Address}
    (h : s.elementAddress x r n = .ok ((c, a), m)) : ∀ l, a.label? = some l → s.tables.Names l := by
  obtain ⟨h, -⟩ := elementAddress_eq_ok.1 h
  split_ifs at h with hx
  · obtain ⟨-, rfl⟩ := h
    rintro _ ⟨⟩
    exact ⟨x, hx, rfl⟩
  · obtain ⟨o, -, -, rfl⟩ := h
    rintro _ ⟨⟩

theorem refer_elementAddress {r : Register} {c : List Instr} {a : Address}
    (h : s.elementAddress x r n = .ok ((c, a), m)) : Refer s.tables callable c := by
  obtain ⟨h, -⟩ := elementAddress_eq_ok.1 h
  split_ifs at h
  · obtain ⟨rfl, -⟩ := h
    simp [Refer, scaled, Instr.Refers]
  · obtain ⟨o, -, rfl, -⟩ := h
    simp [Refer, scaled, Instr.Refers]

theorem refer_epilogue {c : List Instr} (h : s.epilogue n = .ok (c, m)) :
    Refer s.tables callable c := by
  obtain ⟨size, _, -, rfl, -⟩ := code_epilogue_eq_ok.1 h
  refine refer_append.2 ⟨refer_append.2 ⟨refer_append.2 ⟨refer_restoreRegisters, ?_⟩,
    refer_pushReg _⟩, ?_⟩
  · simp [Refer, Instr.Refers]
  · simp [Refer, Instr.Refers]

end Storage

section

variable {s : Storage} {callable : List Procedure} {v : Visible}

namespace Expr

theorem refer_codes_of {es : List Expr}
    (h : ∀ e ∈ es, ∀ n m k, e.code s n = .ok (k, m) → Refer s.tables callable k) {n m : Nat}
    {k : List Instr} (hk : Expr.codes s es n = .ok (k, m)) : Refer s.tables callable k := by
  induction es generalizing n k with
  | nil =>
    obtain ⟨rfl, -⟩ := codes_nil_eq_ok.1 hk
    exact refer_nil
  | cons e es ih =>
    rw [List.forall_mem_cons] at h
    obtain ⟨k₁, _, h₁, k₂, _, h₂, rfl, rfl⟩ := codes_cons_eq_ok.1 hk
    exact refer_append.2 ⟨h.1 _ _ _ h₁, ih h.2 h₂⟩

/-- The instruction between two operands and their result. -/
theorem refer_operands {n₁ n₂ m₁ m₂ : Nat} {k₁ k₂ : List Instr} {o : Op} {left right : Expr}
    (hl : ∀ n m k, left.code s n = .ok (k, m) → Refer s.tables callable k)
    (hr : ∀ n m k, right.code s n = .ok (k, m) → Refer s.tables callable k)
    (h₁ : left.code s n₁ = .ok (k₁, m₁)) (h₂ : right.code s n₂ = .ok (k₂, m₂)) :
    Refer s.tables callable
      (k₁ ++ k₂ ++ popReg .t1 ++ popReg .t0 ++ .op o .s0 .t0 .t1 :: pushReg .s0) := by
  simp only [refer_append, refer_cons]
  exact ⟨⟨⟨⟨hl _ _ _ h₁, hr _ _ _ h₂⟩, refer_popReg _⟩, refer_popReg _⟩, trivial, refer_pushReg _⟩

theorem refer_code {e : Expr} {ty : Ty} (he : e.HasType v callable ty) :
    ∀ n m k, e.code s n = .ok (k, m) → Refer s.tables callable k := by
  induction he with
  | int l i =>
    intro n m k hk
    obtain ⟨rfl, -⟩ := code_int_eq_ok.1 hk
    exact refer_cons.2 ⟨trivial, refer_pushReg _⟩
  | bool l b =>
    intro n m k hk
    obtain ⟨rfl, -⟩ := code_bool_eq_ok.1 hk
    exact refer_cons.2 ⟨trivial, refer_pushReg _⟩
  | scalar l hx =>
    intro n m k hk
    obtain ⟨a, _, ha, rfl, -⟩ := code_scalar_eq_ok.1 hk
    exact refer_cons.2 ⟨Storage.names_scalarAddress ha, refer_pushReg _⟩
  | element l hx _ ih =>
    intro n m k hk
    obtain ⟨ki, _, hi, scale, a, _, ha, rfl, -⟩ := code_element_eq_ok.1 hk
    simp only [refer_append, refer_cons]
    exact ⟨⟨⟨ih _ _ _ hi, refer_popReg _⟩, Storage.refer_elementAddress ha⟩,
      Storage.names_elementAddress ha, refer_pushReg _⟩
  | @call l q args hq hn _ ih =>
    intro n m k hk
    obtain ⟨ka, _, ha, rfl, -⟩ := code_call_eq_ok.1 hk
    exact refer_append.2 ⟨refer_codes_of ih ha, refer_cons.2 ⟨⟨q, hq, rfl⟩, refer_nil⟩⟩
  | @binary l op left right _ _ ihl ihr =>
    intro n m k hk
    cases hop : op.order with
    | leftFirst =>
      obtain ⟨kl, _, hl, kr, _, hr, o, _, -, rfl, -⟩ := (code_leftFirst_eq_ok hop).1 hk
      exact refer_operands ihl ihr hl hr
    | rightFirst =>
      obtain ⟨kr, _, hr, kl, _, hl, o, _, -, rfl, -⟩ := (code_rightFirst_eq_ok hop).1 hk
      exact refer_operands ihr ihl hr hl
    | shortCircuit b =>
      obtain ⟨decided, _, -, done, _, -, kl, _, hl, kr, _, hr, rfl, -⟩ :=
        (code_shortCircuit_eq_ok hop).1 hk
      have hbranch : (if b then Instr.bnez .t0 decided else .beqz .t0 decided).Refers
          s.tables callable := by
        cases b <;> trivial
      simp only [refer_append, refer_cons]
      exact ⟨⟨⟨⟨⟨ihl _ _ _ hl, refer_popReg _⟩, hbranch, ihr _ _ _ hr⟩, refer_popReg _⟩,
        hbranch, trivial, trivial, trivial, trivial, trivial, refer_nil⟩, refer_pushReg _⟩
  | not l _ ih =>
    intro n m k hk
    obtain ⟨done, _, -, ko, _, ho, rfl, -⟩ := code_not_eq_ok.1 hk
    simp only [refer_append, refer_cons]
    exact ⟨⟨⟨ih _ _ _ ho, refer_popReg _⟩, trivial, trivial, trivial, trivial, refer_nil⟩,
      refer_pushReg _⟩

theorem refer_codes {es : List Expr} {ty : Ty} (h : ∀ e ∈ es, e.HasType v callable ty) {n m : Nat}
    {k : List Instr} (hk : Expr.codes s es n = .ok (k, m)) : Refer s.tables callable k :=
  refer_codes_of (fun e he => refer_code (h e he)) hk

theorem refer_branchCode {e : Expr} {ty : Ty} (he : e.HasType v callable ty) {l : String}
    {n m : Nat} {k : List Instr} (hk : e.branchCode s l n = .ok (k, m)) :
    Refer s.tables callable k := by
  obtain ⟨kc, _, hc, rfl, -⟩ := branchCode_eq_ok.1 hk
  simp only [refer_append, refer_cons]
  exact ⟨⟨refer_code he _ _ _ hc, refer_popReg _⟩, trivial, refer_nil⟩

end Expr

namespace Stmt

theorem refer_codes_of {ts : List Stmt}
    (h : ∀ t ∈ ts, ∀ n m k, t.code s n = .ok (k, m) → Refer s.tables callable k) {n m : Nat}
    {k : List Instr} (hk : Stmt.codes s ts n = .ok (k, m)) : Refer s.tables callable k := by
  induction ts generalizing n k with
  | nil =>
    obtain ⟨rfl, -⟩ := codes_nil_eq_ok.1 hk
    exact refer_nil
  | cons t ts ih =>
    rw [List.forall_mem_cons] at h
    obtain ⟨k₁, _, h₁, k₂, _, h₂, rfl, rfl⟩ := codes_cons_eq_ok.1 hk
    exact refer_append.2 ⟨h.1 _ _ _ h₁, ih h.2 h₂⟩

theorem refer_code {t : Stmt} (ht : t.WellFormed callable v) :
    ∀ n m k, t.code s n = .ok (k, m) → Refer s.tables callable k := by
  induction ht with
  | declare l shape hx =>
    intro n m k hk
    obtain ⟨rfl, -⟩ := code_declare_eq_ok.1 hk
    exact refer_nil
  | assign l htarget hv =>
    intro n m k hk
    cases htarget with
    | scalar hx =>
      obtain ⟨kv, _, hkv, a, _, ha, rfl, -⟩ := code_assign_scalar_eq_ok.1 hk
      simp only [refer_append, refer_cons]
      exact ⟨⟨Expr.refer_code hv _ _ _ hkv, refer_popReg _⟩, Storage.names_scalarAddress ha, refer_nil⟩
    | element hx hi =>
      obtain ⟨ki, _, hki, kv, _, hkv, scale, a, _, ha, rfl, -⟩ := code_assign_element_eq_ok.1 hk
      simp only [refer_append, refer_cons]
      exact ⟨⟨⟨⟨⟨Expr.refer_code hi _ _ _ hki, Expr.refer_code hv _ _ _ hkv⟩, refer_popReg _⟩,
        refer_popReg _⟩, Storage.refer_elementAddress ha⟩, Storage.names_elementAddress ha, refer_nil⟩
  | block l _ ih =>
    intro n m k hk
    refine refer_codes_of (fun t ht => ?_) (code_block_eq_ok.1 hk)
    obtain ⟨before, rest, hsplit⟩ := List.append_of_mem ht
    exact ih before t rest hsplit
  | ifThen l hc _ ih =>
    intro n m k hk
    obtain ⟨done, _, -, kc, _, hkc, ky, _, hky, rfl, -⟩ := code_ifThen_eq_ok.1 hk
    simp only [refer_append, refer_cons]
    exact ⟨⟨Expr.refer_branchCode hc hkc, ih _ _ _ hky⟩, trivial, refer_nil⟩
  | ifElse l hc _ _ ihy ihn =>
    intro n m k hk
    obtain ⟨otherwise, _, -, done, _, -, kc, _, hkc, ky, _, hky, kn, _, hkn, rfl, -⟩ :=
      code_ifElse_eq_ok.1 hk
    simp only [refer_append, refer_cons]
    exact ⟨⟨⟨⟨Expr.refer_branchCode hc hkc, ihy _ _ _ hky⟩, trivial, trivial, refer_nil⟩,
      ihn _ _ _ hkn⟩, trivial, refer_nil⟩
  | loop l hc _ ih =>
    intro n m k hk
    obtain ⟨start, _, -, done, _, -, kc, _, hkc, kb, _, hkb, rfl, -⟩ := code_loop_eq_ok.1 hk
    simp only [refer_append, refer_cons]
    exact ⟨⟨⟨trivial, Expr.refer_branchCode hc hkc⟩, ih _ _ _ hkb⟩, trivial, trivial, refer_nil⟩
  | output l hv =>
    intro n m k hk
    obtain ⟨kv, _, hkv, rfl, -⟩ := code_output_eq_ok.1 hk
    refine refer_append.2 ⟨refer_append.2 ⟨Expr.refer_code hv _ _ _ hkv, refer_popReg _⟩, ?_⟩
    simp [Refer, printInt, Instr.Refers]
  | input l htarget =>
    intro n m k hk
    have hread : Refer s.tables callable readInt := by simp [Refer, readInt, Instr.Refers]
    cases htarget with
    | scalar hx =>
      obtain ⟨a, _, ha, rfl, -⟩ := code_input_scalar_eq_ok.1 hk
      exact refer_append.2 ⟨hread, refer_cons.2 ⟨Storage.names_scalarAddress ha, refer_nil⟩⟩
    | element hx hi =>
      obtain ⟨ki, _, hki, scale, a, _, ha, rfl, -⟩ := code_input_element_eq_ok.1 hk
      simp only [refer_append, refer_cons]
      exact ⟨⟨⟨⟨Expr.refer_code hi _ _ _ hki, hread⟩, refer_popReg _⟩,
        Storage.refer_elementAddress ha⟩, Storage.names_elementAddress ha, refer_nil⟩
  | ret l hv =>
    intro n m k hk
    obtain ⟨kv, _, hkv, ke, _, hke, rfl, -⟩ := code_ret_eq_ok.1 hk
    exact refer_append.2 ⟨refer_append.2 ⟨Expr.refer_code hv _ _ _ hkv, refer_popReg _⟩,
      Storage.refer_epilogue hke⟩
  | @call v l q args hq hn ha =>
    intro n m k hk
    obtain ⟨ka, _, hka, rfl, -⟩ := code_call_eq_ok.1 hk
    exact refer_append.2 ⟨Expr.refer_codes ha hka, refer_cons.2 ⟨⟨q, hq, rfl⟩, refer_popReg _⟩⟩

end Stmt

end

namespace Procedure

variable {q : Procedure} {t : Tables} {v : Visible} {callable : List Procedure} {n m : Nat}
  {k : List Instr}

/-- The code of a procedure refers to globals and to what it can call. -/
theorem WellFormed.refer_code (hq : q.WellFormed v callable) (hk : q.code t n = .ok (k, m)) :
    Refer t callable k := by
  obtain ⟨f, body, -, hbody, rfl⟩ := code_eq_ok hk
  obtain ⟨reserve, kb, ke, -, hkb, hke, rfl⟩ := bodyCode_eq_ok hbody
  have hall : Refer t callable ([.label (procLabel q.name), .li .t0 reserve, .op .sub .sp .sp .t0] ++
      saveRegisters ++ [.move .fp .sp] ++ kb ++ .li .t0 0 :: ke) := by
    simp only [refer_append, refer_cons]
    exact ⟨⟨⟨⟨⟨trivial, trivial, trivial, refer_nil⟩, refer_saveRegisters⟩, trivial, refer_nil⟩,
      Stmt.refer_code hq.body _ _ _ hkb⟩, trivial, Storage.refer_epilogue hke⟩
  split_ifs
  · exact refer_cons.2 ⟨trivial, hall⟩
  · exact hall

end Procedure

end ProcMips
