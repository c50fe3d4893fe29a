import Mathlib.Data.List.Nodup
import ProcMips.Proofs.CodeGen.Generation
import ProcMips.Proofs.Machine.Execution
import ProcMips.Proofs.Syntax.Induction

/-! Every label of a program stands once. The labels that a generator hands out between two counts are
numbered from the one to the other, and none of them is the label of a procedure. -/

namespace ProcMips

open Mips

theorem generatedLabel_injective {n m : Nat} (h : generatedLabel n = generatedLabel m) : n = m := by
  unfold generatedLabel at h
  have hlist := congrArg String.toList h
  simp only [ToString.toString, String.toList_append, List.append_cancel_left_eq] at hlist
  rw [Nat.toList_repr, Nat.toList_repr] at hlist
  rw [← Nat.ofDigitChars_ten_toDigits (n := n), hlist, Nat.ofDigitChars_ten_toDigits]

theorem procLabel_injective {f g : String} (h : procLabel f = procLabel g) : f = g := by
  have hlist := congrArg String.toList h
  simp only [procLabel, String.toList_append, List.append_cancel_left_eq] at hlist
  exact String.toList_injective hlist

theorem generatedLabel_ne_procLabel (n : Nat) (f : String) : generatedLabel n ≠ procLabel f := by
  intro h
  have hhead := congrArg (fun s => s.toList.head?) h
  simp [generatedLabel, generatedStem, procLabel, ToString.toString] at hhead

theorem generatedLabel_ne_main (n : Nat) : generatedLabel n ≠ mainName := by
  intro h
  have hhead := congrArg (fun s => s.toList.head?) h
  simp [generatedLabel, generatedStem, mainName, ToString.toString] at hhead

theorem procLabel_ne_main (f : String) : procLabel f ≠ mainName := by
  intro h
  have hhead := congrArg (fun s => s.toList.head?) h
  simp [procLabel, mainName] at hhead

/-- Different labels with numbers from `n` up to `m`. -/
structure Numbered (n m : Nat) (ls : List String) : Prop where
  le : n ≤ m
  nodup : ls.Nodup
  mem : ∀ l ∈ ls, ∃ k, n ≤ k ∧ k < m ∧ l = generatedLabel k

namespace Numbered

variable {n m k : Nat} {ls ms : List String}

theorem nil : Numbered n n [] := ⟨Nat.le_refl n, List.nodup_nil, by simp⟩

theorem append (h : Numbered n k ls) (h' : Numbered k m ms) : Numbered n m (ls ++ ms) := by
  refine ⟨Nat.le_trans h.le h'.le, List.nodup_append'.2 ⟨h.nodup, h'.nodup, ?_⟩, fun l hl => ?_⟩
  · intro l hl hl'
    obtain ⟨i, -, hi, rfl⟩ := h.mem l hl
    obtain ⟨j, hj, -, heq⟩ := h'.mem _ hl'
    have := generatedLabel_injective heq
    omega
  · have := h.le
    have := h'.le
    rcases List.mem_append.1 hl with hl | hl
    · obtain ⟨i, hi, hi', rfl⟩ := h.mem l hl
      exact ⟨i, hi, by omega, rfl⟩
    · obtain ⟨i, hi, hi', rfl⟩ := h'.mem l hl
      exact ⟨i, by omega, hi', rfl⟩

/-- The label that was handed out first can stand anywhere. -/
theorem insert (h : Numbered (n + 1) m (ls ++ ms)) :
    Numbered n m (ls ++ generatedLabel n :: ms) := by
  have hle := h.le
  refine ⟨by omega, ?_, fun l hl => ?_⟩
  · rw [List.nodup_middle]
    refine List.nodup_cons.2 ⟨fun hl => ?_, h.nodup⟩
    obtain ⟨i, hi, -, heq⟩ := h.mem _ hl
    have := generatedLabel_injective heq
    omega
  · rw [List.mem_append, List.mem_cons] at hl
    rcases hl with hl | rfl | hl
    · obtain ⟨i, hi, hi', rfl⟩ := h.mem l (List.mem_append_left _ hl)
      exact ⟨i, by omega, hi', rfl⟩
    · exact ⟨n, Nat.le_refl n, by omega, rfl⟩
    · obtain ⟨i, hi, hi', rfl⟩ := h.mem l (List.mem_append_right _ hl)
      exact ⟨i, by omega, hi', rfl⟩

/-- The label that was handed out first, behind all others. -/
theorem concat (h : Numbered (n + 1) m ls) : Numbered n m (ls ++ [generatedLabel n]) :=
  insert (by rwa [List.append_nil])

/-- The label that was handed out first, in front of all others. -/
theorem cons (h : Numbered (n + 1) m ls) : Numbered n m (generatedLabel n :: ls) := by
  rw [← List.nil_append ls] at h
  exact h.insert

end Numbered

@[simp] theorem labelsOf_nil : labelsOf [] = [] := rfl

@[simp] theorem labelsOf_cons_label (l : String) (c : List Instr) :
    labelsOf (.label l :: c) = l :: labelsOf c := rfl

/-- An instruction that is no label. -/
theorem labelsOf_cons {i : Instr} (h : ∀ l, i ≠ .label l) (c : List Instr) :
    labelsOf (i :: c) = labelsOf c := by
  cases i with
  | label l => exact absurd rfl (h l)
  | _ => rfl

@[simp] theorem labelsOf_pushReg (r : Register) : labelsOf (pushReg r) = [] := rfl

@[simp] theorem labelsOf_popReg (r : Register) : labelsOf (popReg r) = [] := rfl

attribute [simp] labelsOf_append

theorem freshLabel_eq_ok {n m : Nat} {l : String} :
    Gen.freshLabel n = .ok (l, m) → l = generatedLabel n ∧ m = n + 1 := by
  unfold Gen.freshLabel
  split_ifs
  · rintro ⟨⟩
    exact ⟨rfl, rfl⟩
  · rintro ⟨⟩

theorem word_eq_ok {r : Except Overflow Int} {n m : Nat} {i : Int} :
    Gen.word r n = .ok (i, m) → r = .ok i ∧ m = n := by
  unfold Gen.word
  cases r with
  | error op => rintro ⟨⟩
  | ok j =>
    rintro ⟨⟩
    exact ⟨rfl, rfl⟩

namespace Storage

variable {s : Storage} {x : String} {n m : Nat}

theorem offset_eq_ok {o : Int} :
    s.offset x n = .ok (o, m) ↔ s.frame.offset? x = some o ∧ n = m := by
  unfold offset
  cases h : s.frame.offset? x with
  | none => simpa using gen_throw_ne_ok
  | some o' => simp [gen_pure_eq_ok]

theorem scalarAddress_eq_ok {a : Address} :
    s.scalarAddress x n = .ok (a, m) ↔
      (if s.tables.isGlobal x then a = .label (globalLabel x)
        else ∃ o, s.frame.offset? x = some o ∧ a = .offset o .fp) ∧ n = m := by
  unfold scalarAddress
  split_ifs
  · rw [gen_pure_eq_ok, eq_comm (a := a)]
  · simp only [gen_bind_eq_ok, offset_eq_ok, gen_pure_eq_ok]
    constructor
    · rintro ⟨o, _, ⟨ho, rfl⟩, rfl, rfl⟩
      exact ⟨⟨o, ho, rfl⟩, rfl⟩
    · rintro ⟨⟨o, ho, rfl⟩, rfl⟩
      exact ⟨o, n, ⟨ho, rfl⟩, rfl, rfl⟩

/-- The index in `$t0`, in bytes. -/
def scaled (scratch : Register) : List Instr := [.li scratch wordSize, .op .mul .t0 .t0 scratch]

theorem elementAddress_eq_ok {scratch : Register} {c : List Instr} {a : Address} :
    s.elementAddress x scratch n = .ok ((c, a), m) ↔
      (if s.tables.isGlobal x then c = scaled scratch ∧ a = .indexed (globalLabel x) .t0
        else ∃ o, s.frame.offset? x = some o ∧ c = scaled scratch ++
          [.li .t4 o, .op .add .t4 .t4 .t0, .op .add .t4 .t4 .fp] ∧ a = .indirect .t4) ∧
        n = m := by
  unfold elementAddress scaled
  split_ifs
  · rw [gen_pure_eq_ok, Prod.mk.injEq, eq_comm (a := c), eq_comm (a := a)]
  · simp only [gen_bind_eq_ok, offset_eq_ok, gen_pure_eq_ok, Prod.mk.injEq]
    constructor
    · rintro ⟨o, _, ⟨ho, rfl⟩, ⟨rfl, rfl⟩, rfl⟩
      exact ⟨⟨o, ho, rfl, rfl⟩, rfl⟩
    · rintro ⟨⟨o, ho, rfl, rfl⟩, rfl⟩
      exact ⟨o, n, ⟨ho, rfl⟩, ⟨rfl, rfl⟩, rfl⟩

theorem labelsOf_elementAddress {scratch : Register} {c : List Instr} {a : Address}
    (h : s.elementAddress x scratch n = .ok ((c, a), m)) : labelsOf c = [] ∧ n = m := by
  rw [elementAddress_eq_ok] at h
  obtain ⟨h, rfl⟩ := h
  split_ifs at h
  · obtain ⟨rfl, -⟩ := h
    exact ⟨rfl, rfl⟩
  · obtain ⟨o, -, rfl, -⟩ := h
    exact ⟨rfl, rfl⟩

end Storage

theorem BinOp.instr_eq_ok {op : BinOp} {n m : Nat} {o : Op} (h : op.instr n = .ok (o, m)) :
    n = m := by
  cases op with
  | and | or => exact absurd h gen_throw_ne_ok
  | _ => exact (gen_pure_eq_ok.1 h).2

section

variable {s : Storage}

theorem Expr.numbered_codes_of {es : List Expr}
    (h : ∀ e ∈ es, ∀ n m c, e.code s n = .ok (c, m) → Numbered n m (labelsOf c)) {n m : Nat}
    {c : List Instr} (hc : Expr.codes s es n = .ok (c, m)) : Numbered n m (labelsOf c) := by
  induction es generalizing n c with
  | nil =>
    obtain ⟨rfl, rfl⟩ := Expr.codes_nil_eq_ok.1 hc
    exact .nil
  | cons e es ih =>
    rw [List.forall_mem_cons] at h
    obtain ⟨c₁, k, h₁, c₂, _, h₂, rfl, rfl⟩ := Expr.codes_cons_eq_ok.1 hc
    rw [labelsOf_append]
    exact (h.1 _ _ _ h₁).append (ih h.2 h₂)

theorem Expr.numbered_code {e : Expr} {n m : Nat} {c : List Instr}
    (hc : e.code s n = .ok (c, m)) : Numbered n m (labelsOf c) := by
  induction e generalizing n m c with
  | int l i | bool l b =>
    simp only [Expr.code, gen_pure_eq_ok] at hc
    obtain ⟨rfl, rfl⟩ := hc
    exact .nil
  | scalar l x =>
    obtain ⟨a, _, ha, rfl, rfl⟩ := Expr.code_scalar_eq_ok.1 hc
    obtain ⟨-, rfl⟩ := Storage.scalarAddress_eq_ok.1 ha
    exact .nil
  | element l x index ih =>
    obtain ⟨ci, k, hi, scale, a, _, ha, rfl, rfl⟩ := Expr.code_element_eq_ok.1 hc
    obtain ⟨hscale, rfl⟩ := Storage.labelsOf_elementAddress ha
    simpa [hscale, labelsOf_cons] using ih hi
  | call l f args ih =>
    obtain ⟨ca, _, ha, rfl, rfl⟩ := Expr.code_call_eq_ok.1 hc
    simpa [labelsOf_cons] using Expr.numbered_codes_of (fun a h n m c => ih a h) ha
  | binary l op left right ihl ihr =>
    cases hop : op.order with
    | leftFirst =>
      obtain ⟨cl, k, hl, cr, k', hr, o, _, ho, rfl, rfl⟩ := (Expr.code_leftFirst_eq_ok hop).1 hc
      obtain rfl := BinOp.instr_eq_ok ho
      simpa [labelsOf_cons] using (ihl hl).append (ihr hr)
    | rightFirst =>
      obtain ⟨cr, k, hr, cl, k', hl, o, _, ho, rfl, rfl⟩ := (Expr.code_rightFirst_eq_ok hop).1 hc
      obtain rfl := BinOp.instr_eq_ok ho
      simpa [labelsOf_cons] using (ihr hr).append (ihl hl)
    | shortCircuit b =>
      obtain ⟨decided, _, hd, done, _, hd', cl, k, hl, cr, _, hr, rfl, rfl⟩ :=
        (Expr.code_shortCircuit_eq_ok hop).1 hc
      obtain ⟨rfl, rfl⟩ := freshLabel_eq_ok hd
      obtain ⟨rfl, rfl⟩ := freshLabel_eq_ok hd'
      have hbranch (l : String) :
          (if b = true then Instr.bnez .t0 (generatedLabel n) else .beqz .t0 (generatedLabel n)) ≠
            .label l := by
        split_ifs <;> simp
      have := (((ihl hl).append (ihr hr)).concat.insert)
      simpa [labelsOf_cons, hbranch] using this
  | not l operand ih =>
    obtain ⟨done, _, hd, co, _, ho, rfl, rfl⟩ := Expr.code_not_eq_ok.1 hc
    obtain ⟨rfl, rfl⟩ := freshLabel_eq_ok hd
    simpa [labelsOf_cons] using (ih ho).concat

theorem Expr.numbered_codes {es : List Expr} {n m : Nat} {c : List Instr}
    (hc : Expr.codes s es n = .ok (c, m)) : Numbered n m (labelsOf c) :=
  Expr.numbered_codes_of (fun _ _ _ _ _ => Expr.numbered_code) hc

theorem Expr.numbered_branchCode {e : Expr} {l : String} {n m : Nat} {c : List Instr}
    (hc : e.branchCode s l n = .ok (c, m)) : Numbered n m (labelsOf c) := by
  obtain ⟨ce, _, he, rfl, rfl⟩ := Expr.branchCode_eq_ok.1 hc
  simpa [labelsOf_cons] using Expr.numbered_code he

theorem Storage.labelsOf_epilogue {n m : Nat} {c : List Instr}
    (hc : s.epilogue n = .ok (c, m)) : labelsOf c = [] ∧ n = m := by
  obtain ⟨size, _, hsize, rfl, rfl⟩ := Storage.code_epilogue_eq_ok.1 hc
  obtain ⟨-, rfl⟩ := word_eq_ok hsize
  exact ⟨rfl, rfl⟩

theorem Stmt.numbered_codes_of {ss : List Stmt}
    (h : ∀ t ∈ ss, ∀ n m c, t.code s n = .ok (c, m) → Numbered n m (labelsOf c)) {n m : Nat}
    {c : List Instr} (hc : Stmt.codes s ss n = .ok (c, m)) : Numbered n m (labelsOf c) := by
  induction ss generalizing n c with
  | nil =>
    obtain ⟨rfl, rfl⟩ := Stmt.codes_nil_eq_ok.1 hc
    exact .nil
  | cons t ss ih =>
    rw [List.forall_mem_cons] at h
    obtain ⟨c₁, k, h₁, c₂, _, h₂, rfl, rfl⟩ := Stmt.codes_cons_eq_ok.1 hc
    rw [labelsOf_append]
    exact (h.1 _ _ _ h₁).append (ih h.2 h₂)

theorem Stmt.numbered_code {t : Stmt} {n m : Nat} {c : List Instr}
    (hc : t.code s n = .ok (c, m)) : Numbered n m (labelsOf c) := by
  induction t generalizing n m c with
  | declare l x shape =>
    obtain ⟨rfl, rfl⟩ := Stmt.code_declare_eq_ok.1 hc
    exact .nil
  | assign l target value =>
    cases target with
    | scalar x =>
      obtain ⟨cv, _, hv, a, _, ha, rfl, rfl⟩ := Stmt.code_assign_scalar_eq_ok.1 hc
      obtain ⟨-, rfl⟩ := Storage.scalarAddress_eq_ok.1 ha
      simpa [labelsOf_cons] using Expr.numbered_code hv
    | element x index =>
      obtain ⟨ci, _, hi, cv, _, hv, scale, a, _, ha, rfl, rfl⟩ :=
        Stmt.code_assign_element_eq_ok.1 hc
      obtain ⟨hscale, rfl⟩ := Storage.labelsOf_elementAddress ha
      simpa [labelsOf_cons, hscale] using (Expr.numbered_code hi).append (Expr.numbered_code hv)
  | block l body ih =>
    exact Stmt.numbered_codes_of (fun t ht n m c => ih t ht) (Stmt.code_block_eq_ok.1 hc)
  | ifThen l cond yes ih =>
    obtain ⟨done, _, hd, cc, _, hcc, cy, _, hy, rfl, rfl⟩ := Stmt.code_ifThen_eq_ok.1 hc
    obtain ⟨rfl, rfl⟩ := freshLabel_eq_ok hd
    simpa [labelsOf_cons] using ((Expr.numbered_branchCode hcc).append (ih hy)).concat
  | ifElse l cond yes no ihy ihn =>
    obtain ⟨otherwise, _, ho, done, _, hd, cc, _, hcc, cy, _, hy, cn, _, hn, rfl, rfl⟩ :=
      Stmt.code_ifElse_eq_ok.1 hc
    obtain ⟨rfl, rfl⟩ := freshLabel_eq_ok ho
    obtain ⟨rfl, rfl⟩ := freshLabel_eq_ok hd
    have hall := (((Expr.numbered_branchCode hcc).append (ihy hy)).append (ihn hn)).concat
    rw [List.append_assoc] at hall
    simpa [labelsOf_cons] using hall.insert
  | loop l cond body ih =>
    obtain ⟨start, _, hs, done, _, hd, cc, _, hcc, cb, _, hb, rfl, rfl⟩ := Stmt.code_loop_eq_ok.1 hc
    obtain ⟨rfl, rfl⟩ := freshLabel_eq_ok hs
    obtain ⟨rfl, rfl⟩ := freshLabel_eq_ok hd
    have hall := ((Expr.numbered_branchCode hcc).append (ih hb)).concat.cons
    simpa [labelsOf_cons] using hall
  | output l value =>
    obtain ⟨cv, _, hv, rfl, rfl⟩ := Stmt.code_output_eq_ok.1 hc
    simpa [labelsOf_cons, printInt] using Expr.numbered_code hv
  | input l target =>
    cases target with
    | scalar x =>
      obtain ⟨a, _, ha, rfl, rfl⟩ := Stmt.code_input_scalar_eq_ok.1 hc
      obtain ⟨-, rfl⟩ := Storage.scalarAddress_eq_ok.1 ha
      exact .nil
    | element x index =>
      obtain ⟨ci, _, hi, scale, a, _, ha, rfl, rfl⟩ := Stmt.code_input_element_eq_ok.1 hc
      obtain ⟨hscale, rfl⟩ := Storage.labelsOf_elementAddress ha
      simpa [labelsOf_cons, hscale, readInt] using Expr.numbered_code hi
  | ret l value =>
    obtain ⟨cv, _, hv, ce, _, he, rfl, rfl⟩ := Stmt.code_ret_eq_ok.1 hc
    obtain ⟨hepilogue, rfl⟩ := Storage.labelsOf_epilogue he
    simpa [hepilogue] using Expr.numbered_code hv
  | call l f args =>
    obtain ⟨ca, _, ha, rfl, rfl⟩ := Stmt.code_call_eq_ok.1 hc
    simpa [labelsOf_cons] using Expr.numbered_codes ha

end

theorem labelsOf_saveRegisters : labelsOf saveRegisters = [] := rfl

theorem Procedure.bodyCode_eq_ok {p : Procedure} {s : Storage} {n m : Nat} {c : List Instr}
    (hc : p.bodyCode s n = .ok (c, m)) :
    ∃ reserve cb ce, s.frame.reserve = .ok reserve ∧ p.body.code s n = .ok (cb, m) ∧
      s.epilogue m = .ok (ce, m) ∧
      c = [.label (procLabel p.name), .li .t0 reserve, .op .sub .sp .sp .t0] ++ saveRegisters ++
        [.move .fp .sp] ++ cb ++ .li .t0 0 :: ce := by
  simp only [Procedure.bodyCode, gen_bind_eq_ok, gen_pure_eq_ok] at hc
  obtain ⟨reserve, _, hword, cb, _, hb, ce, _, he, rfl, rfl⟩ := hc
  obtain ⟨hreserve, rfl⟩ := word_eq_ok hword
  obtain ⟨-, rfl⟩ := Storage.labelsOf_epilogue he
  exact ⟨reserve, cb, ce, hreserve, hb, he, rfl⟩

theorem Procedure.code_eq_ok {p : Procedure} {t : Tables} {n m : Nat} {c : List Instr}
    (hc : p.code t n = .ok (c, m)) :
    ∃ f body, t.frame? p.name = some f ∧ p.bodyCode ⟨t, p.name, f⟩ n = .ok (body, m) ∧
      c = if p.name = mainName then .label mainName :: body else body := by
  unfold Procedure.code at hc
  cases hf : t.frame? p.name with
  | none =>
    rw [hf] at hc
    exact absurd hc gen_throw_ne_ok
  | some f =>
    simp only [hf, gen_bind_eq_ok, gen_pure_eq_ok] at hc
    obtain ⟨body, _, hbody, rfl, rfl⟩ := hc
    exact ⟨f, body, rfl, hbody, rfl⟩

/-- The labels of a procedure: its own, those that are numbered, and the one of `main`. -/
theorem Procedure.labelsOf_code {p : Procedure} {t : Tables} {n m : Nat} {c : List Instr}
    (hc : p.code t n = .ok (c, m)) :
    ∃ ls, Numbered n m ls ∧
      labelsOf c = if p.name = mainName then mainName :: procLabel p.name :: ls
        else procLabel p.name :: ls := by
  obtain ⟨f, body, -, hbody, rfl⟩ := Procedure.code_eq_ok hc
  obtain ⟨reserve, cb, ce, -, hb, he, rfl⟩ := Procedure.bodyCode_eq_ok hbody
  refine ⟨labelsOf cb, Stmt.numbered_code hb, ?_⟩
  split_ifs <;> simp [labelsOf_cons, labelsOf_saveRegisters, (Storage.labelsOf_epilogue he).1]

namespace Program

/-- What a label of the code of procedures is. -/
def KnownLabel (ps : List Procedure) (n m : Nat) (l : String) : Prop :=
  (∃ k, n ≤ k ∧ k < m ∧ l = generatedLabel k) ∨ (∃ q ∈ ps, l = procLabel q.name) ∨
    l = mainName ∧ ∃ q ∈ ps, q.name = mainName

theorem KnownLabel.mono {ps qs : List Procedure} {n n' m m' : Nat} {l : String}
    (h : KnownLabel ps n m l) (hps : ps ⊆ qs) (hn : n' ≤ n) (hm : m ≤ m') :
    KnownLabel qs n' m' l := by
  rcases h with ⟨k, hk, hk', rfl⟩ | ⟨q, hq, rfl⟩ | ⟨rfl, q, hq, hname⟩
  · exact .inl ⟨k, by omega, by omega, rfl⟩
  · exact .inr (.inl ⟨q, hps hq, rfl⟩)
  · exact .inr (.inr ⟨rfl, q, hps hq, hname⟩)

/-- Procedures of different names, numbered one behind the other, share no label. -/
theorem KnownLabel.disjoint {ps qs : List Procedure} {n k m : Nat} {l : String}
    (h : KnownLabel ps n k l) (h' : KnownLabel qs k m l)
    (hne : ∀ p ∈ ps, ∀ q ∈ qs, p.name ≠ q.name) : False := by
  rcases h with ⟨i, -, hi, rfl⟩ | ⟨p, hp, rfl⟩ | ⟨rfl, p, hp, hname⟩
  · rcases h' with ⟨j, hj, -, heq⟩ | ⟨q, -, heq⟩ | ⟨heq, -⟩
    · have := generatedLabel_injective heq
      omega
    · exact generatedLabel_ne_procLabel i _ heq
    · exact generatedLabel_ne_main i heq
  · rcases h' with ⟨j, -, -, heq⟩ | ⟨q, hq, heq⟩ | ⟨heq, -⟩
    · exact generatedLabel_ne_procLabel j _ heq.symm
    · exact hne p hp q hq (procLabel_injective heq)
    · exact procLabel_ne_main _ heq
  · rcases h' with ⟨j, -, -, heq⟩ | ⟨q, -, heq⟩ | ⟨-, q, hq, heq⟩
    · exact generatedLabel_ne_main j heq.symm
    · exact procLabel_ne_main _ heq.symm
    · exact hne p hp q hq (hname.trans heq.symm)

/-- Different labels of the code of procedures. -/
structure Labelled (ps : List Procedure) (n m : Nat) (ls : List String) : Prop where
  le : n ≤ m
  nodup : ls.Nodup
  known : ∀ l ∈ ls, KnownLabel ps n m l

theorem Labelled.append {ps qs : List Procedure} {n k m : Nat} {ls ms : List String}
    (h : Labelled ps n k ls) (h' : Labelled qs k m ms)
    (hne : ∀ p ∈ ps, ∀ q ∈ qs, p.name ≠ q.name) : Labelled (ps ++ qs) n m (ls ++ ms) := by
  refine ⟨Nat.le_trans h.le h'.le, List.nodup_append'.2 ⟨h.nodup, h'.nodup, ?_⟩, fun l hl => ?_⟩
  · exact fun l hl hl' => (h.known l hl).disjoint (h'.known l hl') hne
  · rcases List.mem_append.1 hl with hl | hl
    · exact (h.known l hl).mono (List.subset_append_left _ _) (Nat.le_refl n) h'.le
    · exact (h'.known l hl).mono (List.subset_append_right _ _) h.le (Nat.le_refl m)

theorem labelled_code {p : Procedure} {t : Tables} {n m : Nat} {c : List Instr}
    (hc : p.code t n = .ok (c, m)) : Labelled [p] n m (labelsOf c) := by
  obtain ⟨ls, hls, hlabels⟩ := Procedure.labelsOf_code hc
  have hproc : procLabel p.name ∉ ls := fun h => by
    obtain ⟨i, -, -, hi⟩ := hls.mem _ h
    exact generatedLabel_ne_procLabel i _ hi.symm
  have hmain : mainName ∉ ls := fun h => by
    obtain ⟨i, -, -, hi⟩ := hls.mem _ h
    exact generatedLabel_ne_main i hi.symm
  have hne : mainName ≠ procLabel p.name := (procLabel_ne_main p.name).symm
  rw [hlabels]
  refine ⟨hls.le, ?_, fun l hl => ?_⟩
  · split_ifs
    · simp [hls.nodup, hproc, hmain, hne]
    · simp [hls.nodup, hproc]
  · have hl : l ∈ ls ∨ l = procLabel p.name ∨ l = mainName ∧ p.name = mainName := by
      split_ifs at hl with hname
      · simp only [List.mem_cons] at hl
        tauto
      · simp only [List.mem_cons] at hl
        tauto
    rcases hl with hl | rfl | ⟨rfl, hname⟩
    · exact .inl (hls.mem l hl)
    · exact .inr (.inl ⟨p, List.mem_singleton_self p, rfl⟩)
    · exact .inr (.inr ⟨rfl, p, List.mem_singleton_self p, hname⟩)

theorem labelled_proceduresCode {t : Tables} {ps : List Procedure} {n m : Nat} {c : List Instr}
    (hnodup : (ps.map Procedure.name).Nodup) (hc : proceduresCode t ps n = .ok (c, m)) :
    Labelled ps n m (labelsOf c) := by
  induction ps generalizing n c with
  | nil =>
    obtain ⟨rfl, rfl⟩ := gen_pure_eq_ok.1 hc
    exact ⟨Nat.le_refl n, List.nodup_nil, by simp⟩
  | cons p ps ih =>
    simp only [proceduresCode, gen_bind_eq_ok, gen_pure_eq_ok] at hc
    obtain ⟨cp, k, hp, cs, _, hps, rfl, rfl⟩ := hc
    rw [List.map_cons, List.nodup_cons] at hnodup
    rw [labelsOf_append]
    refine (labelled_code hp).append (ih hnodup.2 hps) fun q hq r hr heq => ?_
    obtain rfl := List.mem_singleton.1 hq
    exact hnodup.1 (heq ▸ List.mem_map_of_mem hr)

theorem labelsOf_dataCode (t : Tables) : labelsOf (dataCode t) = [] := by
  unfold dataCode
  induction t.globals with
  | nil => rfl
  | cons g gs ih => simpa [labelsOf_cons] using ih

theorem code_eq_ok {p : Program} {t : Tables} {c : List Instr} (hc : p.code t = .ok c) :
    ∃ procedures m, proceduresCode t p.procedures 0 = .ok (procedures, m) ∧
      c = dataCode t ++ procedures := by
  unfold code at hc
  split at hc
  · cases hc
  · next procedures m hprocedures =>
    cases hc
    exact ⟨procedures, m, hprocedures, rfl⟩

/-- The code of a procedure, between that of the procedures in front of it and of those behind it. -/
theorem split_of_proceduresCode {t : Tables} {before after : List Procedure} {q : Procedure}
    {n m : Nat} {k : List Instr} (h : proceduresCode t (before ++ q :: after) n = .ok (k, m)) :
    ∃ front i kq j back, proceduresCode t before n = .ok (front, i) ∧ q.code t i = .ok (kq, j) ∧
      proceduresCode t after j = .ok (back, m) ∧ k = front ++ kq ++ back := by
  induction before generalizing n k with
  | nil =>
    simp only [List.nil_append, proceduresCode, gen_bind_eq_ok, gen_pure_eq_ok] at h
    obtain ⟨kq, j, hq, back, _, hback, rfl, rfl⟩ := h
    exact ⟨[], n, kq, j, back, rfl, hq, hback, rfl⟩
  | cons p ps ih =>
    simp only [List.cons_append, proceduresCode, gen_bind_eq_ok, gen_pure_eq_ok] at h ⊢
    obtain ⟨kp, _, hp, _, _, hrest, rfl, rfl⟩ := h
    obtain ⟨front, i, kq, j, back, hfront, hq, hback, rfl⟩ := ih hrest
    exact ⟨kp ++ front, i, kq, j, back, ⟨kp, _, hp, front, i, hfront, rfl, rfl⟩, hq, hback,
      by simp⟩

theorem nodup_labelsOf_code {p : Program} {t : Tables} {c : List Instr}
    (hnodup : (p.procedures.map Procedure.name).Nodup) (hc : p.code t = .ok c) :
    (labelsOf c).Nodup := by
  obtain ⟨procedures, m, hprocedures, rfl⟩ := code_eq_ok hc
  rw [labelsOf_append, labelsOf_dataCode, List.nil_append]
  exact (labelled_proceduresCode hnodup hprocedures).nodup

end Program

end ProcMips
