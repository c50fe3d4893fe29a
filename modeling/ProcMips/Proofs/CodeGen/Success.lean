import ProcMips.Proofs.Analysis.Occurrences

/-! Code generation succeeds on every program that analysis accepts, unless it runs out of labels. What
can fail is the look-up of a slot, the counting of labels, the choice of an instruction for a short
circuit and the arithmetic on the size of a frame. -/

namespace ProcMips

open Mips

/-- Generation succeeds with `k` labels, wherever there are that many left. -/
def Gen.Uses {α : Type} (x : Gen α) (k : Nat) : Prop :=
  ∀ n, n + k < labelLimit → ∃ a, x n = .ok (a, n + k)

namespace Gen

variable {α β : Type}

theorem uses_pure (a : α) : Uses (pure a : Gen α) 0 := fun _ _ => ⟨a, rfl⟩

theorem Uses.bind {x : Gen α} {f : α → Gen β} {k m : Nat} (hx : Uses x k)
    (hf : ∀ a, Uses (f a) m) : Uses (x >>= f) (k + m) := by
  intro n hn
  obtain ⟨a, ha⟩ := hx n (by omega)
  obtain ⟨b, hb⟩ := hf a (n + k) (by omega)
  exact ⟨b, gen_bind_eq_ok.2 ⟨a, n + k, ha, by rw [hb, Nat.add_assoc]⟩⟩

theorem uses_freshLabel : Uses freshLabel 1 := by
  intro n hn
  exact ⟨generatedLabel n, if_pos hn⟩

theorem uses_word {r : Except Overflow Int} (h : ∃ i, r = .ok i) : Uses (word r) 0 := by
  intro n _
  obtain ⟨i, rfl⟩ := h
  exact ⟨i, rfl⟩

end Gen

open Gen

mutual

/-- The labels that the code of an expression uses. -/
def Expr.labels : Expr → Nat
  | .int .. | .bool .. | .scalar .. => 0
  | .element _ _ index => index.labels
  | .call _ _ args => Expr.labelsAll args
  | .binary _ op left right =>
    match op.order with
    | .leftFirst | .rightFirst => left.labels + right.labels
    | .shortCircuit _ => 2 + left.labels + right.labels
  | .not _ operand => 1 + operand.labels

def Expr.labelsAll : List Expr → Nat
  | [] => 0
  | e :: es => e.labels + Expr.labelsAll es

end

def Target.labels : Target → Nat
  | scalar _ => 0
  | element _ index => index.labels

mutual

def Stmt.labels : Stmt → Nat
  | .declare .. => 0
  | .assign _ target value => target.labels + value.labels
  | .block _ body => Stmt.labelsAll body
  | .ifThen _ condition yes => 1 + condition.labels + yes.labels
  | .ifElse _ condition yes no => 2 + condition.labels + yes.labels + no.labels
  | .loop _ condition body => 2 + condition.labels + body.labels
  | .output _ value => value.labels
  | .input _ target => target.labels
  | .ret _ value => value.labels
  | .call _ _ args => Expr.labelsAll args

def Stmt.labelsAll : List Stmt → Nat
  | [] => 0
  | s :: ss => s.labels + Stmt.labelsAll ss

end

/-- The labels that the code of a program uses. -/
def Program.labels (p : Program) : Nat := (p.procedures.map fun q => q.body.labels).sum

namespace Storage

/-- The variable has an address. -/
def Stores (s : Storage) (x : String) : Prop :=
  s.tables.isGlobal x = true ∨ ∃ n, s.frame.offset? x = some n

variable {s : Storage} {x : String}

theorem uses_offset (h : ∃ n, s.frame.offset? x = some n) : Uses (s.offset x) 0 := by
  obtain ⟨n, hn⟩ := h
  rw [offset, hn]
  exact uses_pure n

theorem uses_scalarAddress (h : s.Stores x) : Uses (s.scalarAddress x) 0 := by
  unfold scalarAddress
  split_ifs with hx
  · exact uses_pure _
  · exact (uses_offset (h.resolve_left hx)).bind fun _ => uses_pure _

theorem uses_elementAddress (h : s.Stores x) (scratch : Register) :
    Uses (s.elementAddress x scratch) 0 := by
  unfold elementAddress
  dsimp only
  split_ifs with hx
  · exact uses_pure _
  · exact (uses_offset (h.resolve_left hx)).bind fun _ => uses_pure _

theorem uses_epilogue (h : ∃ n, s.frame.size = .ok n) : Uses s.epilogue 0 :=
  (uses_word h).bind fun _ => uses_pure _

end Storage

/-- An operator that does not short circuit has an instruction. -/
theorem BinOp.uses_instr {op : BinOp} (h : ∀ b, op.order ≠ .shortCircuit b) : Uses op.instr 0 := by
  cases op with
  | and => exact absurd rfl (h false)
  | or => exact absurd rfl (h true)
  | _ => exact uses_pure _

section

variable {s : Storage}

theorem Expr.uses_codes_of {es : List Expr} (h : ∀ e ∈ es, Uses (e.code s) e.labels) :
    Uses (Expr.codes s es) (Expr.labelsAll es) := by
  induction es with
  | nil => exact uses_pure _
  | cons e es ih =>
    rw [List.forall_mem_cons] at h
    exact h.1.bind fun _ => (ih h.2).bind fun _ => uses_pure _

theorem Expr.uses_code {e : Expr} (h : ∀ x ∈ e.variables, s.Stores x) :
    Uses (e.code s) e.labels := by
  induction e with
  | int l n | bool l b =>
    rw [Expr.code, Expr.labels]
    exact uses_pure _
  | scalar l x =>
    rw [Expr.code, Expr.labels]
    exact (Storage.uses_scalarAddress (h x List.mem_cons_self)).bind fun _ => uses_pure _
  | element l x index ih =>
    rw [Expr.variables, List.forall_mem_cons] at h
    rw [Expr.code, Expr.labels]
    exact (ih h.2).bind fun _ => (Storage.uses_elementAddress h.1 _).bind fun _ => uses_pure _
  | call l f args ih =>
    rw [Expr.code, Expr.labels]
    refine (Expr.uses_codes_of fun a ha => ih a ha fun x hx => h x ?_).bind fun _ => uses_pure _
    rw [Expr.variables, Expr.mem_variablesAll]
    exact ⟨a, ha, hx⟩
  | binary l op left right ihl ihr =>
    rw [Expr.variables, List.forall_mem_append] at h
    have hl := ihl h.1
    have hr := ihr h.2
    rw [Expr.code, Expr.labels]
    cases hop : op.order with
    | leftFirst =>
      have hinstr : Uses op.instr 0 := BinOp.uses_instr (by simp [hop])
      exact hl.bind fun _ => hr.bind fun _ => hinstr.bind fun _ => uses_pure _
    | rightFirst =>
      have hinstr : Uses op.instr 0 := BinOp.uses_instr (by simp [hop])
      dsimp only
      rw [Nat.add_comm]
      exact hr.bind fun _ => hl.bind fun _ => hinstr.bind fun _ => uses_pure _
    | shortCircuit b =>
      dsimp only
      rw [show 2 + left.labels + right.labels = 1 + (1 + (left.labels + right.labels)) by omega]
      exact uses_freshLabel.bind fun _ => uses_freshLabel.bind fun _ => hl.bind fun _ =>
        hr.bind fun _ => uses_pure _
  | not l operand ih =>
    rw [Expr.code, Expr.labels]
    exact uses_freshLabel.bind fun _ => (ih h).bind fun _ => uses_pure _

theorem Expr.uses_codes {es : List Expr} (h : ∀ x ∈ Expr.variablesAll es, s.Stores x) :
    Uses (Expr.codes s es) (Expr.labelsAll es) :=
  Expr.uses_codes_of fun e he => Expr.uses_code fun x hx => h x (Expr.mem_variablesAll.2 ⟨e, he, hx⟩)

theorem Expr.uses_branchCode {e : Expr} (h : ∀ x ∈ e.variables, s.Stores x) (onFalse : String) :
    Uses (e.branchCode s onFalse) e.labels :=
  (Expr.uses_code h).bind fun _ => uses_pure _

theorem Stmt.uses_codes_of {ss : List Stmt} (h : ∀ t ∈ ss, Uses (t.code s) t.labels) :
    Uses (Stmt.codes s ss) (Stmt.labelsAll ss) := by
  induction ss with
  | nil => exact uses_pure _
  | cons t ss ih =>
    rw [List.forall_mem_cons] at h
    exact h.1.bind fun _ => (ih h.2).bind fun _ => uses_pure _

theorem Stmt.uses_code (hsize : ∃ n, s.frame.size = .ok n) {t : Stmt}
    (h : ∀ x ∈ t.variables, s.Stores x) : Uses (t.code s) t.labels := by
  induction t with
  | declare l x shape =>
    rw [Stmt.code, Stmt.labels]
    exact uses_pure _
  | assign l target value =>
    rw [Stmt.variables, List.forall_mem_append] at h
    have hv := Expr.uses_code h.2
    cases target with
    | scalar x =>
      rw [Stmt.code, Stmt.labels, Target.labels, Nat.zero_add]
      exact hv.bind fun _ => (Storage.uses_scalarAddress (h.1 x List.mem_cons_self)).bind fun _ =>
        uses_pure _
    | element x index =>
      rw [Target.variables, List.forall_mem_cons] at h
      rw [Stmt.code, Stmt.labels, Target.labels]
      exact (Expr.uses_code h.1.2).bind fun _ => hv.bind fun _ =>
        (Storage.uses_elementAddress h.1.1 _).bind fun _ => uses_pure _
  | block l body ih =>
    rw [Stmt.code, Stmt.labels]
    refine Stmt.uses_codes_of fun t ht => ih t ht fun x hx => h x ?_
    rw [Stmt.variables, Stmt.mem_variablesAll]
    exact ⟨t, ht, hx⟩
  | ifThen l cond yes ih =>
    rw [Stmt.variables, List.forall_mem_append] at h
    rw [Stmt.code, Stmt.labels, Nat.add_assoc]
    exact uses_freshLabel.bind fun _ => (Expr.uses_branchCode h.1 _).bind fun _ =>
      (ih h.2).bind fun _ => uses_pure _
  | ifElse l cond yes no ihy ihn =>
    rw [Stmt.variables, List.forall_mem_append, List.forall_mem_append] at h
    rw [Stmt.code, Stmt.labels, show 2 + cond.labels + yes.labels + no.labels =
      1 + (1 + (cond.labels + (yes.labels + no.labels))) by omega]
    exact uses_freshLabel.bind fun _ => uses_freshLabel.bind fun _ =>
      (Expr.uses_branchCode h.1.1 _).bind fun _ => (ihy h.1.2).bind fun _ => (ihn h.2).bind fun _ =>
        uses_pure _
  | loop l cond body ih =>
    rw [Stmt.variables, List.forall_mem_append] at h
    rw [Stmt.code, Stmt.labels,
      show 2 + cond.labels + body.labels = 1 + (1 + (cond.labels + body.labels)) by omega]
    exact uses_freshLabel.bind fun _ => uses_freshLabel.bind fun _ =>
      (Expr.uses_branchCode h.1 _).bind fun _ => (ih h.2).bind fun _ => uses_pure _
  | output l value =>
    rw [Stmt.code, Stmt.labels]
    exact (Expr.uses_code h).bind fun _ => uses_pure _
  | input l target =>
    cases target with
    | scalar x =>
      rw [Stmt.code, Stmt.labels, Target.labels]
      exact (Storage.uses_scalarAddress (h x List.mem_cons_self)).bind fun _ => uses_pure _
    | element x index =>
      rw [Stmt.variables, Target.variables, List.forall_mem_cons] at h
      rw [Stmt.code, Stmt.labels, Target.labels]
      exact (Expr.uses_code h.2).bind fun _ => (Storage.uses_elementAddress h.1 _).bind fun _ =>
        uses_pure _
  | ret l value =>
    rw [Stmt.code, Stmt.labels]
    exact (Expr.uses_code h).bind fun _ => (Storage.uses_epilogue hsize).bind fun _ => uses_pure _
  | call l f args =>
    rw [Stmt.code, Stmt.labels]
    exact (Expr.uses_codes h).bind fun _ => uses_pure _

end

namespace Procedure

variable {p : Procedure} {f : Frame}

/-- The parameters alone fit into the largest frame, one word each. -/
theorem HasFrame.params_le (hf : p.HasFrame f) (hnodup : (p.params.map Param.name).Nodup) :
    wordSize * (p.params.length : Int) ≤ maxFrameSize := by
  obtain ⟨g, hg, -⟩ := hf
  rw [unfinishedFrame, except_bind_eq_ok] at hg
  obtain ⟨g', hargs, -⟩ := hg
  rw [← Frame.ofLayout_nil, Frame.insertArgs_ofLayout Layout.Valid.nil] at hargs
  rw [Layout.requestAll_of_nodup (by simpa [Layout.names, Function.comp_def] using hnodup)] at hargs
  have hwords : Layout.words ((p.params.map Param.name).map (·, 1)) = p.params.length := by
    simp [Layout.words, Function.comp_def]
  rw [← hwords]
  exact hargs.1

/-- What is reserved below the arguments of a caller is computed without overflow. -/
theorem HasFrame.exists_reserve (hf : p.HasFrame f) (hnodup : (p.params.map Param.name).Nodup) :
    ∃ n, f.reserve = .ok n := by
  obtain ⟨size, hsize, hnonneg⟩ := hf.frameOf.size
  have hargs := hf.params_le hnodup
  have hfit := (Word.checked_eq_ok_iff.1 hsize).1
  rw [(Word.checked_eq_ok_iff.1 hsize).2, Word.fits_iff] at hfit
  rw [maxFrameSize_eq, wordSize] at hargs
  have hmul : Word.Fits ((p.params.length : Int) * wordSize) :=
    Word.fits_iff.2 (by unfold wordSize; omega)
  have hsub : Word.Fits (size - (p.params.length : Int) * wordSize) :=
    Word.fits_iff.2 (by unfold wordSize; omega)
  refine ⟨size - p.params.length * wordSize, ?_⟩
  rw [Frame.reserve, hsize, hf.frameOf.argCount]
  simp only [bind, Except.bind, Word.mul, Word.sub, Word.checked_of_fits hmul,
    Word.checked_of_fits hsub]

theorem uses_code {t : Tables} (hlookup : t.frame? p.name = some f)
    (hstored : ∀ x ∈ p.body.variables, t.isGlobal x = true ∨ ∃ n, f.offset? x = some n)
    (hsize : ∃ n, f.size = .ok n) (hreserve : ∃ n, f.reserve = .ok n) :
    Uses (p.code t) p.body.labels := by
  have hbody : Uses (p.bodyCode ⟨t, p.name, f⟩) (0 + (p.body.labels + 0)) :=
    (uses_word hreserve).bind fun _ => (Stmt.uses_code hsize hstored).bind fun _ =>
      Storage.uses_epilogue hsize |>.bind fun _ => uses_pure _
  rw [Nat.zero_add, Nat.add_zero] at hbody
  rw [code, hlookup]
  exact hbody.bind fun _ => uses_pure _

end Procedure

namespace Program

theorem uses_proceduresCode {t : Tables} {ps : List Procedure}
    (h : ∀ q ∈ ps, Uses (q.code t) q.body.labels) :
    Uses (proceduresCode t ps) (ps.map fun q => q.body.labels).sum := by
  induction ps with
  | nil => exact uses_pure _
  | cons q ps ih =>
    rw [List.forall_mem_cons] at h
    exact h.1.bind fun _ => (ih h.2).bind fun _ => uses_pure _

/-- Where each variable of a procedure is stored, and the sizes that its code needs. -/
theorem frame_of_analyze {p : Program} {t : Tables} (h : analyze p = .ok t) {q : Procedure}
    (hq : q ∈ p.procedures) :
    ∃ f, t.frame? q.name = some f ∧
      (∀ x ∈ q.body.variables, t.isGlobal x = true ∨ ∃ n, f.offset? x = some n) ∧
      (∃ n, f.size = .ok n) ∧ ∃ n, f.reserve = .ok n := by
  obtain ⟨f, hf, hlookup⟩ := exists_frame_of_analyze h hq
  obtain ⟨before, rest, hsplit⟩ := List.append_of_mem hq
  have hwf := (analyze_eq_ok_iff_hasFrame.1 h).1.bodies before q rest hsplit
  obtain ⟨n, hn, -⟩ := hf.frameOf.size
  refine ⟨f, hlookup, fun x hx => ?_, ⟨n, hn⟩, hf.exists_reserve (Param.AllFresh.nodup hwf.params)⟩
  rw [isGlobal_of_analyze h]
  exact hwf.stored hf.frameOf x hx

theorem exists_code_of_analyze {p : Program} {t : Tables} (h : analyze p = .ok t)
    (hlabels : p.labels < labelLimit) : ∃ code, p.code t = .ok code := by
  have hall : Uses (proceduresCode t p.procedures) p.labels := by
    refine uses_proceduresCode fun q hq => ?_
    obtain ⟨f, hlookup, hstored, hsize, hreserve⟩ := frame_of_analyze h hq
    exact q.uses_code hlookup hstored hsize hreserve
  obtain ⟨procedures, hcode⟩ := hall 0 (by rwa [Nat.zero_add])
  refine ⟨dataCode t ++ procedures, ?_⟩
  rw [code, hcode]

/-- Code is generated for every program that analysis accepts, with labels for 32 bits: every
variable has an address, no instruction is asked for that does not exist, and no size overflows. -/
theorem code_succeeds_of_analyze {p : Program} {t : Tables} (h : analyze p = .ok t)
    (hlabels : p.labels < labelLimit) :
    (∃ code, p.code t = .ok code) ∧ ∀ q ∈ p.procedures, ∃ f, t.frame? q.name = some f ∧
      (∀ x ∈ q.body.variables, t.isGlobal x = true ∨ ∃ n, f.offset? x = some n) ∧
      (∃ n, f.size = .ok n) ∧ ∃ n, f.reserve = .ok n :=
  ⟨exists_code_of_analyze h hlabels, fun _ hq => frame_of_analyze h hq⟩

/-- A loop with both short circuits, over a local array without elements. -/
def guardedLoop : Program where
  globals := [⟨1, "n", .single⟩]
  procedures := [⟨2, "main", [], .block 2 [
    .declare 3 "none" (.array 0),
    .loop 4 (.binary 4 .and (.not 4 (.binary 4 .less (.scalar 4 "n") (.int 4 3)))
        (.binary 4 .or (.bool 4 true) (.binary 4 .equal (.element 4 "none" (.int 4 0)) (.int 4 1))))
      (.assign 5 (.scalar "n") (.binary 5 .sub (.scalar 5 "n") (.int 5 1)))]⟩]

theorem guardedLoop_code_succeeds : ∃ t, analyze guardedLoop = .ok t ∧
    guardedLoop.labels = 7 ∧ ∃ code, guardedLoop.code t = .ok code := by
  obtain ⟨t, ht⟩ : ∃ t, analyze guardedLoop = .ok t := except_exists_ok_iff.2 (by decide +kernel)
  have hlabels : guardedLoop.labels = 7 := rfl
  exact ⟨t, ht, hlabels, (code_succeeds_of_analyze ht (by rw [hlabels]; decide)).1⟩

end Program

end ProcMips
