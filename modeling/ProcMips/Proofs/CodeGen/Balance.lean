import ProcMips.Proofs.CodeGen.Levels
import ProcMips.Proofs.CodeGen.Pieces
import ProcMips.Proofs.CodeGen.Preservation

/-! The stack in the code of a procedure. On all paths from the label of the procedure to a place, over
calls, branches and returns in the middle of the body, the stack is equally deep; expressions leave one
word, statements nothing, and a return gives back everything but the result. -/

namespace ProcMips

open Mips

/-- What the procedure with this label releases: the words of its arguments but for the one with its
result. -/
def Program.released (p : Program) (l : String) : Int :=
  match p.procedures.find? (fun q => procLabel q.name = l) with
  | some q => wordSize * q.params.length - wordSize
  | none => 0

namespace Procedure

/-- The code in front of the body, with a frame of `size` bytes. -/
def prologue (q : Procedure) (size : Int) : List Instr :=
  .label (procLabel q.name) :: prologueCode (size - wordSize * q.params.length)

/-- How deep the stack is in front of the statements of the body. -/
def bodyDepth (q : Procedure) (size : Int) : Int := size - wordSize * q.params.length + saveArea

end Procedure

/-- The code of `g` stands in `k`, and wherever it stands the stack is deeper by `grown` behind it. -/
structure Deepens (g : Gen (List Instr)) (k : List Instr) (depth : Nat → Int) (grown : Int) :
    Prop where
  stands : StandsIn g k
  grows : ∀ n m c j, g n = .ok (c, m) → c <+: k.drop j → depth (j + c.length) = depth j + grown

/-- The instruction at `j` is inside an epilogue, behind its start. -/
def Storage.Unwinds (s : Storage) (k : List Instr) (j : Nat) : Prop :=
  ∃ n m c i, s.epilogue n = .ok (c, m) ∧ c <+: k.drop i ∧ i < j ∧ j < i + c.length

/-- The code `k` of a procedure with a frame of `size` bytes stands at `start`, and `depth` is how deep
the stack is in front of each of its instructions. -/
structure Procedure.Balanced (q : Procedure) (p : Program) (s : Storage) (size : Int)
    (code : List Instr) (start : Nat) (k : List Instr) (depth : Nat → Int) : Prop where
  paths : ∀ pc v, Path code p.released start pc v →
    ∃ j < k.length, pc = start + j ∧ v.depth = some (depth j)
  released : p.released (procLabel q.name) = wordSize * q.params.length - wordSize
  prologue : q.prologue size <+: k ∧ depth (q.prologue size).length = q.bodyDepth size
  statements : ∀ bs t, Stmt.Contains (q.blocks p) q.body bs t → Deepens (t.code s) k depth 0
  expressions : ∀ bs t, Stmt.Contains (q.blocks p) q.body bs t → ∀ e ∈ t.operands,
    ∀ e' : Expr, e'.Within e → Deepens (e'.code s) k depth wordSize
  floor : ∀ j < k.length, (q.prologue size).length ≤ j → q.bodyDepth size ≤ depth j ∨ s.Unwinds k j
  epilogues : ∀ n m c j, s.epilogue n = .ok (c, m) → c <+: k.drop j → depth j = q.bodyDepth size
  returns : ∀ j r, k[j]? = some (.jr r) → depth j = wordSize - wordSize * q.params.length

/-- The stack pointer in a run through the procedure, from its label on and up to a call. -/
theorem Procedure.Balanced.sp_of_run {q : Procedure} {p : Program} {s : Storage} {size : Int}
    {code k : List Instr} {start : Nat} {depth : Nat → Int} {inputs : List Int} {c : Core}
    {m : Machine Core} (h : q.Balanced p s size code start k depth)
    (hrun : Relation.ReflTransGen (Machine.StepsInside code inputs) ⟨start, c⟩ m) :
    ∃ j < k.length, m.pc = start + j ∧ m.core.regs .sp = c.regs .sp - depth j := by
  obtain ⟨v, hpath, hv⟩ := @Path.exists_of_run _ _ p.released _ _ _ hrun
  obtain ⟨j, hj, hpc, hdepth⟩ := h.paths _ v hpath
  exact ⟨j, hj, hpc, hv.depth _ hdepth⟩

theorem Deepens.of_standsIn {x : Sizes} {g : Gen (List Instr)} {k : List Instr} {grown : Int}
    (h : StandsIn g k) (hg : ∀ n m c, g n = .ok (c, m) → x.growthOf c = grown) :
    Deepens g k (x.depthIn k) grown where
  stands := h
  grows n m c j hc hat := by rw [x.depthIn_add hat, hg n m c hc]

namespace Program

variable {p : Program} {t : Tables} {code : List Instr} {q : Procedure}

theorem released_procLabel (hnames : (p.procedures.map Procedure.name).Nodup)
    (hq : q ∈ p.procedures) :
    p.released (procLabel q.name) = wordSize * q.params.length - wordSize := by
  cases hfind : p.procedures.find? (fun q' => procLabel q'.name = procLabel q.name) with
  | none =>
    have := List.find?_eq_none.1 hfind q hq
    simp at this
  | some q' =>
    have hname : q'.name = q.name := procLabel_injective (by simpa using List.find?_some hfind)
    obtain rfl := List.inj_on_of_nodup_map hnames (List.mem_of_find?_eq_some hfind) hq hname
    rw [released, hfind]

end Program

/-- What is moved in the code of a procedure of `p`. -/
def Procedure.sizes (q : Procedure) (p : Program) (size : Int) : Sizes :=
  ⟨size, size - wordSize * q.params.length, p.released⟩

namespace Procedure

variable {p : Program} {q : Procedure} {s : Storage} {size : Int} {callable : List Procedure}
  {v : Visible} {n m : Nat} {k : List Instr}

/-- The code of a procedure is level between its prologue and its last epilogue. -/
theorem exists_encloses (hsize : s.frame.size = .ok size) (hargs : s.frame.argCount = q.params.length)
    (hcall : ∀ q ∈ callable,
      p.released (procLabel q.name) = wordSize * q.params.length - wordSize)
    (hq : q.WellFormed v callable) (hk : q.bodyCode s n = .ok (k, m)) (hu : (labelsOf k).Nodup) :
    ∃ kb i j, q.body.code s i = .ok (kb, j) ∧
      (q.sizes p size).Encloses (procLabel q.name) (kb ++ [.li .t0 0]) k := by
  obtain ⟨reserve, kb, ke, hreserve, hkb, hke, rfl⟩ := bodyCode_eq_ok hk
  have hle := Int.le_refl (q.sizes p size).base
  have hlevel : Levelled (q.sizes p size) (q.sizes p size).base (q.sizes p size).base kb
      (q.sizes p size).base := Stmt.staysLevel hsize hcall hq.body hkb
  refine ⟨kb, _, _, hkb, ?_, hlevel.append (levelled_still hle (by simp [Instr.still])), hu⟩
  rw [Frame.reserve_eq_ok hsize hreserve, hargs, Storage.epilogue_eq_ok hsize hke]
  simp [Sizes.prologue, Sizes.epilogue, Sizes.unwind, sizes]

theorem deepens_statement (hsize : s.frame.size = .ok size)
    (hcall : ∀ q ∈ callable,
      p.released (procLabel q.name) = wordSize * q.params.length - wordSize)
    {t : Stmt} (ht : t.WellFormed callable v) (hstands : StandsIn (t.code s) k) :
    Deepens (t.code s) k ((q.sizes p size).depthIn k) 0 := by
  refine .of_standsIn hstands fun n m c hc => ?_
  have hlevel : Levelled (q.sizes p size) _ _ c _ := Stmt.staysLevel hsize hcall ht hc
  have := hlevel.end_eq
  omega

theorem deepens_expression
    (hcall : ∀ q ∈ callable,
      p.released (procLabel q.name) = wordSize * q.params.length - wordSize)
    {e : Expr} {ty : Ty} (he : e.HasType v callable ty) (hstands : StandsIn (e.code s) k) :
    Deepens (e.code s) k ((q.sizes p size).depthIn k) wordSize := by
  refine .of_standsIn hstands fun n m c hc => ?_
  have hpushes : e.PushesWord (q.sizes p size) s := Expr.pushesWord hcall he
  have := (hpushes (Int.le_refl _) hc).end_eq
  omega

theorem balanced (hsize : s.frame.size = .ok size) (hargs : s.frame.argCount = q.params.length)
    (hcall : ∀ q ∈ callable,
      p.released (procLabel q.name) = wordSize * q.params.length - wordSize)
    (hmem : q ∈ callable)
    (hq : q.WellFormed v callable) (hk : q.bodyCode s n = .ok (k, m)) {code : List Instr}
    {start : Nat} (hu : (labelsOf code).Nodup) (hat : CodeAt code start k) :
    q.Balanced p s size code start k ((q.sizes p size).depthIn k) := by
  have hlabels : (labelsOf k).Nodup :=
    hu.sublist ((hat.isPrefix.sublist.trans (List.drop_sublist _ _)).filterMap _)
  obtain ⟨kb, i, j, hkb, hx⟩ := exists_encloses hsize hargs hcall hq hk hlabels
  have hprologue : (q.sizes p size).prologue (procLabel q.name) = q.prologue size := rfl
  have hepilogue {n m : Nat} {c : List Instr} (hc : s.epilogue n = .ok (c, m)) :
      c = (q.sizes p size).epilogue := Storage.epilogue_eq_ok hsize hc
  have hbody : kb <:+: k := by
    rw [hx.code, List.append_assoc, List.append_assoc]
    exact ⟨_, _, List.append_assoc _ _ _⟩
  constructor
  case paths =>
    intro pc v hpath
    obtain ⟨j, i, hi, hpc, hdepth, -⟩ := hx.consistent.path hu hat hpath
    exact ⟨j, (List.getElem?_eq_some_iff.1 hi).1, hpc, hdepth⟩
  case released => exact hcall q hmem
  case prologue =>
    have hstart : q.prologue size <+: k := by
      rw [hx.code, List.append_assoc, hprologue]
      exact List.prefix_append _ _
    refine ⟨hstart, ?_⟩
    have hdepth := (q.sizes p size).depthIn_add (j := 0) (k := k) (c := q.prologue size) hstart
    rwa [← hprologue, Sizes.growthOf_prologue, hprologue, Nat.zero_add, Sizes.depthIn_zero,
      Int.zero_add] at hdepth
  case statements =>
    intro bs t ht
    obtain ⟨v', ht'⟩ := ht.exists_wellFormed hq.body
    exact deepens_statement hsize hcall ht' ((ht.standsIn hkb).trans hbody)
  case expressions =>
    intro bs t ht e he e' he'
    obtain ⟨v', ht'⟩ := ht.exists_wellFormed hq.body
    obtain ⟨ty, hty⟩ := ht'.operand he
    obtain ⟨ty', hty'⟩ := hty.within he'
    obtain ⟨_, _, kt, hkt, ht⟩ := ht.standsIn hkb
    obtain ⟨_, _, ke, hke, he⟩ := Stmt.standsIn_operand he hkt
    exact deepens_expression hcall hty' ((he'.standsIn hke).trans (he.trans (ht.trans hbody)))
  case floor =>
    intro j hj hle
    have hgen : s.epilogue 0 = .ok ((q.sizes p size).epilogue, 0) := by
      rw [Storage.epilogue, gen_bind_eq_ok]
      exact ⟨size, 0, by simp [Gen.word, hsize], rfl⟩
    rcases hx.floor (List.getElem?_eq_getElem hj) hle with h | ⟨a, ha, haj, hja⟩
    · exact .inl h
    · exact .inr ⟨0, 0, _, a, hgen, ha, haj, hja⟩
  case epilogues =>
    intro n m c j hc hj
    obtain rfl := hepilogue hc
    exact hx.depth_at_epilogue hj
  case returns =>
    intro j r hj
    rw [hx.depth_at_return hj]
    simp only [sizes]
    omega

end Procedure

namespace Program

/-- The stack is balanced in all procedures of a program that analysis accepts. -/
theorem stack_balanced_of_analyze {p : Program} {t : Tables} {code : List Instr}
    (h : analyze p = .ok t) (hcode : p.code t = .ok code) {q : Procedure} (hq : q ∈ p.procedures) :
    ∃ f size start n m k depth, t.frame? q.name = some f ∧ f.size = .ok size ∧
      resolve code (procLabel q.name) = some start ∧
      q.bodyCode ⟨t, q.name, f⟩ n = .ok (k, m) ∧ CodeAt code start k ∧
      q.Balanced p ⟨t, q.name, f⟩ size code start k depth := by
  obtain ⟨f, hf, hlookup⟩ := exists_frame_of_analyze h hq
  obtain ⟨size, hsize, -⟩ := hf.frameOf.size
  obtain ⟨start, k, n, m, hk, hat, -⟩ := exists_codeAt_body hcode hq hlookup
  have hu := nodup_labelsOf_code_of_analyze h hcode
  have hscoped := (analyze_eq_ok_iff_hasFrame.1 h).1
  obtain ⟨before, rest, hsplit⟩ := List.append_of_mem hq
  have hcall : ∀ q' ∈ before ++ [q],
      p.released (procLabel q'.name) = wordSize * q'.params.length - wordSize := by
    intro q' hq'
    apply released_procLabel hscoped.procedures
    rw [List.mem_append, List.mem_singleton] at hq'
    rw [hsplit, List.mem_append, List.mem_cons]
    exact hq'.imp_right .inl
  exact ⟨f, _, start, n, m, k, _, hlookup, hsize, resolve_procLabel hu hk hat, hk, hat,
    Procedure.balanced hsize hf.frameOf.argCount hcall (by simp) (hscoped.bodies before q rest hsplit)
      hk hu hat⟩

/-- The factorial calls itself in the middle of an expression, and returns at two places with its one
argument gone. -/
theorem factorials_balanced : ∃ t code f size start n m k depth, analyze factorials = .ok t ∧
    factorials.code t = .ok code ∧ f.size = .ok size ∧
    (factorials.procedures.head (by simp [factorials])).bodyCode ⟨t, "fact", f⟩ n = .ok (k, m) ∧
    (∀ pc v, Path code factorials.released start pc v →
      ∃ j < k.length, pc = start + j ∧ v.depth = some (depth j)) ∧
    Deepens ((Expr.call 5 "fact" [.binary 5 .sub (.scalar 5 "n") (.int 5 1)]).code ⟨t, "fact", f⟩)
      k depth 4 ∧
    ∀ j r, k[j]? = some (.jr r) → depth j = 0 := by
  obtain ⟨t, ht⟩ : ∃ t, analyze factorials = .ok t := except_exists_ok_iff.2 (by decide +kernel)
  obtain ⟨code, hcode⟩ := exists_code_of_analyze ht (by decide +kernel)
  obtain ⟨f, size, start, n, m, k, depth, -, hsize, -, hk, -, hbalanced⟩ :=
    stack_balanced_of_analyze ht hcode List.mem_cons_self
  refine ⟨t, code, f, size, start, n, m, k, depth, ht, hcode, hsize, hk, hbalanced.paths, ?_,
    hbalanced.returns⟩
  have hreturn := hbalanced.expressions _ _ (@Stmt.Contains.block _ _ 2 [_, _] [] _ _ (.here _ _))
  exact hreturn _ List.mem_cons_self _ (.right .here)

end Program

end ProcMips
