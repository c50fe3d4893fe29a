import ProcMips.Proofs.Analysis.WellFormed
import ProcMips.Proofs.CodeGen.Activations

/-! The code of a statement does what the statement does. It ends behind itself with the variables of
the procedure in the frame, or it returns from the procedure. -/

namespace ProcMips

open Mips

theorem unlines_concat (ls : List String) (l : String) :
    unlines (ls ++ [l]) = unlines ls ++ l ++ "\n" := by
  simp [unlines, String.join_append, String.append_assoc]

variable {code : List Instr} {inputs : List Int} {t : Tables} {p q : Nat} {c c₁ c₂ : Core}
  {ns : List Int} {w w' : World}

namespace Leaves

/-- Behind code that changes the console and registers that no one relies on. -/
theorem console {q' : Nat} (h : Leaves code inputs t p q c ns w c₁)
    (hr : Machine.Reaches code inputs ⟨q, c₁⟩ ⟨q', c₂⟩) (hsp : c₂.regs .sp = c₁.regs .sp)
    (hfp : c₂.regs .fp = c₁.regs .fp) (hmem : c₂.mem = c₁.mem) (hglobals : w'.globals = w.globals)
    (hreads : c₂.reads = w'.reads) (hprinted : c₂.printed = unlines (w'.output.map toString)) :
    Leaves code inputs t p q' c ns w' c₂ := by
  refine ⟨h.reaches.trans hr, ⟨hsp.trans h.pushes.sp, hfp.trans h.pushes.fp, ?_, ?_⟩, ?_, ?_⟩
  · rw [hmem]
    exact h.pushes.held
  · rw [hmem]
    exact h.pushes.above
  · rw [hsp]
    exact h.aligned
  · refine ⟨?_, hreads, hprinted⟩
    rw [hglobals, hmem]
    exact h.world.globals

theorem print {n : Int} (h : Leaves code inputs t p q c ns w c₁) (hat : CodeAt code q printInt)
    (hn : c₁.regs .a0 = n) :
    ∃ c₂, Leaves code inputs t p (q + 5) c ns { w with output := w.output ++ [n] } c₂ := by
  let c₂ := ((((c₁.set .v0 1).print (toString n)).set .v0 11).set .a0 10).print "\n"
  have heffects : (Core.processor code inputs).effects printInt c₁ = some c₂ := by
    have hline : String.singleton (Char.ofNat 10) = "\n" := by decide
    simp [printInt, Processor.effects, Processor.effect, Core.processor, Core.syscall, hn, c₂, hline]
  refine ⟨c₂, h.console (reaches_of_effects hat heffects) (by simp [c₂]) (by simp [c₂]) rfl rfl
    h.world.reads ?_⟩
  rw [List.map_append, List.map_singleton, unlines_concat, ← h.world.printed]
  rfl

theorem read {n : Int} (h : Leaves code inputs t p q c ns w c₁) (hat : CodeAt code q readInt)
    (hn : inputs[w.reads]? = some n) :
    ∃ c₂, Leaves code inputs t p (q + 2) c ns { w with reads := w.reads + 1 } c₂ ∧
      c₂.regs .v0 = n := by
  let c₂ : Core := { (c₁.set .v0 5).set .v0 n with reads := c₁.reads + 1 }
  have heffects : (Core.processor code inputs).effects readInt c₁ = some c₂ := by
    simp [readInt, Processor.effects, Processor.effect, Core.processor, Core.syscall, h.world.reads, hn, c₂]
  refine ⟨c₂, h.console (reaches_of_effects hat heffects) ?_ ?_ rfl rfl ?_ h.world.printed, ?_⟩
  · simp [c₂, Core.set]
  · simp [c₂, Core.set]
  · simp [c₂, h.world.reads]
  · simp [c₂, Core.set]

end Leaves

variable {a : Activation} {σ σ' : RunState} {call : String → List Int → Eval Int} {fuel : Nat}

/-- The word in a register is stored where the variable is. -/
theorem Running.store (inputs : List Int) {x : String} (index : Option Int) {n : Int} {r : Register} {address : Address}
    (h : Running code a σ c) (hat : CodeAt code p [.sw r address])
    (hplace : address.place c = a.storage.cell a.base x (index.getD 0)) (hn : c.regs r = n)
    (ha : Exec.assign x index n σ = some ((), σ')) :
    ∃ c', Machine.Reaches code inputs ⟨p, c⟩ ⟨p + 1, c'⟩ ∧ Running code a σ' c' := by
  obtain ⟨haccess, hrunning⟩ := h.assign ha
  exact ⟨_, .of_step (step_of_effect hat.1 (effect_sw hplace haccess hn)), hrunning⟩

/-- The index is in `$t0`, and the register of the value is none of those that the address is computed
in. -/
theorem Running.store_element (inputs : List Int) {x : String} {i v : Int} {r : Register}
    {scale : List Instr} {address : Address} {n m : Nat} (h : Running code a σ c)
    (haddress : a.storage.elementAddress x .t2 n = .ok ((scale, address), m))
    (hatc : CodeAt code p scale) (hats : CodeAt code (p + scale.length) [.sw r address])
    (hi : c.regs .t0 = i) (hv : c.regs r = v) (hne : r ∉ [.t0, .t4, .t2])
    (ha : Exec.assign x (some i) v σ = some ((), σ')) :
    ∃ c', Machine.Reaches code inputs ⟨p, c⟩ ⟨p + scale.length + 1, c'⟩ ∧ Running code a σ' c' := by
  obtain ⟨c₁, heffects, hplace, hsame⟩ :=
    effects_elementAddress code inputs (.inr rfl) h.ready.fp haddress
  rw [hi] at hplace
  have hcomputed := (Leaves.refl h.ready.world h.ready.aligned).steps
    (reaches_of_effects hatc heffects) hsame (by simp) (by simp)
  obtain ⟨c₂, hstore, hr₂⟩ := (h.after hcomputed).store inputs (some i) hats hplace
    ((hsame.regs _ hne).trans hv) ha
  exact ⟨c₂, hcomputed.reaches.trans hstore, hr₂⟩

/-- Names that are forgotten leave nothing behind. -/
theorem Running.forget {locals : Env} (h : Running code a σ c)
    (hlocals : ∀ x v, locals x = some v → σ.locals x = some v) :
    Running code a { σ with locals } c := by
  obtain ⟨⟨hbase, haligned, hbelow, hreg, hstored, hworld⟩, hsp, hra, hfp, habove⟩ := h
  exact ⟨⟨hbase, haligned, hbelow, hreg, fun x v hx => hstored x v (hlocals x v hx), hworld⟩, hsp, hra,
    hfp, habove⟩

/-- The names that are declared are not global, and their slots are large enough. -/
def Storage.HasRoom (s : Storage) (rs : Requests) : Prop :=
  ∀ r ∈ rs, s.tables.isGlobal r.1 = false ∧
    ∃ slot, s.frame.slot? r.1 = some slot ∧ 4 * (r.2 : Int) ≤ slot.size

/-- A variable that is declared has no values yet, so whatever its slot contains is right. -/
theorem Running.declare {x : String} {shape : Shape} (h : Running code a σ c)
    (hroom : a.storage.HasRoom [(x, shape.words)]) :
    Running code a { σ with locals := Function.update σ.locals x (some (.ofShape none shape)) } c := by
  obtain ⟨⟨hbase, haligned, hbelow, hreg, hstored, hworld⟩, hsp, hra, hfp, habove⟩ := h
  refine ⟨⟨hbase, haligned, hbelow, hreg, fun y v hy => ?_, hworld⟩, hsp, hra, hfp, habove⟩
  dsimp only at hy
  rw [Function.update_apply] at hy
  split_ifs at hy with hyx
  · subst hyx
    cases hy
    obtain ⟨hlocal, slot, hslot, hsize⟩ := hroom (y, shape.words) (by simp)
    refine ⟨hlocal, slot, hslot, by rwa [Var.cells_ofShape, List.length_replicate], fun i n hi => ?_⟩
    rw [Var.cells_ofShape, List.getElem?_replicate] at hi
    split_ifs at hi
    cases hi
  · exact hstored y v hy

theorem Running.finishes {q' : Nat} (h : Running code a σ c₁)
    (hr : Machine.Reaches code inputs ⟨p, c⟩ ⟨q, c₁⟩) (hq : q' = q) :
    Finishes code inputs a p q' c none σ := hq ▸ ⟨c₁, hr, h⟩

namespace Finishes

variable {ret : Option Int}

theorem of_reaches {p' : Nat} (h : Machine.Reaches code inputs ⟨p, c⟩ ⟨p', c₁⟩)
    (h' : Finishes code inputs a p' q c₁ ret σ) : Finishes code inputs a p q c ret σ := by
  cases ret with
  | none =>
    obtain ⟨c', hreach, hrunning⟩ := h'
    exact ⟨c', h.trans hreach, hrunning⟩
  | some r =>
    obtain ⟨c', hreach, hreturned⟩ := h'
    exact ⟨c', h.trans hreach, hreturned⟩

theorem goto {q' : Nat} (h : Finishes code inputs a p q c ret σ)
    (hq : ∀ c, Machine.Reaches code inputs ⟨q, c⟩ ⟨q', c⟩) : Finishes code inputs a p q' c ret σ := by
  cases ret with
  | none =>
    obtain ⟨c', hreach, hrunning⟩ := h
    exact ⟨c', hreach.trans (hq c'), hrunning⟩
  | some r => exact h

theorem ends {q' : Nat} (h : Finishes code inputs a p q c ret σ) (hq : q' = q) :
    Finishes code inputs a p q' c ret σ := hq ▸ h

/-- At the end of a scope the names that it declared are forgotten. -/
theorem forget {locals : Env} (h : Finishes code inputs a p q c ret σ)
    (hlocals : ∀ x v, locals x = some v → σ.locals x = some v) :
    Finishes code inputs a p q c ret { σ with locals } := by
  cases ret with
  | none =>
    obtain ⟨c', hreach, hrunning⟩ := h
    exact ⟨c', hreach, hrunning.forget hlocals⟩
  | some r => exact h

end Finishes

theorem Exec.finishes_inScope {x : Exec (Option Int)} {ret : Option Int}
    (hx : Exec.inScope x σ = some (ret, σ'))
    (h : ∀ σ₁, x σ = some (ret, σ₁) → Finishes code inputs a p q c ret σ₁) :
    Finishes code inputs a p q c ret σ' := by
  obtain ⟨σ₁, hbody, rfl⟩ := Exec.inScope_eq_some.1 hx
  refine (h σ₁ hbody).forget fun y v hy => ?_
  split_ifs at hy
  exact hy

/-- Wherever the code of `t` stands, it ends as `t` does. -/
def Stmt.Followed (code : List Instr) (inputs : List Int) (a : Activation)
    (call : String → List Int → Eval Int) (fuel : Nat) (t : Stmt) : Prop :=
  ∀ ⦃n m p : Nat⦄ ⦃k : List Instr⦄ ⦃σ σ' : RunState⦄ ⦃ret : Option Int⦄ ⦃c : Core⦄,
    t.exec call inputs fuel σ = some (ret, σ') → t.code a.storage n = .ok (k, m) →
    CodeAt code p k → a.storage.HasRoom t.declared → Running code a σ c →
    Finishes code inputs a p (p + k.length) c ret σ'

theorem Stmt.followed_declare (l : Line) (x : String) (shape : Shape) :
    (Stmt.declare l x shape).Followed code inputs a call fuel := by
  intro n m p k σ σ' ret c h hk hat hroom hr
  simp only [Stmt.exec, Exec.declare, run_bind_eq_some, run_pure_eq_some] at h
  obtain ⟨_, _, ⟨⟩, rfl, rfl⟩ := h
  obtain ⟨rfl, -⟩ := Stmt.code_declare_eq_ok.1 hk
  exact (hr.declare hroom).finishes .refl rfl

theorem Stmt.finishes_codes_of {ss : List Stmt}
    (h : ∀ t ∈ ss, t.Followed code inputs a call fuel) {ret : Option Int} {n m : Nat}
    {k : List Instr} (hs : Stmt.execAll call inputs fuel ss σ = some (ret, σ'))
    (hk : Stmt.codes a.storage ss n = .ok (k, m)) (hat : CodeAt code p k)
    (hroom : a.storage.HasRoom (Stmt.declaredAll ss)) (hr : Running code a σ c) :
    Finishes code inputs a p (p + k.length) c ret σ' := by
  induction ss generalizing n k p c σ with
  | nil =>
    obtain ⟨rfl, rfl⟩ := run_pure_eq_some.1 hs
    obtain ⟨rfl, -⟩ := Stmt.codes_nil_eq_ok.1 hk
    exact hr.finishes .refl rfl
  | cons t ss ih =>
    rw [List.forall_mem_cons] at h
    simp only [Stmt.execAll, run_bind_eq_some] at hs
    obtain ⟨r, σ₁, ht, hs⟩ := hs
    obtain ⟨k₁, _, hk₁, k₂, _, hk₂, rfl, rfl⟩ := Stmt.codes_cons_eq_ok.1 hk
    obtain ⟨hat₁, hat₂⟩ := codeAt_append.1 hat
    have hroomt : a.storage.HasRoom t.declared := fun r hr => hroom r (List.mem_append_left _ hr)
    have hrooms : a.storage.HasRoom (Stmt.declaredAll ss) :=
      fun r hr => hroom r (List.mem_append_right _ hr)
    have hfirst := h.1 ht hk₁ hat₁ hroomt hr
    cases r with
    | some r =>
      obtain ⟨rfl, rfl⟩ := run_pure_eq_some.1 hs
      exact hfirst
    | none =>
      obtain ⟨c₁, hreach, hr₁⟩ := hfirst
      refine .of_reaches hreach ((ih h.2 hs hk₂ hat₂ hrooms hr₁).ends ?_)
      rw [List.length_append, Nat.add_assoc]

theorem Stmt.followed_block (l : Line) {body : List Stmt}
    (h : ∀ t ∈ body, t.Followed code inputs a call fuel) :
    (Stmt.block l body).Followed code inputs a call fuel := by
  intro n m p k σ σ' ret c hs hk hat hroom hr
  rw [Stmt.exec] at hs
  rw [Stmt.code_block_eq_ok] at hk
  exact Exec.finishes_inScope hs fun σ₁ h₁ => Stmt.finishes_codes_of h h₁ hk hat hroom hr

section

variable (hu : (labelsOf code).Nodup) (hcall : CallsReturn code inputs a.storage.tables call)

include hu hcall

/-- A condition leaves nothing on the stack, and jumps if it is false. -/
theorem Expr.reaches_branchCode {e : Expr} {b : Bool} {l : String} {n m target : Nat}
    {k : List Instr} (he : e.execBool call σ = some (b, σ')) (hk : e.branchCode a.storage l n = .ok (k, m))
    (hat : CodeAt code p k) (hl : resolve code l = some target) (hr : Running code a σ c) :
    ∃ c', Machine.Reaches code inputs ⟨p, c⟩ ⟨if b then p + k.length else target, c'⟩ ∧
      Running code a σ' c' := by
  obtain ⟨w, heval, rfl⟩ := Expr.execBool_eq_some he
  obtain ⟨ke, _, hke, rfl, rfl⟩ := Expr.branchCode_eq_ok.1 hk
  simp only [codeAt_append, List.length_append, length_popReg, ← Nat.add_assoc] at hat
  obtain ⟨⟨hate, hatp⟩, hatb, -⟩ := hat
  obtain ⟨c₁, h₁⟩ := Expr.pushed a.laid hu hcall _ heval hke hate hr.ready
  obtain ⟨h₂, htest⟩ := h₁.pop_one hatp (by simp) (by simp)
  refine ⟨c₁.pop .s0, h₂.reaches.trans ?_, hr.after h₂⟩
  have hbranch : Machine.Reaches code inputs ⟨_, c₁.pop .s0⟩ _ := reaches_branch (d := false) hatb hl
  rw [isTrue_of_truthWord htest] at hbranch
  cases b with
  | false => exact hbranch
  | true => simpa [← Nat.add_assoc] using hbranch

theorem Stmt.followed_assign (l : Line) (target : Target) (value : Expr) :
    (Stmt.assign l target value).Followed code inputs a call fuel := by
  intro n m p k σ σ' ret c h hk hat _ hr
  cases target with
  | scalar x =>
    simp only [Stmt.exec, Target.exec, run_bind_eq_some, run_pure_eq_some] at h
    obtain ⟨_, _, ⟨rfl, rfl⟩, i, σ₁, hv, ⟨⟩, σ₂, ha, rfl, rfl⟩ := h
    obtain ⟨w, heval, rfl⟩ := Expr.execInt_eq_some hv
    obtain ⟨kv, _, hkv, address, _, haddress, rfl, rfl⟩ := Stmt.code_assign_scalar_eq_ok.1 hk
    simp only [codeAt_append, List.length_append, length_popReg, ← Nat.add_assoc] at hat
    obtain ⟨⟨hatv, hatp⟩, hats⟩ := hat
    obtain ⟨c₁, h₁⟩ := Expr.pushed a.laid hu hcall _ heval hkv hatv hr.ready
    obtain ⟨h₂, hvalue⟩ := h₁.pop_one hatp (by simp) (by simp)
    have hr₂ := hr.after h₂
    obtain ⟨c₃, hstore, hr₃⟩ := hr₂.store inputs none hats
      (place_scalarAddress hr₂.ready.fp haddress) hvalue ha
    exact hr₃.finishes (h₂.reaches.trans hstore) (by simp; omega)
  | element x index =>
    simp only [Stmt.exec, Target.exec, run_bind_eq_some, run_pure_eq_some] at h
    obtain ⟨_, _, ⟨j, _, hj, rfl, rfl⟩, i, _, hv, ⟨⟩, _, ha, rfl, rfl⟩ := h
    obtain ⟨w₁, hevalj, rfl⟩ := Expr.execInt_eq_some hj
    obtain ⟨w₂, hevalv, rfl⟩ := Expr.execInt_eq_some hv
    obtain ⟨kj, _, hkj, kv, _, hkv, scale, address, _, haddress, rfl, rfl⟩ :=
      Stmt.code_assign_element_eq_ok.1 hk
    simp only [codeAt_append, List.length_append, length_popReg, ← Nat.add_assoc] at hat
    obtain ⟨⟨⟨⟨⟨hatj, hatv⟩, hat₁⟩, hat₀⟩, hatc⟩, hats⟩ := hat
    obtain ⟨c₁, h₁⟩ := Expr.pushed a.laid hu hcall _ hevalj hkj hatj hr.ready
    obtain ⟨c₂, h₂⟩ := Expr.pushed a.laid hu hcall _ hevalv hkv hatv (hr.ready.after a.laid h₁)
    obtain ⟨c₃, h₃, hindex, hvalue⟩ := (h₁.trans h₂).pop_two hat₁ hat₀
    obtain ⟨c₄, hstore, hr₄⟩ :=
      (hr.after h₃).store_element inputs haddress hatc hats hindex hvalue (by simp) ha
    exact hr₄.finishes (h₃.reaches.trans hstore) (by simp; omega)

theorem Stmt.followed_input (l : Line) (target : Target) :
    (Stmt.input l target).Followed code inputs a call fuel := by
  intro n m p k σ σ' ret c h hk hat _ hr
  cases target with
  | scalar x =>
    simp only [Stmt.exec, Target.exec, run_bind_eq_some, run_pure_eq_some] at h
    obtain ⟨_, _, ⟨rfl, rfl⟩, i, _, hinput, ⟨⟩, _, ha, rfl, rfl⟩ := h
    obtain ⟨hi, rfl⟩ := Exec.input_eq_some.1 hinput
    obtain ⟨address, _, haddress, rfl, rfl⟩ := Stmt.code_input_scalar_eq_ok.1 hk
    obtain ⟨hatr, hats⟩ := codeAt_append.1 hat
    obtain ⟨c₁, h₁, hvalue⟩ :=
      (Leaves.refl (p := p) hr.ready.world hr.ready.aligned).read hatr hi
    have hr₁ := hr.after h₁
    obtain ⟨c₂, hstore, hr₂⟩ := hr₁.store inputs none hats
      (place_scalarAddress hr₁.ready.fp haddress) hvalue ha
    exact hr₂.finishes (h₁.reaches.trans hstore) (by simp [readInt])
  | element x index =>
    simp only [Stmt.exec, Target.exec, run_bind_eq_some, run_pure_eq_some] at h
    obtain ⟨_, _, ⟨j, _, hj, rfl, rfl⟩, i, _, hinput, ⟨⟩, _, ha, rfl, rfl⟩ := h
    obtain ⟨w₁, hevalj, rfl⟩ := Expr.execInt_eq_some hj
    obtain ⟨hi, rfl⟩ := Exec.input_eq_some.1 hinput
    obtain ⟨kj, _, hkj, scale, address, _, haddress, rfl, rfl⟩ := Stmt.code_input_element_eq_ok.1 hk
    simp only [codeAt_append, List.length_append, length_popReg, ← Nat.add_assoc] at hat
    obtain ⟨⟨⟨⟨hatj, hatr⟩, hat₀⟩, hatc⟩, hats⟩ := hat
    obtain ⟨c₁, h₁⟩ := Expr.pushed a.laid hu hcall _ hevalj hkj hatj hr.ready
    obtain ⟨c₂, h₂, hread⟩ := h₁.read hatr hi
    obtain ⟨h₃, hindex⟩ := h₂.pop_one hat₀ (by simp) (by simp)
    have hvalue : (c₂.pop .t0).regs .v0 = i := by
      rw [Core.pop_regs_of_ne _ (by simp) (by simp), hread]
    obtain ⟨c₃, hstore, hr₃⟩ :=
      (hr.after h₃).store_element inputs haddress hatc hats hindex hvalue (by simp) ha
    exact hr₃.finishes (h₃.reaches.trans hstore) (by simp [readInt]; omega)

theorem Stmt.followed_output (l : Line) (value : Expr) :
    (Stmt.output l value).Followed code inputs a call fuel := by
  intro n m p k σ σ' ret c h hk hat _ hr
  simp only [Stmt.exec, Exec.output, run_bind_eq_some, run_pure_eq_some] at h
  obtain ⟨i, _, hv, ⟨⟩, _, ⟨⟩, rfl, rfl⟩ := h
  obtain ⟨w, heval, rfl⟩ := Expr.execInt_eq_some hv
  obtain ⟨kv, _, hkv, rfl, rfl⟩ := Stmt.code_output_eq_ok.1 hk
  simp only [codeAt_append, List.length_append, length_popReg, ← Nat.add_assoc] at hat
  obtain ⟨⟨hatv, hatp⟩, hato⟩ := hat
  obtain ⟨c₁, h₁⟩ := Expr.pushed a.laid hu hcall _ heval hkv hatv hr.ready
  obtain ⟨h₂, hvalue⟩ := h₁.pop_one hatp (by simp) (by simp)
  obtain ⟨c₃, h₃⟩ := h₂.print hato hvalue
  exact (hr.after h₃).finishes h₃.reaches (by simp [printInt]; omega)

theorem Stmt.followed_ret (l : Line) (value : Expr) :
    (Stmt.ret l value).Followed code inputs a call fuel := by
  intro n m p k σ σ' ret c h hk hat _ hr
  simp only [Stmt.exec, run_bind_eq_some, run_pure_eq_some] at h
  obtain ⟨i, _, hv, rfl, rfl⟩ := h
  obtain ⟨w, heval, rfl⟩ := Expr.execInt_eq_some hv
  obtain ⟨kv, _, hkv, ke, _, hke, rfl, rfl⟩ := Stmt.code_ret_eq_ok.1 hk
  simp only [codeAt_append, List.length_append, length_popReg, ← Nat.add_assoc] at hat
  obtain ⟨⟨hatv, hatp⟩, hate⟩ := hat
  obtain ⟨c₁, h₁⟩ := Expr.pushed a.laid hu hcall _ heval hkv hatv hr.ready
  obtain ⟨h₂, hvalue⟩ := h₁.pop_one hatp (by simp) (by simp)
  obtain ⟨c₃, hreach, hreturned⟩ := (hr.after h₂).returns inputs hvalue hke hate
  exact ⟨c₃, h₂.reaches.trans hreach, hreturned⟩

theorem Stmt.followed_call (l : Line) (f : String) (args : List Expr) :
    (Stmt.call l f args).Followed code inputs a call fuel := by
  intro n m p k σ σ' ret c h hk hat _ hr
  simp only [Stmt.exec, run_bind_eq_some, run_pure_eq_some] at h
  obtain ⟨as, _, has, i, _, hi, rfl, rfl⟩ := h
  obtain ⟨w₁, hargs, rfl⟩ := Exec.eval_eq_some.1 has
  obtain ⟨w₂, hrun, rfl⟩ := Exec.eval_eq_some.1 hi
  -- the code is that of a call expression whose result is popped
  have heval : (Expr.call l f args).eval call σ.locals σ.world = some (.int i, w₂) := by
    simp only [Expr.eval, run_bind_eq_some, run_pure_eq_some]
    exact ⟨as, w₁, hargs, i, w₂, hrun, rfl, rfl⟩
  obtain ⟨ka, m, hka, rfl, rfl⟩ := Stmt.code_call_eq_ok.1 hk
  have hke : (Expr.call l f args).code a.storage n = .ok (ka ++ [.jal (procLabel f)], m) := by
    exact Expr.code_call_eq_ok.2 ⟨ka, _, hka, rfl, rfl⟩
  rw [List.append_cons] at hat ⊢
  obtain ⟨hate, hatp⟩ := codeAt_append.1 hat
  obtain ⟨c₁, h₁⟩ := Expr.pushed a.laid hu hcall _ heval hke hate hr.ready
  obtain ⟨h₂, -⟩ := h₁.pop_one hatp (by simp) (by simp)
  exact (hr.after h₂).finishes h₂.reaches (by simp; omega)

section

variable (l : Line) {cond : Expr}

theorem Stmt.followed_ifThen {yes : Stmt} (h : yes.Followed code inputs a call fuel) :
    (Stmt.ifThen l cond yes).Followed code inputs a call fuel := by
  intro n m p k σ σ' ret c hs hk hat hroom hr
  simp only [Stmt.exec, run_bind_eq_some] at hs
  obtain ⟨b, σ₁, hcond, hs⟩ := hs
  obtain ⟨done, _, -, kc, _, hkc, ky, _, hky, rfl, rfl⟩ := Stmt.code_ifThen_eq_ok.1 hk
  simp only [codeAt_append, List.length_append, ← Nat.add_assoc] at hat
  obtain ⟨⟨hatc, haty⟩, hatd, -⟩ := hat
  obtain ⟨c₁, hreach, hr₁⟩ := Expr.reaches_branchCode hu hcall hcond hkc hatc
    (resolve_eq_some hu hatd) hr
  have hdone (c : Core) : Machine.Reaches code inputs ⟨p + kc.length + ky.length, c⟩
      ⟨p + kc.length + ky.length + 1, c⟩ := .of_step (step_of_effect hatd rfl)
  refine .ends (.of_reaches hreach ?_) (q := p + kc.length + ky.length + 1) (by simp; omega)
  cases b with
  | true => exact .goto (Exec.finishes_inScope hs fun σ₂ h₂ => h h₂ hky haty hroom hr₁) hdone
  | false =>
    obtain ⟨rfl, rfl⟩ := run_pure_eq_some.1 hs
    exact hr₁.finishes (hdone c₁) rfl

theorem Stmt.followed_ifElse {yes no : Stmt} (hyes : yes.Followed code inputs a call fuel)
    (hno : no.Followed code inputs a call fuel) :
    (Stmt.ifElse l cond yes no).Followed code inputs a call fuel := by
  intro n m p k σ σ' ret c hs hk hat hroom hr
  simp only [Stmt.exec, run_bind_eq_some] at hs
  obtain ⟨b, σ₁, hcond, hs⟩ := hs
  obtain ⟨otherwise, _, -, done, _, -, kc, _, hkc, ky, _, hky, kn, _, hkn, rfl, rfl⟩ :=
    Stmt.code_ifElse_eq_ok.1 hk
  simp only [codeAt_append, List.length_append, List.length_cons, List.length_nil,
    ← Nat.add_assoc] at hat
  obtain ⟨⟨⟨⟨hatc, haty⟩, hatj, hato, -⟩, hatn⟩, hatd, -⟩ := hat
  have hroomy : a.storage.HasRoom yes.declared := fun r hr => hroom r (List.mem_append_left _ hr)
  have hroomn : a.storage.HasRoom no.declared := fun r hr => hroom r (List.mem_append_right _ hr)
  obtain ⟨c₁, hreach, hr₁⟩ := Expr.reaches_branchCode hu hcall hcond hkc hatc
    (resolve_eq_some hu hato) hr
  refine .ends (.of_reaches hreach (.goto ?_ fun c => .of_step (step_of_effect hatd rfl)))
    (by simp; omega)
  cases b with
  | true =>
    exact .goto (Exec.finishes_inScope hs fun σ₂ h₂ => hyes h₂ hky haty hroomy hr₁)
      fun c => reaches_j hatj (resolve_eq_some hu hatd)
  | false =>
    have hpast : Machine.Reaches code inputs ⟨_, c₁⟩ ⟨_, c₁⟩ := .of_step (step_of_effect hato rfl)
    exact .of_reaches hpast
      (Exec.finishes_inScope hs fun σ₂ h₂ => hno h₂ hkn hatn hroomn hr₁)

/-- The turns of a loop. The bound of `iterate` counts those that are left, and is not the one of the
loops inside. -/
theorem Stmt.finishes_iterate {body : Stmt} (h : body.Followed code inputs a call fuel)
    {start done : String} {n m n' m' turns : Nat} {kc kb : List Instr} {ret : Option Int}
    (hs : Exec.iterate (cond.execBool call) (Exec.inScope (body.exec call inputs fuel)) turns σ =
      some (ret, σ')) (hkc : cond.branchCode a.storage done n = .ok (kc, m))
    (hkb : body.code a.storage n' = .ok (kb, m'))
    (hat : CodeAt code p (.label start :: kc ++ kb ++ [.j start, .label done]))
    (hroom : a.storage.HasRoom body.declared) (hr : Running code a σ c) :
    Finishes code inputs a p (p + (kc.length + kb.length + 3)) c ret σ' := by
  simp only [codeAt_append, List.length_append, List.length_cons, ← Nat.add_assoc] at hat
  obtain ⟨⟨⟨hats, hatc⟩, hatb⟩, hatj, hatd, -⟩ := hat
  induction turns generalizing σ c with
  | zero => cases hs
  | succ turns ih =>
    simp only [Exec.iterate, run_bind_eq_some] at hs
    obtain ⟨b, σ₁, hcond, hs⟩ := hs
    have hstart : Machine.Reaches code inputs ⟨p, c⟩ ⟨p + 1, c⟩ := .of_step (step_of_effect hats rfl)
    obtain ⟨c₁, hreach, hr₁⟩ := Expr.reaches_branchCode hu hcall hcond hkc hatc
      (resolve_eq_some hu hatd) hr
    apply Finishes.of_reaches (hstart.trans hreach)
    cases b with
    | false =>
      obtain ⟨rfl, rfl⟩ := run_pure_eq_some.1 hs
      rw [if_neg Bool.false_ne_true]
      exact hr₁.finishes (.of_step (step_of_effect hatd rfl)) (by omega)
    | true =>
      simp only [if_true, run_bind_eq_some] at hs
      rw [if_pos rfl, Nat.add_right_comm]
      obtain ⟨r, σ₂, hbody, hs⟩ := hs
      have hturn := Exec.finishes_inScope hbody fun σ₃ h₃ => h h₃ hkb hatb hroom hr₁
      cases r with
      | some r =>
        obtain ⟨rfl, rfl⟩ := run_pure_eq_some.1 hs
        exact hturn
      | none =>
        obtain ⟨c₂, hreach₂, hr₂⟩ := hturn
        have hback : Machine.Reaches code inputs ⟨_, c₂⟩ ⟨p, c₂⟩ :=
          reaches_j hatj (resolve_eq_some hu hats)
        exact .of_reaches (hreach₂.trans hback) (ih hs hr₂)

theorem Stmt.followed_loop {body : Stmt} (h : body.Followed code inputs a call fuel) :
    (Stmt.loop l cond body).Followed code inputs a call fuel := by
  intro n m p k σ σ' ret c hs hk hat hroom hr
  rw [Stmt.exec] at hs
  obtain ⟨start, _, -, done, _, -, kc, _, hkc, kb, _, hkb, rfl, rfl⟩ := Stmt.code_loop_eq_ok.1 hk
  exact (Stmt.finishes_iterate hu hcall h hs hkc hkb hat hroom hr).ends (by simp; omega)

end

theorem Stmt.followed (t : Stmt) : t.Followed code inputs a call fuel := by
  induction t with
  | declare l x shape => exact Stmt.followed_declare l x shape
  | assign l target value => exact Stmt.followed_assign hu hcall l target value
  | block l body ih => exact Stmt.followed_block l ih
  | ifThen l cond yes ih => exact Stmt.followed_ifThen hu hcall l ih
  | ifElse l cond yes no ihy ihn => exact Stmt.followed_ifElse hu hcall l ihy ihn
  | loop l cond body ih => exact Stmt.followed_loop hu hcall l ih
  | output l value => exact Stmt.followed_output hu hcall l value
  | input l target => exact Stmt.followed_input hu hcall l target
  | ret l value => exact Stmt.followed_ret hu hcall l value
  | call l f args => exact Stmt.followed_call hu hcall l f args

end

end ProcMips
