import ProcMips.Proofs.CodeGen.Symbols

/-! Code in which the numbered labels have other numbers. A generator that starts `d` labels later gives
the same code with every number larger by `d`, if names are stored alike. -/

namespace ProcMips

open Mips

namespace Mips

/-- The label with `d` more in its number, if it has one. -/
def renumber (d : Nat) (l : String) : String :=
  let n := Nat.ofDigitChars 10 (l.toList.drop generatedStem.toList.length) 0
  if l = generatedLabel n then generatedLabel (n + d) else l

theorem renumber_generatedLabel (d n : Nat) :
    renumber d (generatedLabel n) = generatedLabel (n + d) := by
  have hnumber : Nat.ofDigitChars 10
      ((generatedLabel n).toList.drop generatedStem.toList.length) 0 = n := by
    simp only [generatedLabel, ToString.toString, String.toList_append, List.drop_left]
    rw [Nat.toList_repr, Nat.ofDigitChars_ten_toDigits]
  rw [renumber, hnumber, if_pos rfl]

theorem renumber_of_ne {l : String} (h : ∀ n, l ≠ generatedLabel n) (d : Nat) :
    renumber d l = l := if_neg (h _)

@[simp] theorem renumber_procLabel (d : Nat) (f : String) :
    renumber d (procLabel f) = procLabel f :=
  renumber_of_ne (fun n => (generatedLabel_ne_procLabel n f).symm) d

@[simp] theorem renumber_mainName (d : Nat) : renumber d mainName = mainName :=
  renumber_of_ne (fun n => (generatedLabel_ne_main n).symm) d

@[simp] theorem renumber_globalLabel (d : Nat) (x : String) :
    renumber d (globalLabel x) = globalLabel x :=
  renumber_of_ne (globalLabel_ne_generatedLabel x) d

@[simp] def Address.renumbered (d : Nat) : Address → Address
  | .label l => .label (renumber d l)
  | .indexed l r => .indexed (renumber d l) r
  | a => a

/-- An instruction with `d` more in the number of every label that it names. -/
@[simp] def Instr.renumbered (d : Nat) : Instr → Instr
  | .global l => .global (renumber d l)
  | .word l n => .word (renumber d l) n
  | .label l => .label (renumber d l)
  | .lw r a => .lw r (a.renumbered d)
  | .sw r a => .sw r (a.renumbered d)
  | .j l => .j (renumber d l)
  | .jal l => .jal (renumber d l)
  | .beqz r l => .beqz r (renumber d l)
  | .bnez r l => .bnez r (renumber d l)
  | i => i

/-- Code with `d` more in the number of every label. -/
def renumbered (d : Nat) (k : List Instr) : List Instr := k.map (Instr.renumbered d)

section

variable (d : Nat)

@[simp] theorem renumbered_nil : renumbered d [] = [] := rfl

@[simp] theorem renumbered_cons (i : Instr) (k : List Instr) :
    renumbered d (i :: k) = i.renumbered d :: renumbered d k := rfl

@[simp] theorem renumbered_append (k k' : List Instr) :
    renumbered d (k ++ k') = renumbered d k ++ renumbered d k' := List.map_append

@[simp] theorem renumbered_pushReg (r : Register) : renumbered d (pushReg r) = pushReg r := rfl

@[simp] theorem renumbered_popReg (r : Register) : renumbered d (popReg r) = popReg r := rfl

@[simp] theorem renumbered_saveRegisters : renumbered d saveRegisters = saveRegisters := rfl

@[simp] theorem renumbered_restoreRegisters :
    renumbered d restoreRegisters = restoreRegisters := rfl

@[simp] theorem renumbered_printInt : renumbered d printInt = printInt := rfl

@[simp] theorem renumbered_readInt : renumbered d readInt = readInt := rfl

end

end Mips

namespace Gen

variable {α β : Type} {d : Nat}

/-- What `y` gives when it starts `d` labels later is what `x` gives, through `f`, and it ends `d`
labels later. -/
def Shifts (d : Nat) (f : α → α) (x y : Gen α) : Prop :=
  ∀ n b m, y (n + d) = .ok (b, m) → ∃ a i, x n = .ok (a, i) ∧ b = f a ∧ m = i + d

theorem shifts_pure {f : α → α} {a b : α} (h : b = f a) : Shifts d f (pure a) (pure b) := by
  intro n b' m hrun
  obtain ⟨rfl, rfl⟩ := gen_pure_eq_ok.1 hrun
  exact ⟨a, n, rfl, h, rfl⟩

theorem Shifts.bind {f : α → α} {g : β → β} {x y : Gen α} {u v : α → Gen β} (hx : Shifts d f x y)
    (hu : ∀ a, Shifts d g (u a) (v (f a))) : Shifts d g (x >>= u) (y >>= v) := by
  intro n c m hrun
  obtain ⟨b, k, hy, hv⟩ := gen_bind_eq_ok.1 hrun
  obtain ⟨a, i, hx, rfl, rfl⟩ := hx n b k hy
  obtain ⟨c', j, hu, rfl, rfl⟩ := hu a i c m hv
  exact ⟨c', j, gen_bind_eq_ok.2 ⟨a, i, hx, hu⟩, rfl, rfl⟩

theorem shifts_throw {f : α → α} {e e' : CodeError} :
    Shifts d f (throw e : Gen α) (throw e') := fun _ _ _ hrun => absurd hrun gen_throw_ne_ok

/-- The same outcome, which needs no label. -/
theorem shifts_word (r : Except Overflow Int) : Shifts d id (word r) (word r) := by
  intro n b m hrun
  obtain ⟨rfl, rfl⟩ := word_eq_ok hrun
  exact ⟨b, n, rfl, rfl, rfl⟩

theorem shifts_freshLabel : Shifts d (renumber d) freshLabel freshLabel := by
  intro n b m hrun
  have hlimit : n + d + 1 < labelLimit := by
    by_contra hover
    rw [freshLabel, if_neg hover] at hrun
    cases hrun
  obtain ⟨rfl, rfl⟩ := freshLabel_eq_ok hrun
  refine ⟨generatedLabel n, n + 1, if_pos (by omega), (renumber_generatedLabel d n).symm, by omega⟩

end Gen

namespace Storage

/-- Two places for names that differ in no address. -/
structure Agree (s s' : Storage) : Prop where
  isGlobal : ∀ x, s.tables.isGlobal x = s'.tables.isGlobal x
  frame : s.frame = s'.frame

variable {s s' : Storage} {d : Nat}

theorem Agree.shifts_offset (h : s.Agree s') (x : String) :
    Gen.Shifts d id (s.offset x) (s'.offset x) := by
  unfold offset
  rw [h.frame]
  cases s'.frame.offset? x with
  | none => exact Gen.shifts_throw
  | some n => exact Gen.shifts_pure rfl

theorem Agree.shifts_scalarAddress (h : s.Agree s') (x : String) :
    Gen.Shifts d (Address.renumbered d) (s.scalarAddress x) (s'.scalarAddress x) := by
  unfold scalarAddress
  rw [h.isGlobal]
  split_ifs
  · exact Gen.shifts_pure (by simp)
  · exact (h.shifts_offset x).bind fun n => Gen.shifts_pure rfl

theorem Agree.shifts_elementAddress (h : s.Agree s') (x : String) (r : Register) :
    Gen.Shifts d (Prod.map (renumbered d) (Address.renumbered d)) (s.elementAddress x r)
      (s'.elementAddress x r) := by
  unfold elementAddress
  rw [h.isGlobal]
  dsimp only
  split_ifs
  · exact Gen.shifts_pure (by simp)
  · exact (h.shifts_offset x).bind fun n =>
      Gen.shifts_pure (by simp)

theorem Agree.shifts_epilogue (h : s.Agree s') :
    Gen.Shifts d (renumbered d) s.epilogue s'.epilogue := by
  unfold epilogue
  rw [h.frame]
  exact (Gen.shifts_word _).bind fun size => Gen.shifts_pure (by simp)

end Storage

section

variable {s s' : Storage} {d : Nat}

theorem BinOp.shifts_instr (op : BinOp) : Gen.Shifts d id op.instr op.instr := by
  cases op <;> first | exact Gen.shifts_pure rfl | exact Gen.shifts_throw

theorem Expr.shifts_codes_of {es : List Expr}
    (h : ∀ e ∈ es, Gen.Shifts d (renumbered d) (e.code s) (e.code s')) :
    Gen.Shifts d (renumbered d) (Expr.codes s es) (Expr.codes s' es) := by
  induction es with
  | nil => exact Gen.shifts_pure rfl
  | cons e es ih =>
    rw [List.forall_mem_cons] at h
    exact h.1.bind fun k => (ih h.2).bind fun ks => Gen.shifts_pure (by simp)

theorem Expr.shifts_code (h : s.Agree s') (e : Expr) :
    Gen.Shifts d (renumbered d) (e.code s) (e.code s') := by
  induction e with
  | int l n => exact Gen.shifts_pure rfl
  | bool l b => exact Gen.shifts_pure rfl
  | scalar l x =>
    exact (h.shifts_scalarAddress x).bind fun a => Gen.shifts_pure (by simp)
  | element l x index ih =>
    refine ih.bind fun ki => (h.shifts_elementAddress x .t1).bind fun a => ?_
    exact Gen.shifts_pure (by simp)
  | call l f args ih =>
    exact (Expr.shifts_codes_of ih).bind fun ks => Gen.shifts_pure (by simp)
  | binary l op left right ihl ihr =>
    rw [Expr.code, Expr.code]
    cases op.order with
    | leftFirst =>
      refine ihl.bind fun kl => ihr.bind fun kr => op.shifts_instr.bind fun o => ?_
      exact Gen.shifts_pure (by simp)
    | rightFirst =>
      refine ihr.bind fun kr => ihl.bind fun kl => op.shifts_instr.bind fun o => ?_
      exact Gen.shifts_pure (by simp)
    | shortCircuit decidedBy =>
      refine Gen.shifts_freshLabel.bind fun decided => Gen.shifts_freshLabel.bind fun done => ?_
      refine ihl.bind fun kl => ihr.bind fun kr => Gen.shifts_pure ?_
      cases decidedBy <;> simp
  | not l operand ih =>
    refine Gen.shifts_freshLabel.bind fun done => ih.bind fun ko => ?_
    exact Gen.shifts_pure (by simp)

theorem Expr.shifts_codes (h : s.Agree s') (es : List Expr) :
    Gen.Shifts d (renumbered d) (Expr.codes s es) (Expr.codes s' es) :=
  Expr.shifts_codes_of fun e _ => e.shifts_code h

theorem Expr.shifts_branchCode (h : s.Agree s') (e : Expr) (onFalse : String) :
    Gen.Shifts d (renumbered d) (e.branchCode s onFalse) (e.branchCode s' (renumber d onFalse)) :=
  (e.shifts_code h).bind fun k => Gen.shifts_pure (by simp)

theorem Stmt.shifts_codes_of {ss : List Stmt}
    (h : ∀ t ∈ ss, Gen.Shifts d (renumbered d) (t.code s) (t.code s')) :
    Gen.Shifts d (renumbered d) (Stmt.codes s ss) (Stmt.codes s' ss) := by
  induction ss with
  | nil => exact Gen.shifts_pure rfl
  | cons t ts ih =>
    rw [List.forall_mem_cons] at h
    exact h.1.bind fun k => (ih h.2).bind fun ks => Gen.shifts_pure (by simp)

theorem Stmt.shifts_code (h : s.Agree s') (t : Stmt) :
    Gen.Shifts d (renumbered d) (t.code s) (t.code s') := by
  induction t with
  | declare l x shape => exact Gen.shifts_pure rfl
  | assign l target value =>
    cases target with
    | scalar x =>
      refine (value.shifts_code h).bind fun kv => (h.shifts_scalarAddress x).bind fun a => ?_
      exact Gen.shifts_pure (by simp)
    | element x index =>
      refine (index.shifts_code h).bind fun ki => (value.shifts_code h).bind fun kv => ?_
      refine (h.shifts_elementAddress x .t2).bind fun a => ?_
      exact Gen.shifts_pure (by simp)
  | block l body ih => exact Stmt.shifts_codes_of ih
  | ifThen l cond yes ih =>
    refine Gen.shifts_freshLabel.bind fun done => (cond.shifts_branchCode h done).bind fun kc => ?_
    exact ih.bind fun ky => Gen.shifts_pure (by simp)
  | ifElse l cond yes no ihy ihn =>
    refine Gen.shifts_freshLabel.bind fun otherwise => Gen.shifts_freshLabel.bind fun done => ?_
    refine (cond.shifts_branchCode h otherwise).bind fun kc => ?_
    exact ihy.bind fun ky => ihn.bind fun kn => Gen.shifts_pure (by simp)
  | loop l cond body ih =>
    refine Gen.shifts_freshLabel.bind fun start => Gen.shifts_freshLabel.bind fun done => ?_
    refine (cond.shifts_branchCode h done).bind fun kc => ?_
    exact ih.bind fun kb => Gen.shifts_pure (by simp)
  | output l value => exact (value.shifts_code h).bind fun kv => Gen.shifts_pure (by simp)
  | input l target =>
    cases target with
    | scalar x =>
      exact (h.shifts_scalarAddress x).bind fun a => Gen.shifts_pure (by simp)
    | element x index =>
      refine (index.shifts_code h).bind fun ki => (h.shifts_elementAddress x .t2).bind fun a => ?_
      exact Gen.shifts_pure (by simp)
  | ret l value =>
    exact (value.shifts_code h).bind fun kv => h.shifts_epilogue.bind fun ke =>
      Gen.shifts_pure (by simp)
  | call l f args =>
    exact (Expr.shifts_codes h args).bind fun ks => Gen.shifts_pure (by simp)

theorem Procedure.shifts_bodyCode (h : s.Agree s') (p : Procedure) :
    Gen.Shifts d (renumbered d) (p.bodyCode s) (p.bodyCode s') := by
  unfold bodyCode
  rw [h.frame]
  refine (Gen.shifts_word _).bind fun reserve => (p.body.shifts_code h).bind fun kb => ?_
  exact h.shifts_epilogue.bind fun ke => Gen.shifts_pure (by simp)

/-- The code of a procedure under tables that agree about the globals and about its frame. -/
theorem Procedure.shifts_code {t u : Tables} (hglobals : ∀ x, t.isGlobal x = u.isGlobal x)
    (p : Procedure) (hframe : t.frame? p.name = u.frame? p.name) :
    Gen.Shifts d (renumbered d) (p.code t) (p.code u) := by
  unfold code
  rw [hframe]
  cases u.frame? p.name with
  | none => exact Gen.shifts_throw
  | some f =>
    have hagree : Storage.Agree ⟨t, p.name, f⟩ ⟨u, p.name, f⟩ := ⟨hglobals, rfl⟩
    refine (p.shifts_bodyCode hagree).bind fun body => Gen.shifts_pure ?_
    split_ifs <;> simp

end

end ProcMips
