import ProcMips.Proofs.Analysis.Placement
import ProcMips.Proofs.CodeGen.Statements

/-! Calls come back. The prologue of a procedure builds the frame around the arguments that its caller
pushed, the body runs in it, and its last return leaves one word in their place. A call that contains
calls comes back because those inside it do. -/

namespace ProcMips

open Mips

variable {code : List Instr} {inputs : List Int} {t : Tables} {p q : Nat} {c c' caller : Core}
  {w : World} {args : List Int} {ra : Nat}

theorem Frame.reserve_eq_ok {f : Frame} {size n : Int} (hsize : f.size = .ok size)
    (h : f.reserve = .ok n) : n = size - wordSize * f.argCount := by
  unfold Frame.reserve at h
  simp only [except_bind_eq_ok, hsize, Except.ok.injEq] at h
  obtain ⟨_, rfl, args, hargs, h⟩ := h
  obtain ⟨-, rfl⟩ := Word.checked_eq_ok_iff.1 hargs
  obtain ⟨-, rfl⟩ := Word.checked_eq_ok_iff.1 h
  rw [Int.mul_comm]

/-- The first instructions of a procedure. -/
def prologueCode (reserve : Int) : List Instr :=
  [.li .t0 reserve, .op .sub .sp .sp .t0] ++ saveRegisters ++ [.move .fp .sp]

/-- A core behind the prologue, with a frame of `size` bytes under the words of `caller`. -/
structure Mips.Core.Entered (caller c : Core) (size : Int) (c' : Core) : Prop where
  sp : c'.regs .sp = caller.regs .sp - size - saveArea
  fp : c'.regs .fp = caller.regs .sp - size - saveArea
  savedRa : c'.mem (.stack (caller.regs .sp - size)) = c.regs .ra
  savedFp : c'.mem (.stack (caller.regs .sp - size - saveArea + wordSize)) = caller.regs .fp
  above : ∀ n, caller.regs .sp - size < n → c'.mem (.stack n) = c.mem (.stack n)
  world : c.SameWorld c'

variable (code inputs) in
theorem effects_prologueCode {size : Int} (hp : caller.Pushes args c) (ha : 4 ∣ caller.regs .sp)
    (hsize : 4 ∣ size) :
    ∃ c', (Core.processor code inputs).effects (prologueCode (size - wordSize * args.length)) c = some c' ∧
      caller.Entered c size c' := by
  set reserve := size - wordSize * args.length with hreserve
  let c₁ := (c.set .t0 reserve).set .sp (caller.regs .sp - size)
  have hsub : (Core.processor code inputs).effects [.li .t0 reserve, .op .sub .sp .sp .t0] c = some c₁ := by
    have hsp : c.regs .sp - reserve = caller.regs .sp - size := by
      rw [hp.sp, hreserve]
      unfold wordSize
      omega
    simp [Processor.effects, Processor.effect, Core.processor, Op.apply, hsp, c₁]
  have hsp₁ : c₁.regs .sp = caller.regs .sp - size := by simp [c₁]
  obtain ⟨c₂, hsave, hsaved⟩ := effects_saveRegisters code inputs (c := c₁) (by
    rw [hsp₁]
    omega)
  refine ⟨c₂.set .fp (c₂.regs .sp), ?_, ?_⟩
  · rw [prologueCode, effects_append, effects_append, hsub, Option.bind_some, hsave]
    rfl
  · have hsp₂ : c₂.regs .sp = caller.regs .sp - size - saveArea := by
      simp [hsaved.regs, hsp₁]
    refine ⟨by simp [hsp₂], by simp [hsp₂], ?_, ?_, fun n hn => ?_, ?_⟩
    · have := hsaved.ra
      rw [hsp₁] at this
      simpa [c₁] using this
    · have := hsaved.fp
      rw [hsp₁] at this
      simpa [c₁, hp.fp] using this
    · exact hsaved.above n (by rwa [hsp₁])
    · exact ⟨fun l n => hsaved.world.mem l n, hsaved.world.reads, hsaved.world.printed⟩

/-- The call that a procedure with this storage is in, from `caller` and back to `ra`. -/
def Activation.enter (s : Storage) (size : Int) (caller : Core) (ra : Nat)
    (laid : s.frame.Laid size) (aligned : 4 ∣ caller.regs .sp) : Activation where
  storage := s
  base := caller.regs .sp - size - saveArea
  size := size
  caller := caller
  ra := ra
  laid := laid
  top := by omega
  aligned := aligned

theorem exists_getElem?_of_lookup_zip {xs : List String} {ns : List Int} {x : String} {n : Int}
    (h : (xs.zip ns).lookup x = some n) : ∃ i : Nat, xs[i]? = some x ∧ ns[i]? = some n := by
  induction xs generalizing ns with
  | nil => cases h
  | cons y xs ih =>
    cases ns with
    | nil => cases h
    | cons m ns =>
      rw [List.zip_cons_cons, List.lookup_cons] at h
      cases hxy : x == y with
      | true =>
        rw [hxy] at h
        cases h
        exact ⟨0, by simpa using (eq_of_beq hxy).symm, rfl⟩
      | false =>
        rw [hxy] at h
        obtain ⟨i, hx, hn⟩ := ih h
        exact ⟨i + 1, by simpa using hx, by simpa using hn⟩

namespace Procedure

variable {q : Procedure} {f : Frame} {size : Int}

/-- The arguments are where the frame has the parameters. -/
theorem PlacedIn.bound_storedIn (h : q.PlacedIn f size)
    (hlocal : ∀ x ∈ q.params.map Param.name, t.isGlobal x = false) (hp : caller.Pushes args c)
    (hc : caller.Entered c size c') :
    Env.StoredIn ⟨t, q.name, f⟩ (caller.regs .sp - size - saveArea) (q.bound args) c' := by
  intro x v hx
  obtain ⟨n, hn, rfl⟩ := Option.map_eq_some_iff.1 hx
  obtain ⟨i, hxi, hni⟩ := exists_getElem?_of_lookup_zip hn
  obtain ⟨slot, hslot, hoffset, hsize⟩ := h.params i x hxi
  have hinside := h.laid.inside x slot hslot
  refine ⟨hlocal x (List.mem_of_getElem? hxi), slot, hslot, hsize, fun j m hj => ?_⟩
  have hcell : j = 0 ∧ n = m := by
    cases j with
    | zero => simpa [Var.cells] using hj
    | succ j => simp [Var.cells] at hj
  obtain ⟨rfl, rfl⟩ := hcell
  have hplace : caller.regs .sp - size - saveArea + slot.offset + 4 * ((0 : Nat) : Int) =
      caller.regs .sp - 4 * i := by
    rw [hoffset]
    unfold wordSize
    omega
  dsimp only
  rw [hplace, hc.above _ (by unfold wordSize saveArea at *; omega)]
  exact hp.held i n hni

theorem PlacedIn.running (h : q.PlacedIn f size)
    (hlocal : ∀ x ∈ q.params.map Param.name, t.isGlobal x = false) (hp : caller.Pushes args c)
    (ha : 4 ∣ caller.regs .sp) (hra : c.regs .ra = ra) (hw : w.Matches code t c)
    (hc : caller.Entered c size c') :
    Running code (.enter ⟨t, q.name, f⟩ size caller ra h.laid ha) ⟨q.bound args, w⟩ c' := by
  have hsize := h.laid.nonneg
  have hwhole := h.laid.whole
  have hbase : 4 ∣ caller.regs .sp - size - saveArea := by
    unfold saveArea
    omega
  refine ⟨⟨hbase, by rwa [hc.sp], le_of_eq hc.sp, hc.fp, h.bound_storedIn hlocal hp hc,
    hw.congr hc.world⟩, hc.sp, ?_, hc.savedFp, fun n hn => ?_⟩
  · have := hc.savedRa
    rw [hra, ← Int.sub_add_cancel (caller.regs .sp - size) saveArea] at this
    exact this
  · have hn : caller.regs .sp < n := hn
    rw [hc.above n (by omega)]
    exact hp.above n hn

/-- A call comes back, with the value that the body returns or else with 0. -/
theorem PlacedIn.comes_back {call : String → List Int → Eval Int} {fuel n m : Nat} {k : List Instr}
    {ret : Option Int} {σ : RunState} (h : q.PlacedIn f size) (hu : (labelsOf code).Nodup)
    (hcall : CallsReturn code inputs t call) (hlocal : ∀ r ∈ q.requests, t.isGlobal r.1 = false)
    (hk : q.bodyCode ⟨t, q.name, f⟩ n = .ok (k, m)) (hat : CodeAt code p k)
    (hlen : args.length = q.params.length)
    (hexec : q.body.exec call inputs fuel ⟨q.bound args, w⟩ = some (ret, σ))
    (hp : caller.Pushes args c) (ha : 4 ∣ caller.regs .sp) (hra : c.regs .ra = ra)
    (hw : w.Matches code t c) :
    ∃ c', Machine.Reaches code inputs ⟨p, c⟩ ⟨ra, c'⟩ ∧ caller.Pushes [ret.getD 0] c' ∧
      σ.world.Matches code t c' := by
  obtain ⟨reserve, kb, ke, hreserve, hkb, hke, rfl⟩ := bodyCode_eq_ok hk
  obtain rfl := Frame.reserve_eq_ok h.laid.size_eq hreserve
  rw [h.argCount, ← hlen] at hat
  have hat : CodeAt code p (.label (procLabel q.name) ::
      prologueCode (size - wordSize * args.length) ++ kb ++ .li .t0 0 :: ke) := hat
  simp only [codeAt_append, List.length_append, List.length_cons, ← Nat.add_assoc] at hat
  obtain ⟨⟨⟨hatl, hatp⟩, hatb⟩, hat0, hate⟩ := hat
  obtain ⟨c₁, hprologue, hentered⟩ := effects_prologueCode code inputs hp ha h.laid.whole
  have hstart : Machine.Reaches code inputs ⟨p, c⟩ ⟨_, c₁⟩ :=
    .trans (.of_step (step_of_effect hatl rfl)) (reaches_of_effects hatp hprologue)
  have hrunning := h.running (fun x hx => by
    obtain ⟨r, hr, rfl⟩ := List.mem_map.1 hx
    exact hlocal (r.name, 1) (List.mem_append_left _ (List.mem_map_of_mem hr))) hp ha hra hw hentered
  have hroom : Storage.HasRoom ⟨t, q.name, f⟩ q.body.declared := fun r hr =>
    ⟨hlocal r (List.mem_append_right _ hr), h.locals r hr⟩
  have hbody := Stmt.followed hu hcall _ hexec hkb (by rwa [Nat.add_right_comm] at hatb) hroom
    hrunning
  rw [Nat.add_right_comm] at hstart
  cases ret with
  | some r =>
    obtain ⟨c₂, hreach, hreturned⟩ := hbody
    exact ⟨c₂, hstart.trans hreach, hreturned⟩
  | none =>
    obtain ⟨c₂, hreach, hr₂⟩ := hbody
    have hli : Machine.Reaches code inputs ⟨_, c₂⟩ ⟨_, c₂.set .t0 0⟩ :=
      .of_step (step_of_effect hat0 rfl)
    have hzero := (Leaves.refl hr₂.ready.world hr₂.ready.aligned).steps hli
      (Core.sameExcept_set_self c₂ .t0 0) (by simp) (by simp)
    obtain ⟨c₃, hreturn, hreturned⟩ := (hr₂.after hzero).returns inputs (r := 0) (by simp) hke hate
    refine ⟨c₃, hstart.trans (hreach.trans ?_), hreturned⟩
    exact hzero.reaches.trans hreturn

end Procedure

end ProcMips
