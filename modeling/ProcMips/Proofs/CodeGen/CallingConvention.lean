import ProcMips.Proofs.CodeGen.Preservation
import ProcMips.Proofs.Machine.SavedWords

/-! The calling convention on flat memory. The prologue of a procedure builds a frame around the words that
its caller pushed, and saves the kept registers at the bottom of it. An epilogue gives back the frame and
these registers, wherever it stands and whatever has happened since outside the save area. -/

namespace ProcMips

open Mips

variable {c c' d : Flat.State}

namespace Mips.Flat

/-- A state behind a prologue that reserves some bytes: the kept registers are in the 40 bytes above the
frame pointer, and nothing else was written. -/
structure Entered (reserve : Int) (c c' : State) : Prop where
  fp : c'.regs .fp = c.regs .sp - BitVec.ofInt 32 reserve - 40
  sp : c'.regs .sp = c'.regs .fp
  saved : ∀ (i : Nat) (r : Register), kept[i]? = some r →
    c'.load (c'.regs .fp + BitVec.ofInt 32 (saveArea - wordSize * i)) = c.regs r
  mem : ∀ b, 40 ≤ (b - (c'.regs .fp + 4)).toNat → c'.mem b = c.mem b

theorem effects_prologueCode (data : String → BitVec 32) (reserve : Int) (c : State) :
    ∃ c', (State.processor data).effects (prologueCode reserve) c = some c' ∧ Entered reserve c c' := by
  let c₁ := (c.set .t0 (BitVec.ofInt 32 reserve)).set .sp (c.regs .sp - BitVec.ofInt 32 reserve)
  have hreserve : (State.processor data).effects [.li .t0 reserve, .op .sub .sp .sp .t0] c = some c₁ := rfl
  have hsp : c₁.regs .sp = c.regs .sp - BitVec.ofInt 32 reserve := rfl
  have hkept : ∀ r ∈ kept, c₁.regs r = c.regs r := by
    intro r hr
    rw [State.set_regs, if_neg (ne_of_mem_of_not_mem hr (by decide)), State.set_regs,
      if_neg (ne_of_mem_of_not_mem hr (by decide))]
  obtain ⟨c₂, hsave, hsaved⟩ := effects_saveRegisters data c₁
  refine ⟨c₂.set .fp (c₂.regs .sp), ?_, ?_, rfl, fun i r hr => ?_, hsaved.mem⟩
  · rw [prologueCode, effects_append, effects_append, hreserve, Option.bind_some, hsave]
    rfl
  · rw [State.set_regs, if_pos rfl, hsaved.sp, hsp]
  · rw [← hkept r (List.mem_of_getElem? hr)]
    exact hsaved.words i r hr

/-- A later state in which the stack is back at the frame, and the save area is as it was. -/
structure KeepsFrame (c d : State) : Prop where
  fp : d.regs .fp = c.regs .fp
  sp : d.regs .sp = c.regs .fp
  area : ∀ b, (b - (c.regs .fp + 4)).toNat < 40 → d.mem b = c.mem b

/-- A state behind the return from `d`, of a call that was made in `c`: the kept registers are back and
the result is in the word at `s`. -/
structure Returned (s : BitVec 32) (c d d' : State) : Prop where
  kept : ∀ r ∈ kept, d'.regs r = c.regs r
  result : d'.load s = d.regs .t0
  sp : d'.regs .sp = s - 4
  mem : ∀ b, 4 ≤ (b - s).toNat → d'.mem b = d.mem b

theorem Entered.load_eq {reserve : Int} (h : Entered reserve c c') (hd : KeepsFrame c' d) {i : Nat}
    {r : Register} (hr : kept[i]? = some r) :
    d.load (d.regs .sp + BitVec.ofInt 32 (saveArea - wordSize * i)) = c.regs r := by
  rw [← h.saved i r hr, hd.sp]
  refine State.load_congr fun b hb => hd.area b ?_
  have := keptPlaces_inside (mem_keptPlaces hr)
  bv_omega

theorem Entered.returned {reserve size : Int} {s : BitVec 32} (data : String → BitVec 32) (h : Entered reserve c c')
    (hd : KeepsFrame c' d) (hs : c'.regs .fp + 40 + BitVec.ofInt 32 size = s) :
    ∃ d', (State.processor data).effects
        (restoreRegisters ++ [.li .t1 size, .op .add .sp .sp .t1] ++ pushReg .t0) d = some d' ∧
      Returned s c d d' := by
  obtain ⟨d₁, hrestore, hrestored⟩ := effects_restoreRegisters data d
  let d₂ := (d₁.set .t1 (BitVec.ofInt 32 size)).set .sp (d₁.regs .sp + BitVec.ofInt 32 size)
  have hrelease : (State.processor data).effects [.li .t1 size, .op .add .sp .sp .t1] d₁ = some d₂ := rfl
  have hsp : d₂.regs .sp = s := by
    rw [State.set_regs, if_pos rfl, hrestored.sp, hd.sp, hs]
  have hother (r : Register) (hr : r ≠ .t1) (hr' : r ≠ .sp) : (d₂.push .t0).regs r = d₁.regs r := by
    rw [State.push, State.store_regs, State.set_regs, if_neg hr', State.set_regs, if_neg hr',
      State.set_regs, if_neg hr]
  refine ⟨d₂.push .t0, ?_, fun r hr => ?_, ?_, ?_, fun b hb => ?_⟩
  · rw [effects_append, effects_append, hrestore, Option.bind_some, hrelease, Option.bind_some,
      effects_pushReg (by decide)]
  · obtain ⟨i, hi⟩ := List.mem_iff_getElem?.1 hr
    rw [hother r (ne_of_mem_of_not_mem hr (by decide)) (ne_of_mem_of_not_mem hr (by decide)),
      hrestored.words i r hi, h.load_eq hd hi]
  · rw [State.push, hsp, State.load_store, ← hrestored.regs .t0 (by decide) (by decide)]
    rfl
  · rw [State.push, State.store_regs, State.set_regs, if_pos rfl, hsp]
  · rw [State.push, hsp, State.mem_store_of_le hb, ← hrestored.mem]
    rfl

end Mips.Flat

namespace Procedure

/-- The code of a procedure in a program: its prologue, up to the move to the frame pointer, then its
body, and a return of 0 at the end. -/
structure StandsAt (code : List Instr) (q : Procedure) (s : Storage) (pc : Nat) (reserve : Int)
    (body epilogue : List Instr) : Prop where
  entry : resolve code (procLabel q.name) = some pc
  code : CodeAt code pc
    (.label (procLabel q.name) :: prologueCode reserve ++ body ++ .li .t0 0 :: epilogue)
  body : ∃ n m, q.body.code s n = .ok (body, m)
  epilogue : ∀ n, s.epilogue n = .ok (epilogue, n)

/-- A state behind the prologue of a procedure with the frame `f` of `size` bytes, where the caller pushed
its arguments from `s` downwards. The parameters are the arguments, memory above the stack pointer of the
caller is as it was, and the kept registers have a word each in the 40 bytes above the frame pointer. -/
structure Framed (q : Procedure) (f : Frame) (size : Int) (s : BitVec 32) (c c' : Flat.State) :
    Prop where
  fp : c'.regs .fp = s - BitVec.ofInt 32 (size + saveArea)
  sp : c'.regs .sp = s - BitVec.ofInt 32 (size + saveArea)
  params : ∀ (i : Nat) (x : String), (q.params.map Param.name)[i]? = some x →
    ∃ n, f.offset? x = some n ∧
      c'.load (c'.regs .fp + BitVec.ofInt 32 n) = c.load (Flat.below s i)
  above : ∀ b : BitVec 32, s.toNat + 4 ≤ b.toNat + 4 * q.params.length → c'.mem b = c.mem b
  saved : ∀ (i : Nat) (r : Register), kept[i]? = some r →
    c'.load (c'.regs .fp + BitVec.ofInt 32 (saveArea - wordSize * i)) = c.regs r

variable {q : Procedure} {f : Frame} {size : Int} {s : BitVec 32}

theorem PlacedIn.params_le (h : q.PlacedIn f size) : wordSize * q.params.length ≤ size := by
  rcases Nat.eq_zero_or_pos q.params.length with hzero | hpos
  · rw [hzero]
    exact h.laid.nonneg
  · have hlast : q.params.length - 1 < (q.params.map Param.name).length := by
      rw [List.length_map]
      omega
    obtain ⟨slot, hslot, hoffset, hword⟩ := h.params _ _ (List.getElem?_eq_getElem hlast)
    have := h.laid.inside _ slot hslot
    unfold wordSize saveArea at *
    omega

/-- The caller has pushed the highest words of the frame, and the prologue reserves the others. -/
theorem PlacedIn.framed (h : q.PlacedIn f size) (hsp : c.regs .sp = Flat.below s q.params.length)
    (hroom : size + saveArea ≤ s.toNat)
    (hc : Flat.Entered (size - wordSize * q.params.length) c c') : q.Framed f size s c c' := by
  have hpushed := h.params_le
  obtain ⟨⟨-, hfits⟩, -⟩ := Word.checked_eq_ok_iff.1 h.laid.size_eq
  have hfp : c'.regs .fp = s - BitVec.ofInt 32 (size + saveArea) := by
    rw [hc.fp, hsp]
    unfold Flat.below saveArea wordSize Word.greatest at *
    bv_omega
  refine ⟨hfp, by rw [hc.sp, hfp], fun i x hx => ?_, fun b hb => ?_, hc.saved⟩
  · obtain ⟨slot, hslot, hoffset, hword⟩ := h.params i x hx
    have hinside := h.laid.inside x slot hslot
    have hplace : c'.regs .fp + BitVec.ofInt 32 slot.offset = Flat.below s i := by
      rw [hfp, hoffset]
      unfold Flat.below saveArea wordSize
      bv_omega
    refine ⟨slot.offset, by rw [Frame.offset?, hslot, Option.map_some], ?_⟩
    rw [hplace]
    refine Flat.State.load_congr fun b hb => hc.mem b ?_
    rw [hfp]
    unfold Flat.below saveArea wordSize Word.greatest at *
    bv_omega
  · apply hc.mem b
    rw [hfp]
    unfold saveArea wordSize Word.greatest at *
    bv_omega

end Procedure

namespace Program

variable {p : Program} {t : Tables} {code : List Instr} {q : Procedure}

/-- Every procedure keeps the calling convention. Let its caller have pushed its arguments from `s`
downwards. Behind the prologue, the frame stands around them. And from every later state that keeps the
frame, every epilogue of the procedure leads back to where the call came from, with the kept registers
as they were and with the result as one word in place of the arguments. -/
theorem procedure_keeps_convention (hpos : p.Positive) (h : analyze p = .ok t)
    (hcode : p.code t = .ok code) (hq : q ∈ p.procedures) :
    ∃ f size pc reserve body epilogue, t.frame? q.name = some f ∧ f.size = .ok size ∧
      q.StandsAt code ⟨t, q.name, f⟩ pc reserve body epilogue ∧
      ∀ data s c, c.regs .sp = Flat.below s q.params.length → size + saveArea ≤ s.toNat →
        ∃ c', Flat.Machine.Reaches code data ⟨pc, c⟩
            ⟨pc + 1 + (prologueCode reserve).length, c'⟩ ∧ q.Framed f size s c c' ∧
          ∀ d pe, Flat.KeepsFrame c' d → CodeAt code pe epilogue →
            ∃ d', Flat.Machine.Reaches code data ⟨pe, d⟩ ⟨(c.regs .ra).toNat, d'⟩ ∧
              Flat.Returned s c d d' := by
  obtain ⟨f, size, hf, hplaced⟩ := exists_placed_of_analyze hpos h hq
  obtain ⟨pc, k, n, m, hk, hat, -⟩ := exists_codeAt_body hcode hq hf
  have hentry := resolve_procLabel (nodup_labelsOf_code_of_analyze h hcode) hk hat
  obtain ⟨reserve, body, epilogue, hreserve, hbody, hepilogue, rfl⟩ := Procedure.bodyCode_eq_ok hk
  have hat : CodeAt code pc
    (.label (procLabel q.name) :: prologueCode reserve ++ body ++ .li .t0 0 :: epilogue) := hat
  have hsize := hplaced.laid.size_eq
  have hepilogue : ∀ n, Storage.epilogue ⟨t, q.name, f⟩ n = .ok (epilogue, n) := by
    intro n
    rw [Storage.epilogue_eq_ok hsize hepilogue, Storage.code_epilogue_eq_ok]
    exact ⟨size, n, by simp only [Gen.word, hsize], rfl, rfl⟩
  refine ⟨f, size, pc, reserve, body, epilogue, hf, hsize, ⟨hentry, hat, ⟨n, m, hbody⟩, hepilogue⟩,
    fun data s c hsp hroom => ?_⟩
  obtain rfl := Frame.reserve_eq_ok hsize hreserve
  rw [hplaced.argCount] at hat ⊢
  obtain ⟨⟨⟨hatl, hatp⟩, -⟩, -⟩ := by simpa only [codeAt_append] using hat
  obtain ⟨c', hprologue, hentered⟩ := Flat.effects_prologueCode data
    (size - wordSize * q.params.length) c
  have hframed := hplaced.framed hsp hroom hentered
  refine ⟨c', .trans (.of_step (step_of_effect hatl rfl)) (reaches_of_effects hatp hprologue),
    hframed, fun d pe hd hate => ?_⟩
  have htop : c'.regs .fp + 40 + BitVec.ofInt 32 size = s := by
    rw [hframed.fp]
    unfold saveArea
    bv_omega
  obtain ⟨d', heffects, hreturned⟩ := hentered.returned data hd htop
  rw [Storage.epilogue_eq_ok hsize (hepilogue 0), codeAt_append] at hate
  have hra : d'.regs .ra = c.regs .ra := hreturned.kept .ra (by decide)
  rw [← hra]
  exact ⟨d', .trans (reaches_of_effects hate.1 heffects) (reaches_jr hate.2.1 rfl), hreturned⟩

/-- A caller that has pushed 3, and will go on at 5000. -/
def pushedThree : Flat.State :=
  ((Flat.zeros 0x7ffefffc 0x7fff1000).set .ra 5000).store 0x7fff0000 3

/-- The factorial of 3 is entered, and returns 6 from the end of its code. -/
theorem fact_keeps_convention :
    ∃ t code pc pe c' d', analyze factorials = .ok t ∧ factorials.code t = .ok code ∧
      resolve code "proc_fact" = some pc ∧
      Flat.Machine.Reaches code (fun _ => 0x10010000) ⟨pc, pushedThree⟩ ⟨pc + 1 + 14, c'⟩ ∧
      c'.regs .fp = 0x7ffeffd4 ∧ c'.load (0x7ffeffd4 + 44) = 3 ∧ c'.load (0x7ffeffd4 + 40) = 5000 ∧
      Flat.Machine.Reaches code (fun _ => 0x10010000) ⟨pe, c'.set .t0 6⟩ ⟨5000, d'⟩ ∧
      d'.load 0x7fff0000 = 6 ∧ d'.regs .fp = 0x7fff1000 := by
  obtain ⟨t, ht⟩ : ∃ t, analyze factorials = .ok t := except_exists_ok_iff.2 (by decide +kernel)
  obtain ⟨code, hcode⟩ := exists_code_of_analyze ht (by decide +kernel)
  have hpos : factorials.Positive := by decide +kernel
  obtain ⟨f, size, pc, reserve, body, epilogue, hf, hsize, hstands, hrun⟩ :=
    procedure_keeps_convention hpos ht hcode (List.mem_cons_self : _ ∈ factorials.procedures)
  have hlaid : ((analyze factorials).toOption.bind fun t => (t.frame? "fact").bind fun f =>
      f.size.toOption.map fun n => (n, f.offset? "n")) = some (4, some 44) := by
    decide +kernel
  simp only [ht, Except.toOption, Option.bind_some] at hlaid
  rw [hf] at hlaid
  simp only [hsize, Option.bind_some, Option.map_some, Option.some.injEq, Prod.mk.injEq] at hlaid
  obtain ⟨rfl, hoffset⟩ := hlaid
  obtain ⟨c', hreach, hframed, hback⟩ :=
    hrun (fun _ => 0x10010000) 0x7fff0000 pushedThree (by decide) (by decide)
  have hfp := hframed.fp
  obtain ⟨n, hn, hparam⟩ := hframed.params 0 "n" rfl
  obtain rfl : (44 : Int) = n := Option.some.inj (hoffset.symm.trans hn)
  have hra := hframed.saved 0 .ra rfl
  rw [hfp] at hparam hra
  obtain ⟨-, -, hate⟩ := codeAt_append.1 hstands.code
  have hkeeps : Flat.KeepsFrame c' (c'.set .t0 6) :=
    ⟨rfl, hframed.sp.trans hfp.symm, fun _ _ => rfl⟩
  obtain ⟨d', hreturn, hreturned⟩ := hback (c'.set .t0 6) _ hkeeps hate
  exact ⟨t, code, pc, _, c', d', ht, hcode, hstands.entry, hreach, hfp, hparam, hra, hreturn,
    hreturned.result, hreturned.kept .fp (by decide)⟩

end Program

end ProcMips
