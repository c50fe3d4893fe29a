import ProcMips.Proofs.CodeGen.Procedures
import ProcMips.Proofs.CodeGen.Success

/-! The code of a program does what the program does. If a run of the program ends, then the machine
that is started at the label of `main` prints what the run prints, reads what it reads and returns with
the result on the stack. -/

namespace ProcMips

open Mips

namespace Program

variable {p : Program} {t : Tables} {code : List Instr} {inputs : List Int} {q : Procedure}

/-- Where the code of a procedure stands, and the label of `main` in front of that one. -/
theorem exists_codeAt_body (hcode : p.code t = .ok code) (hq : q ∈ p.procedures) {f : Frame}
    (hf : t.frame? q.name = some f) :
    ∃ pc k n m, q.bodyCode ⟨t, q.name, f⟩ n = .ok (k, m) ∧ CodeAt code pc k ∧
      (q.name = mainName → ∃ start, pc = start + 1 ∧ code[start]? = some (.label mainName)) := by
  obtain ⟨procedures, _, hprocedures, rfl⟩ := code_eq_ok hcode
  obtain ⟨ps, qs, hsplit⟩ := List.append_of_mem hq
  rw [hsplit] at hprocedures
  obtain ⟨before, n, kq, m, after, -, hkq, -, rfl⟩ := split_of_proceduresCode hprocedures
  obtain ⟨f', body, hf', hbody, rfl⟩ := Procedure.code_eq_ok hkq
  obtain rfl : f = f' := Option.some.inj (hf.symm.trans hf')
  rw [List.append_assoc before, ← List.append_assoc (dataCode t), ← List.append_assoc]
  have hat := codeAt_of_split (dataCode t ++ before)
    (if q.name = mainName then .label mainName :: body else body) after
  split_ifs at hat ⊢ with hname
  · exact ⟨_, body, n, m, hbody, hat.2, fun _ => ⟨_, rfl, hat.1⟩⟩
  · exact ⟨_, body, n, m, hbody, hat, fun h => absurd h hname⟩

/-- Every procedure starts at its label. -/
theorem resolve_procLabel {s : Storage} {pc n m : Nat} {k : List Instr}
    (hu : (labelsOf code).Nodup) (hk : q.bodyCode s n = .ok (k, m)) (hat : CodeAt code pc k) :
    resolve code (procLabel q.name) = some pc := by
  obtain ⟨reserve, kb, ke, -, -, -, rfl⟩ := Procedure.bodyCode_eq_ok hk
  exact resolve_eq_some hu hat.1

theorem nodup_labelsOf_code_of_analyze (h : analyze p = .ok t) (hcode : p.code t = .ok code) :
    (labelsOf code).Nodup :=
  nodup_labelsOf_code (analyze_eq_ok_iff_hasFrame.1 h).1.procedures hcode

/-- Calls come back, however deeply they are nested. -/
theorem callsReturn (hpos : p.Positive) (h : analyze p = .ok t) (hcode : p.code t = .ok code)
    (n : Nat) : CallsReturn code inputs t (p.call inputs n) := by
  have hu := nodup_labelsOf_code_of_analyze h hcode
  induction n with
  | zero =>
    intro f args w r w' hcall
    cases hcall
  | succ n ih =>
    intro f args w r w' hcall caller c ra hpush haligned hra hworld
    unfold Program.call at hcall
    cases hprocedure : p.procedure? f with
    | none => simp [hprocedure] at hcall
    | some q =>
      simp only [hprocedure, Option.ite_none_right_eq_some, Option.map_eq_some_iff,
        Prod.mk.injEq] at hcall
      obtain ⟨hlen, ⟨ret, σ⟩, hexec, rfl, rfl⟩ := hcall
      have hq : q ∈ p.procedures := List.mem_of_find?_eq_some hprocedure
      obtain rfl : q.name = f := by simpa using List.find?_some hprocedure
      obtain ⟨g, size, hg, hplaced⟩ := exists_placed_of_analyze hpos h hq
      obtain ⟨pc, k, i, j, hk, hat, -⟩ := exists_codeAt_body hcode hq hg
      obtain ⟨c', hreach, hreturned⟩ := hplaced.comes_back hu ih (isGlobal_of_requests h hq) hk hat
        hlen hexec hpush haligned hra hworld
      exact ⟨pc, c', resolve_procLabel hu hk hat, hreach, hreturned⟩

/-- The core that a program is started with: a stack, the blocks full of zeros, and a console that
nothing was printed on or read from. The code returns to `ra`. -/
structure Starts (c : Core) (ra : Nat) : Prop where
  aligned : 4 ∣ c.regs .sp
  ra : c.regs .ra = ra
  zeros : ∀ l n, c.mem (.data l n) = 0
  reads : c.reads = 0
  printed : c.printed = ""

theorem word_mem_code (h : analyze p = .ok t) (hcode : p.code t = .ok code) {g : Global}
    (hg : g ∈ p.globals) : .word (globalLabel g.name) g.shape.words ∈ code := by
  obtain ⟨procedures, -, -, rfl⟩ := code_eq_ok hcode
  obtain ⟨-, fs, -, rfl⟩ := analyze_eq_ok_iff_hasFrame.1 h
  simp only [dataCode, List.cons_append, List.mem_cons, List.mem_append, List.mem_map]
  exact .inr (.inl (.inl ⟨g.entry, ⟨g, hg, rfl⟩, rfl⟩))

theorem startWorld_matches (h : analyze p = .ok t) (hcode : p.code t = .ok code) {c : Core}
    {ra : Nat} (hc : Starts c ra) : p.startWorld.Matches code t c := by
  refine ⟨fun x v hx => ?_, hc.reads, hc.printed⟩
  obtain ⟨g, hg, rfl⟩ := Option.map_eq_some_iff.1 hx
  have hmem : g ∈ p.globals := List.mem_of_find?_eq_some hg
  obtain rfl : g.name = x := by simpa using List.find?_some hg
  refine ⟨(isGlobal_of_analyze h).2 (List.mem_map_of_mem hmem), ?_, fun i n hi => ?_⟩
  · rw [Var.cells_ofShape, List.length_replicate]
    exact word_mem_code h hcode hmem
  · rw [Var.cells_ofShape, List.getElem?_replicate] at hi
    split_ifs at hi
    cases hi
    exact hc.zeros _ _

/-- If a run of a program ends, then its code comes back from the label of `main` with the result pushed. -/
theorem exists_reaches_of_run (hpos : p.Positive) (h : analyze p = .ok t) (hcode : p.code t = .ok code)
    {fuel : Nat} {o : Outcome} (hrun : p.run inputs fuel = some o) {c : Core} {ra : Nat}
    (hc : Starts c ra) :
    ∃ pc c', resolve code mainName = some pc ∧ Machine.Reaches code inputs ⟨pc, c⟩ ⟨ra, c'⟩ ∧
      c'.printed = unlines (o.output.map toString) ∧ c'.reads = o.reads ∧
      Core.Pushes [o.result] c c' := by
  obtain ⟨⟨r, w⟩, hcall, rfl⟩ := Option.map_eq_some_iff.1 hrun
  have hu := nodup_labelsOf_code_of_analyze h hcode
  obtain ⟨body, c', hresolve, hreach, hpush, hworld⟩ := callsReturn hpos h hcode fuel _ _ _ _ _ hcall
    c c ra (.refl c) hc.aligned hc.ra (startWorld_matches h hcode hc)
  -- the label of `main` is that of its procedure, one instruction before
  obtain ⟨q, hq, hname, -⟩ := (analyze_eq_ok_iff_hasFrame.1 h).1.main
  obtain ⟨f, size, hf, -⟩ := exists_placed_of_analyze hpos h hq
  obtain ⟨pc, k, i, j, hk, hat, hmain⟩ := exists_codeAt_body hcode hq hf
  obtain ⟨start, rfl, hstart⟩ := hmain hname
  have hbody := resolve_procLabel hu hk hat
  rw [hname, hresolve] at hbody
  obtain rfl := Option.some.inj hbody
  exact ⟨start, c', resolve_eq_some hu hstart, .trans (.of_step (step_of_effect hstart rfl)) hreach,
    hworld.printed, hworld.reads, hpush⟩

/-- If a run of a program ends, then so does its code, started at the label of `main`. It prints the
output, each value on a line, reads as many inputs, and returns with the result in the highest free
word of the stack and the stack pointer below it. -/
theorem code_preserves_run (hpos : p.Positive) (h : analyze p = .ok t) (hcode : p.code t = .ok code)
    {fuel : Nat} {o : Outcome} (hrun : p.run inputs fuel = some o) {c : Core} {ra : Nat}
    (hc : Starts c ra) :
    ∃ pc c', resolve code mainName = some pc ∧
      Machine.Reaches code inputs ⟨pc, c⟩ ⟨ra, c'⟩ ∧
      c'.printed = unlines (o.output.map toString) ∧ c'.reads = o.reads ∧
      c'.regs .sp = c.regs .sp - wordSize ∧ c'.mem (.stack (c.regs .sp)) = o.result := by
  obtain ⟨pc, c', hmain, hreach, hprinted, hreads, hpush⟩ :=
    exists_reaches_of_run hpos h hcode hrun hc
  refine ⟨pc, c', hmain, hreach, hprinted, hreads, ?_, ?_⟩
  · simpa [wordSize] using hpush.sp
  · simpa using hpush.held 0 o.result rfl

/-- Recursion, an array that is read into and a short circuit around a comparison. -/
def factorials : Program where
  globals := [⟨1, "calls", .single⟩]
  procedures := [
    ⟨2, "fact", [⟨2, "n"⟩], .block 2 [
      .assign 3 (.scalar "calls") (.binary 3 .add (.scalar 3 "calls") (.int 3 1)),
      .ifThen 4 (.binary 4 .lessEqual (.scalar 4 "n") (.int 4 1)) (.ret 4 (.int 4 1)),
      .ret 5 (.binary 5 .mul (.scalar 5 "n") (.call 5 "fact"
        [.binary 5 .sub (.scalar 5 "n") (.int 5 1)]))]⟩,
    ⟨6, "main", [], .block 6 [
      .declare 7 "xs" (.array 2),
      .declare 7 "i" .single,
      .assign 8 (.scalar "i") (.int 8 0),
      .loop 9 (.binary 9 .and (.binary 9 .greater (.int 9 2) (.scalar 9 "i")) (.bool 9 true))
        (.block 9 [
          .input 10 (.element "xs" (.scalar 10 "i")),
          .output 11 (.call 11 "fact" [.element 11 "xs" (.scalar 11 "i")]),
          .assign 12 (.scalar "i") (.binary 12 .add (.scalar 12 "i") (.int 12 1))]),
      .ret 13 (.scalar 13 "calls")]⟩]

/-- A stack of 1000 words, and a return address outside the code. -/
def emptyCore : Core where
  regs r := if r = .sp then 4000 else if r = .ra then 5000 else 0
  mem _ := 0
  reads := 0
  printed := ""

theorem factorials_code_preserves_run : ∃ t code pc c', analyze factorials = .ok t ∧
    factorials.code t = .ok code ∧ factorials.run [3, 4] 9 = some ⟨[6, 24], 7, 2⟩ ∧
    resolve code mainName = some pc ∧
    Machine.Reaches code [3, 4] ⟨pc, emptyCore⟩ ⟨5000, c'⟩ ∧ c'.printed = "6\n24\n" ∧
    c'.reads = 2 ∧ c'.regs .sp = 3996 ∧ c'.mem (.stack 4000) = 7 := by
  obtain ⟨t, ht⟩ : ∃ t, analyze factorials = .ok t := except_exists_ok_iff.2 (by decide +kernel)
  have hpos : factorials.Positive := by decide +kernel
  obtain ⟨code, hcode⟩ := exists_code_of_analyze ht (by decide +kernel)
  have hrun : factorials.run [3, 4] 9 = some ⟨[6, 24], 7, 2⟩ := by decide +kernel
  have hstart : Starts emptyCore 5000 := ⟨by decide, rfl, fun _ _ => rfl, rfl, rfl⟩
  obtain ⟨pc, c', hmain, hreach, hprinted, hreads, hsp, hresult⟩ :=
    code_preserves_run hpos ht hcode hrun hstart
  refine ⟨t, code, pc, c', ht, hcode, hrun, hmain, hreach, ?_, hreads, hsp, hresult⟩
  rw [hprinted]
  decide +kernel

end Program

end ProcMips
