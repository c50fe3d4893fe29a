import ProcMips.Proofs.CodeGen.Symbols
import ProcMips.Proofs.Machine.Assembled

/-! Programs on 32 bits. The code of a program is assembled if no global has the label of a procedure. If its
blocks and its stack have room and its run keeps to the limits of a word, then the assembled code does what
the program does, and on the way it is never anywhere else than the unbounded machine. -/

namespace ProcMips

open Mips

namespace Program

variable {p : Program} {t : Tables} {code : List Instr} {inputs : List Int}

theorem exists_assemble_of_analyze_iff (h : analyze p = .ok t) (hcode : p.code t = .ok code) (base : Nat) :
    (∃ image, assemble base code = some image) ↔
      ∀ g ∈ p.globals, ∀ q ∈ p.procedures, globalLabel g.name ≠ procLabel q.name := by
  rw [exists_assemble_iff]
  constructor
  · rintro ⟨-, -, hdisjoint⟩ g hg q hq heq
    obtain ⟨hword, hlabel⟩ := (mem_both_iff h hcode _).2 ⟨g, hg, q, hq, rfl, heq⟩
    exact hdisjoint _ hword hlabel
  · intro hnames
    refine ⟨nodup_wordsOf_code h hcode, nodup_labelsOf_code_of_analyze h hcode, fun l hword hlabel => ?_⟩
    obtain ⟨g, hg, q, hq, hglobal, hproc⟩ := (mem_both_iff h hcode l).1 ⟨hword, hlabel⟩
    exact hnames g hg q hq (hglobal.symm.trans hproc)

/-- If a run of a program ends, and its code keeps to the limits of a layout on the unbounded machine, then
the assembled code does the same from every state that agrees with the start: it prints the output, reads as
many inputs and returns with the result on the stack. Every state that it comes to agrees with one of the
unbounded machine. -/
theorem assembled_preserves_run (hpos : p.Positive) (h : analyze p = .ok t) (hcode : p.code t = .ok code)
    (hnames : ∀ g ∈ p.globals, ∀ q ∈ p.procedures, globalLabel g.name ≠ procLabel q.name) {fuel : Nat}
    {o : Outcome} (hrun : p.run inputs fuel = some o) {layout : MemoryMap code} {c : Core} {ra : Nat}
    (hc : Starts c ra) (hra : code.length ≤ ra) (hsp : layout.Covers (.stack (c.regs .sp)))
    (hfit : ∀ pc, resolve code mainName = some pc →
      layout.limits.Fits (Core.processor code inputs) code ⟨pc, c⟩) :
    ∃ image pc, assemble layout.base code = some image ∧ image.entry mainName = some pc ∧
      ∀ d, layout.Agrees image c d →
        (∃ d', image.Reaches inputs ⟨pc, d⟩ ⟨ra, d'⟩ ∧
          d'.printed = unlines (o.output.map toString) ∧ d'.reads = o.reads ∧
          d'.regs .sp = d.regs .sp - 4 ∧ d'.load (d.regs .sp) = BitVec.ofInt 32 o.result) ∧
        ∀ pc' d', image.Reaches inputs ⟨pc, d⟩ ⟨pc', d'⟩ →
          ∃ c', Machine.Reaches code inputs ⟨pc, c⟩ ⟨pc', c'⟩ ∧ layout.Agrees image c' d' := by
  obtain ⟨image, himage⟩ := (exists_assemble_of_analyze_iff h hcode layout.base).2 hnames
  obtain ⟨pc, c', hmain, hreach, hprinted, hreads, hpush⟩ :=
    exists_reaches_of_run hpos h hcode hrun hc
  have hfit := hfit pc hmain
  refine ⟨image, pc, himage, Image.entry_eq_resolve himage ▸ hmain, fun d hd => ⟨?_, fun pc' d' hd' => ?_⟩⟩
  · obtain ⟨d', hreach', hagree⟩ := MemoryMap.reaches himage hd hfit hreach
    refine ⟨d', hreach', hagree.printed.trans hprinted, hagree.reads.trans hreads, ?_, ?_⟩
    · rw [hagree.regs, hd.regs, hpush.sp, Flat.ofInt_sub]
      rfl
    · have hplace := hagree.mem (.stack (c.regs .sp)) (accessible_stack hc.aligned) hsp
      have hheld : c'.mem (.stack (c.regs .sp)) = o.result := by simpa using hpush.held 0 o.result rfl
      rw [hd.regs, ← hheld]
      exact hplace
  · exact MemoryMap.reaches_back himage hd hfit hreach (List.getElem?_eq_none hra) hd'

/-- A global that is stored to, printed and returned. -/
def storedSeven : Program where
  globals := [⟨1, "x", .single⟩]
  procedures := [⟨2, "main", [], .block 2 [
    .assign 3 (.scalar "x") (.int 3 7),
    .output 4 (.scalar 4 "x"),
    .ret 5 (.scalar 5 "x")]⟩]

/-- 1000 bytes for blocks, and a stack of 751 words above them. -/
def smallMemory {code : List Instr} (h : blockBytes code ≤ 1000) : MemoryMap code :=
  ⟨0, 1000, 4004, by omega, by decide, by decide⟩

/-- The 32-bit machine with the same stack and return address as the empty core. -/
def emptyTerminal : Flat.Terminal where
  regs r := if r = .sp then 4000 else if r = .ra then 5000 else 0
  mem _ := 0
  reads := 0
  printed := ""

theorem storedSeven_assembled : ∃ t code image pc d', analyze storedSeven = .ok t ∧
    storedSeven.code t = .ok code ∧ assemble 0 code = some image ∧ image.entry mainName = some pc ∧
    image.Reaches [] ⟨pc, emptyTerminal⟩ ⟨5000, d'⟩ ∧ d'.printed = "7\n" ∧
    d'.load (emptyTerminal.regs .sp) = 7 := by
  obtain ⟨t, ht⟩ : ∃ t, analyze storedSeven = .ok t := except_exists_ok_iff.2 (by decide +kernel)
  obtain ⟨code, hcode⟩ := exists_code_of_analyze ht (by decide +kernel)
  have hmem : code ∈ (analyze storedSeven).toOption.bind fun t => (storedSeven.code t).toOption := by
    simp [ht, hcode, Except.toOption]
  -- the run is made once, to see that it keeps to the limits
  have hmade : ∀ k ∈ (analyze storedSeven).toOption.bind fun t => (storedSeven.code t).toOption,
      k.length ≤ 5000 ∧ ∃ h : blockBytes k ≤ 1000, ∀ pc ∈ resolve k mainName,
        (smallMemory h).limits.checks (Core.processor k []) k 200 ⟨pc, emptyCore⟩ = true := by
    decide +kernel
  obtain ⟨hlength, hblocks, hchecks⟩ := hmade code hmem
  have hrun : storedSeven.run [] 2 = some ⟨[7], 7, 0⟩ := by decide +kernel
  have hstart : Starts emptyCore 5000 := ⟨by decide, rfl, fun _ _ => rfl, rfl, rfl⟩
  have hsp : (smallMemory hblocks).Covers (.stack 4000) := ⟨by simp [smallMemory], by simp [smallMemory]⟩
  obtain ⟨image, pc, himage, hentry, hall⟩ := assembled_preserves_run (by decide +kernel) ht hcode
    (by decide +kernel) hrun hstart hlength hsp fun pc hpc => Limits.fits_of_checks (hchecks pc hpc)
  have hzero : 0#8 ++ 0#8 ++ 0#8 ++ 0#8 = 0#32 := by decide
  have hagree : (smallMemory hblocks).Agrees image emptyCore emptyTerminal :=
    ⟨fun r => by cases r <;> rfl, fun _ _ _ => hzero, rfl, rfl⟩
  obtain ⟨⟨d', hreach, hprinted, -, -, hresult⟩, -⟩ := hall _ hagree
  refine ⟨t, code, image, pc, d', ht, hcode, himage, hentry, hreach, ?_, hresult⟩
  rw [hprinted]
  decide +kernel

end Program

end ProcMips
