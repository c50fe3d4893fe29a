import ProcMips.Proofs.CodeGen.Success
import ProcMips.Proofs.CommandLine.Reports
import ProcMips.Proofs.Pipeline

/-! A run over a text does what the stages of a compilation do. What is selected for the traces and the log
decides nothing of it, so all is said of runs without them. -/

namespace ProcMips

namespace Outcome

variable {o : Outcome} {f : RunFailure}

/-- The code of the failure. -/
def code? (o : Outcome) : Option Nat := o.failure?.bind RunFailure.code?

theorem code?_of_failure (h : o.failure? = some f) : o.code? = f.code? := by rw [code?, h]; rfl

theorem status_of_failure (h : o.failure? = some f) : o.status = f.status := by rw [status, h]; rfl

/-- The second code is the one for a missing procedure. -/
theorem code?_ne_two (h : o.failure? ≠ some .noProcedures) : o.code? ≠ some 2 := by
  intro hcode
  obtain ⟨f, hf, htwo⟩ := Option.bind_eq_some_iff.1 hcode
  cases f with
  | noProcedures => exact h hf
  | _ => cases htwo

theorem status_eq_zero_iff : o.status = 0 ↔ o.failure? = none := by
  cases h : o.failure? with
  | none => simp [status, h]
  | some f => cases f <;> simp [status_of_failure h, RunFailure.status]

end Outcome

namespace CompileFailure

/-- How a run fails over a text that does not compile. -/
def ofRun : CompileFailure → RunFailure
  | lexer _ => .lexer
  | parser _ => .parser
  | semantic _ => .semantic
  | overflow _ | code _ => .internal

/-- The code of the stage that failed. -/
def code? : CompileFailure → Option Nat
  | lexer _ => some 5
  | parser _ => some 3
  | semantic _ => some 1
  | overflow _ | code _ => none

theorem code?_ofRun (f : CompileFailure) : f.ofRun.code? = f.code? := by cases f <;> rfl

/-- What such a run prints. -/
def shown : CompileFailure → List String
  | overflow _ | code _ => []
  | f => [f.message]

end CompileFailure

theorem Program.exists_assembly_of_analyze (p : Program) {t : Tables} (h : analyze p = .ok t)
    (hlabels : p.labels < labelLimit) : ∃ asm, p.assembly t = .ok asm := by
  obtain ⟨code, hcode⟩ := exists_code_of_analyze h hlabels
  exact ⟨Mips.codeText code, by rw [assembly, hcode]; rfl⟩

/-- The stages have a code each, the generation of code apart, which does not fail. -/
theorem exists_code?_of_compile_error {text : String} {f : CompileFailure}
    (hlabels : ∀ p, programOf text = .ok p → p.labels < labelLimit) (h : compile text = .error f) :
    ∃ n, f.code? = some n := by
  cases failsAt_of_compile_error h with
  | lexer hl => exact ⟨5, rfl⟩
  | parser hl he => exact ⟨3, rfl⟩
  | analysis hp he => exact ⟨1, rfl⟩
  | code hp ht he =>
    obtain ⟨asm, hasm⟩ := Program.exists_assembly_of_analyze _ ht (hlabels _ hp)
    cases he.symm.trans hasm

namespace Settings

variable {lib : Libraries} {s : Settings} {text content : String} {p : Program} {t : Tables}

theorem runAnalysis_of_rejected {e : Located SemanticError} (o : Outcome)
    (h : analyze p = .error (.rejected e)) : s.quiet.runAnalysis lib p o =
      (o.record (Event.ofAnalysis p)).failWith .semantic [(CompileFailure.semantic e).message] := by
  simp only [runAnalysis, h, reportAll_quiet]

theorem runAnalysis_of_accepted (o : Outcome) (h : analyze p = .ok t) : s.quiet.runAnalysis lib p o =
    s.quiet.runAccepted lib p t ((o.record (Event.ofAnalysis p)).complete .semantic) := by
  simp only [runAnalysis, h, reportAll_quiet]

theorem runCode_of_assembly {asm : String} (o : Outcome) (h : p.assembly t = .ok asm) :
    s.quiet.runCode lib p t o = ((o.record (Event.ofCode p)).write asm).complete .codegen := by
  simp only [runCode, h, reportAll_quiet]

/-- A run that has read a program. -/
def parsedOutcome (text : String) : Outcome :=
  ⟨[], .tokenizing text.length :: Event.ofParsing (tokenize text).tokens, [.lexer, .parser], none, none⟩

theorem run_of_lexError {e : Located LexError} (h : (tokenize text).error? = some e) :
    s.quiet.run lib text =
      ⟨[(CompileFailure.lexer e).message], [.tokenizing text.length], [], none, some .lexer⟩ := by
  simp only [run, Lexed.toExcept, h, lexReports_quiet, reportAll_quiet]
  rfl

theorem run_of_stopped (h : (tokenize text).error? = none) (hstage : s.stage? = some .lexer) :
    s.quiet.run lib text = ⟨[], [.tokenizing text.length], [.lexer], none, none⟩ := by
  simp only [run, Lexed.toExcept, h, lexReports_quiet, reportAll_quiet, show s.quiet.stage? = _ from hstage,
    if_true]
  rfl

theorem run_of_tokens (h : (tokenize text).error? = none) (hstage : s.stage? ≠ some .lexer) :
    s.quiet.run lib text = s.quiet.runParser lib (tokenize text).tokens
      ⟨[], [.tokenizing text.length], [.lexer], none, none⟩ := by
  simp only [run, Lexed.toExcept, h, lexReports_quiet, reportAll_quiet,
    show s.quiet.stage? = s.stage? from rfl, hstage, if_false]
  rfl

theorem run_of_parseError {e : Located ParseError} (hl : (tokenize text).error? = none)
    (h : parse (tokenize text).tokens = .error e) (hstage : s.stage? ≠ some .lexer) :
    s.quiet.run lib text = ⟨[(CompileFailure.parser e).message],
      .tokenizing text.length :: Event.ofParsing (tokenize text).tokens, [.lexer], none, some .parser⟩ := by
  simp only [run_of_tokens hl hstage, runParser, h, parseReports_quiet, reportAll_quiet]
  rfl

/-- The parser gives no program without procedures. -/
theorem run_of_program (h : programOf text = .ok p) (hstage : s.stage? ≠ some .lexer) :
    s.quiet.run lib text = s.quiet.runProgram lib p (parsedOutcome text) := by
  obtain ⟨hl, hp⟩ := programOf_eq_ok_iff.1 h
  have hne := procedures_ne_nil_of_parse hp
  simp only [run_of_tokens hl hstage, runParser, hp, parseReports_quiet, reportAll_quiet,
    List.isEmpty_iff, hne, if_false]
  rfl

/-- How far a run gets before analysis. -/
inductive Reach (s : Settings) (text : String) : Prop
  | notLexed {e : Located LexError} (h : (tokenize text).error? = some e)
  | stopped (hl : (tokenize text).error? = none) (hstage : s.stage? = some .lexer)
  | notParsed {e : Located ParseError} (hl : (tokenize text).error? = none)
    (h : parse (tokenize text).tokens = .error e) (hstage : s.stage? ≠ some .lexer)
  | parsed (p : Program) (hp : programOf text = .ok p) (hstage : s.stage? ≠ some .lexer)

theorem reach (s : Settings) (text : String) : s.Reach text := by
  cases hl : (tokenize text).error? with
  | some e => exact .notLexed hl
  | none =>
    by_cases hstage : s.stage? = some .lexer
    · exact .stopped hl hstage
    · cases hp : parse (tokenize text).tokens with
      | error e => exact .notParsed hl hp hstage
      | ok p => exact .parsed p (programOf_eq_ok_iff.2 ⟨hl, hp⟩) hstage

/-- What a run over a text writes. -/
inductive Writes (lib : Libraries) (s : Settings) (text : String) : String → Prop
  | ast {p : Program} (hp : programOf text = .ok p) (hlexer : s.stage? ≠ some .lexer)
    (hemit : s.emit = .ast) : Writes lib s text p.treeText
  | dot {p : Program} (hp : programOf text = .ok p) (hlexer : s.stage? ≠ some .lexer)
    (hemit : s.emit = .dot) : Writes lib s text p.graphText
  | tablesJson {p : Program} {t : Tables} {json : String} (hp : programOf text = .ok p)
    (ht : analyze p = .ok t) (hjson : lib.prettyJson t.document = .ok json)
    (hlexer : s.stage? ≠ some .lexer) (hparser : s.stage? ≠ some .parser)
    (hemit : s.emit = .tablesJson) : Writes lib s text (json ++ "\n")
  | tablesYaml {p : Program} {t : Tables} {yaml : String} (hp : programOf text = .ok p)
    (ht : analyze p = .ok t) (hyaml : lib.yaml t.document = .ok yaml)
    (hlexer : s.stage? ≠ some .lexer) (hparser : s.stage? ≠ some .parser)
    (hemit : s.emit = .tablesYaml) : Writes lib s text (yaml ++ "\n")
  | asm {asm : String} (h : compile text = .ok asm) (hstage : s.stage? = none)
    (hemit : s.emit = .asm) : Writes lib s text asm

theorem Writes.run_quiet (h : s.Writes lib text content) :
    (s.quiet.run lib text).output? = some content ∧ (s.quiet.run lib text).failure? = none := by
  have hquiet : s.quiet.emit = s.emit ∧ s.quiet.stage? = s.stage? := ⟨rfl, rfl⟩
  cases h with
  | ast hp hlexer hemit | dot hp hlexer hemit =>
    rw [run_of_program hp hlexer]
    simp only [runProgram, hquiet, hemit]
    exact ⟨rfl, rfl⟩
  | tablesJson hp ht hwritten hlexer hparser hemit | tablesYaml hp ht hwritten hlexer hparser hemit =>
    rw [run_of_program hp hlexer]
    simp only [runProgram, hquiet, hemit, hparser, if_false, runAnalysis_of_accepted _ ht, runAccepted,
      runTables, hwritten]
    exact ⟨rfl, rfl⟩
  | asm h hstage hemit =>
    obtain ⟨p, t, hp, ht, hasm⟩ := compile_eq_ok_iff.1 h
    have hlexer : s.stage? ≠ some .lexer := by simp [hstage]
    rw [run_of_program hp hlexer]
    simp only [runProgram, hquiet, hemit, hstage, reduceCtorEq, if_false, runAnalysis_of_accepted _ ht,
      runAccepted, runCode_of_assembly _ hasm]
    exact ⟨rfl, rfl⟩

theorem Writes.run (h : s.Writes lib text content) :
    (s.run lib text).output? = some content ∧ (s.run lib text).failure? = none := by
  rw [run_eq_behind]
  exact h.run_quiet

/-- What is asked for is written if the text gets far enough for it, the count of labels aside. -/
theorem exists_writes_iff (hlib : lib.TakesDocuments)
    (hlabels : ∀ p, programOf text = .ok p → p.labels < labelLimit) :
    (∃ content, s.Writes lib text content) ↔ ∃ p, programOf text = .ok p ∧ s.stage? ≠ some .lexer ∧
      (s.emit = .ast ∨ s.emit = .dot ∨ ∃ t, analyze p = .ok t ∧
        ((s.emit = .tablesJson ∨ s.emit = .tablesYaml) ∧ s.stage? ≠ some .parser ∨
          s.emit = .asm ∧ s.stage? = none)) := by
  constructor
  · rintro ⟨content, hw⟩
    cases hw with
    | ast hp hlexer hemit => exact ⟨_, hp, hlexer, .inl hemit⟩
    | dot hp hlexer hemit => exact ⟨_, hp, hlexer, .inr (.inl hemit)⟩
    | tablesJson hp ht hjson hlexer hparser hemit =>
      exact ⟨_, hp, hlexer, .inr (.inr ⟨_, ht, .inl ⟨.inl hemit, hparser⟩⟩)⟩
    | tablesYaml hp ht hyaml hlexer hparser hemit =>
      exact ⟨_, hp, hlexer, .inr (.inr ⟨_, ht, .inl ⟨.inr hemit, hparser⟩⟩)⟩
    | asm h hstage hemit =>
      obtain ⟨p, t, hp, ht, -⟩ := compile_eq_ok_iff.1 h
      exact ⟨p, hp, by simp [hstage], .inr (.inr ⟨t, ht, .inr ⟨hemit, hstage⟩⟩)⟩
  · rintro ⟨p, hp, hlexer, hemit | hemit | ⟨t, ht, ⟨hemit | hemit, hparser⟩ | ⟨hemit, hstage⟩⟩⟩
    · exact ⟨_, .ast hp hlexer hemit⟩
    · exact ⟨_, .dot hp hlexer hemit⟩
    · obtain ⟨json, hjson⟩ := hlib.prettyJson t.document
      exact ⟨_, .tablesJson hp ht hjson hlexer hparser hemit⟩
    · obtain ⟨yaml, hyaml⟩ := hlib.yaml t.document
      exact ⟨_, .tablesYaml hp ht hyaml hlexer hparser hemit⟩
    · obtain ⟨asm, hasm⟩ := p.exists_assembly_of_analyze ht (hlabels p hp)
      exact ⟨asm, .asm (compile_eq_ok_iff.2 ⟨p, t, hp, ht, hasm⟩) hstage hemit⟩

theorem output?_runTables {written : Except String String} {o : Outcome} (ho : o.output? = none)
    (h : (runTables written o).output? = some content) :
    ∃ out, written = .ok out ∧ content = out ++ "\n" := by
  unfold runTables at h
  cases written with
  | error message => cases ho.symm.trans h
  | ok out =>
    cases h
    exact ⟨out, rfl, rfl⟩

theorem writes_of_runAccepted {o : Outcome} (hp : programOf text = .ok p) (ht : analyze p = .ok t)
    (hlexer : s.stage? ≠ some .lexer) (hparser : s.stage? ≠ some .parser) (ho : o.output? = none)
    (hast : s.emit ≠ .ast) (hdot : s.emit ≠ .dot)
    (h : (s.quiet.runAccepted lib p t o).output? = some content) : s.Writes lib text content := by
  unfold runAccepted at h
  split at h
  · obtain ⟨json, hjson, rfl⟩ := output?_runTables ho h
    exact .tablesJson hp ht hjson hlexer hparser ‹_›
  · obtain ⟨yaml, hyaml, rfl⟩ := output?_runTables ho h
    exact .tablesYaml hp ht hyaml hlexer hparser ‹_›
  · rename_i hjson hyaml
    have hemit : s.emit = .asm := by
      cases hs : s.emit with
      | asm => rfl
      | ast => exact absurd hs hast
      | dot => exact absurd hs hdot
      | tablesJson => exact absurd hs hjson
      | tablesYaml => exact absurd hs hyaml
    split at h
    · cases ho.symm.trans h
    · rename_i hsemantic
      have hstage : s.stage? = none := by
        cases hs : s.stage? with
        | none => rfl
        | some stage =>
          cases stage with
          | lexer => exact absurd hs hlexer
          | parser => exact absurd hs hparser
          | semantic => exact absurd hs hsemantic
      cases hasm : p.assembly t with
      | error e =>
        simp only [runCode, hasm] at h
        cases ho.symm.trans h
      | ok asm =>
        rw [runCode_of_assembly _ hasm] at h
        cases h
        exact .asm (compile_eq_ok_iff.2 ⟨p, t, hp, ht, hasm⟩) hstage hemit

theorem writes_of_runProgram {o : Outcome} (hp : programOf text = .ok p)
    (hlexer : s.stage? ≠ some .lexer) (ho : o.output? = none)
    (h : (s.quiet.runProgram lib p o).output? = some content) : s.Writes lib text content := by
  unfold runProgram at h
  split at h
  · cases h
    exact .ast hp hlexer ‹_›
  · cases h
    exact .dot hp hlexer ‹_›
  · rename_i hast hdot
    split at h
    · cases ho.symm.trans h
    · cases ht : analyze p with
      | ok t =>
        have hout : ((o.record (Event.ofAnalysis p)).complete .semantic).output? = none := ho
        rw [runAnalysis_of_accepted _ ht] at h
        exact writes_of_runAccepted hp ht hlexer ‹_› hout hast hdot h
      | error f =>
        obtain ⟨e, rfl⟩ :=
          Program.exists_rejected_of_analyze (positive_of_parse (programOf_eq_ok_iff.1 hp).2) ht
        rw [runAnalysis_of_rejected _ ht] at h
        cases ho.symm.trans h

theorem output?_run_eq_some_iff :
    (s.run lib text).output? = some content ↔ s.Writes lib text content := by
  refine ⟨fun h => ?_, fun h => h.run.1⟩
  rw [run_eq_behind] at h
  change (s.quiet.run lib text).output? = some content at h
  cases s.reach text with
  | notLexed hl => rw [run_of_lexError hl] at h; cases h
  | stopped hl hstage => rw [run_of_stopped hl hstage] at h; cases h
  | notParsed hl he hstage => rw [run_of_parseError hl he hstage] at h; cases h
  | parsed p hp hstage =>
    rw [run_of_program hp hstage] at h
    exact writes_of_runProgram hp hstage rfl h

/-- A run for assembly behind the parser is that of analysis. -/
theorem run_of_program_asm (hp : programOf text = .ok p) (hstage : s.stage? = none)
    (hemit : s.emit = .asm) :
    s.quiet.run lib text = s.quiet.runAnalysis lib p (parsedOutcome text) := by
  have hquiet : s.quiet.emit = s.emit ∧ s.quiet.stage? = s.stage? := ⟨rfl, rfl⟩
  rw [run_of_program hp (by simp [hstage])]
  simp [runProgram, hquiet, hemit, hstage]

theorem runAccepted_asm (hstage : s.stage? = none) (hemit : s.emit = .asm) (o : Outcome) :
    s.quiet.runAccepted lib p t o = s.quiet.runCode lib p t o := by
  have hquiet : s.quiet.emit = s.emit ∧ s.quiet.stage? = s.stage? := ⟨rfl, rfl⟩
  simp [runAccepted, hquiet, hemit, hstage]

/-- A run for assembly fails as the compilation of the text does. -/
theorem run_of_compile_error (lib : Libraries) {f : CompileFailure} (hstage : s.stage? = none)
    (hemit : s.emit = .asm) (h : compile text = .error f) :
    (s.run lib text).printed = s.seen lib text ++ f.shown ∧
      (s.run lib text).failure? = some f.ofRun := by
  have hlexer : s.stage? ≠ some .lexer := by simp [hstage]
  suffices hquiet : (s.quiet.run lib text).printed = f.shown ∧
      (s.quiet.run lib text).failure? = some f.ofRun by
    rw [run_eq_behind]
    exact ⟨congrArg _ hquiet.1, hquiet.2⟩
  cases failsAt_of_compile_error h with
  | lexer hl =>
    rw [run_of_lexError hl]
    exact ⟨rfl, rfl⟩
  | parser hl he =>
    rw [run_of_parseError hl he hlexer]
    exact ⟨rfl, rfl⟩
  | analysis hp he =>
    rw [run_of_program_asm hp hstage hemit, runAnalysis_of_rejected _ he]
    exact ⟨rfl, rfl⟩
  | code hp ht he =>
    rw [run_of_program_asm hp hstage hemit, runAnalysis_of_accepted _ ht, runAccepted_asm hstage hemit]
    simp only [runCode, he]
    exact ⟨rfl, rfl⟩

/-- Tables that their format refuses are not written, and the message is all that a run prints of it. -/
theorem run_of_refused_tables {message : String} (hp : programOf text = .ok p) (ht : analyze p = .ok t)
    (hlexer : s.stage? ≠ some .lexer) (hparser : s.stage? ≠ some .parser)
    (h : s.emit = .tablesJson ∧ lib.prettyJson t.document = .error message ∨
      s.emit = .tablesYaml ∧ lib.yaml t.document = .error message) :
    (s.run lib text).printed = s.seen lib text ++ [message] ∧
      (s.run lib text).failure? = some .writing ∧ (s.run lib text).output? = none := by
  have hquiet : s.quiet.emit = s.emit ∧ s.quiet.stage? = s.stage? := ⟨rfl, rfl⟩
  rw [run_eq_behind, run_of_program hp hlexer]
  obtain ⟨hemit, hrefused⟩ | ⟨hemit, hrefused⟩ := h
  all_goals
    simp only [runProgram, hquiet, hemit, hparser, if_false, runAnalysis_of_accepted _ ht, runAccepted,
      runTables, hrefused]
    exact ⟨rfl, rfl, rfl⟩

theorem log_runCode (o : Outcome) :
    (s.quiet.runCode lib p t o).log = o.log ++ codeLog p t := by
  unfold runCode codeLog
  cases p.assembly t with
  | error e => exact (List.append_nil _).symm
  | ok asm =>
    dsimp only
    rw [reportAll_quiet]
    rfl

theorem log_runTables (written : Except String String) (o : Outcome) :
    (runTables written o).log = o.log := by
  cases written <;> rfl

theorem log_runAccepted_prefix (o : Outcome) :
    (s.quiet.runAccepted lib p t o).log <+: o.log ++ codeLog p t := by
  unfold runAccepted
  split
  · rw [log_runTables]
    exact List.prefix_append _ _
  · rw [log_runTables]
    exact List.prefix_append _ _
  · split
    · exact List.prefix_append _ _
    · rewrite [log_runCode]
      exact List.prefix_rfl

theorem log_runAnalysis_prefix (o : Outcome) :
    (s.quiet.runAnalysis lib p o).log <+: o.log ++ programLog p := by
  unfold runAnalysis programLog
  rw [reportAll_quiet, ← List.append_assoc]
  cases analyze p with
  | error f => cases f <;> exact List.prefix_append _ _
  | ok t => exact log_runAccepted_prefix _

theorem log_runProgram_prefix (o : Outcome) :
    (s.quiet.runProgram lib p o).log <+: o.log ++ programLog p := by
  unfold runProgram
  split
  · exact List.prefix_append _ _
  · exact List.prefix_append _ _
  · split
    · exact List.prefix_append _ _
    · exact log_runAnalysis_prefix o

theorem compileLog_of_program (hp : programOf text = .ok p) :
    compileLog text = (parsedOutcome text).log ++ programLog p := by
  obtain ⟨hl, hp⟩ := programOf_eq_ok_iff.1 hp
  simp only [compileLog, Lexed.toExcept, hl, hp]
  rfl

/-- A run comes to the first events of the compilation, in their order. -/
theorem log_run_prefix (lib : Libraries) (s : Settings) (text : String) :
    (s.run lib text).log <+: compileLog text := by
  rw [run_eq_behind]
  change (s.quiet.run lib text).log <+: _
  cases s.reach text with
  | notLexed hl =>
    rw [run_of_lexError hl]
    exact List.prefix_append _ _
  | stopped hl hstage =>
    rw [run_of_stopped hl hstage]
    exact List.prefix_append _ _
  | notParsed hl he hstage =>
    rw [run_of_parseError hl he hstage]
    simp only [compileLog, Lexed.toExcept, hl, he, List.append_nil, List.prefix_rfl]
  | parsed p hp hstage =>
    rw [run_of_program hp hstage, compileLog_of_program hp]
    exact log_runProgram_prefix _

/-- A run for assembly comes to all of them. -/
theorem log_run_asm (lib : Libraries) (text : String) (hstage : s.stage? = none) (hemit : s.emit = .asm) :
    (s.run lib text).log = compileLog text := by
  rw [run_eq_behind]
  change (s.quiet.run lib text).log = _
  cases s.reach text with
  | notLexed hl =>
    rw [run_of_lexError hl]
    simp only [compileLog, Lexed.toExcept, hl]
  | stopped hl hlexer => cases hstage.symm.trans hlexer
  | notParsed hl he hlexer =>
    rw [run_of_parseError hl he hlexer]
    simp only [compileLog, Lexed.toExcept, hl, he, List.append_nil]
  | parsed p hp hlexer =>
    rw [run_of_program_asm hp hstage hemit, compileLog_of_program hp, programLog, ← List.append_assoc]
    cases ht : analyze p with
    | error f =>
      obtain ⟨e, rfl⟩ :=
        Program.exists_rejected_of_analyze (positive_of_parse (programOf_eq_ok_iff.1 hp).2) ht
      rw [runAnalysis_of_rejected _ ht]
      exact (List.append_nil _).symm
    | ok t =>
      rw [runAnalysis_of_accepted _ ht, runAccepted_asm hstage hemit, log_runCode]
      rfl

theorem failure?_runCode_ne {o : Outcome} (ho : o.failure? ≠ some .noProcedures) :
    (s.quiet.runCode lib p t o).failure? ≠ some .noProcedures := by
  unfold runCode
  split
  · nofun
  · rw [reportAll_quiet]
    exact ho

theorem failure?_runTables_ne {written : Except String String} {o : Outcome}
    (ho : o.failure? ≠ some .noProcedures) :
    (runTables written o).failure? ≠ some .noProcedures := by
  unfold runTables
  split
  · nofun
  · exact ho

theorem failure?_runAnalysis_ne {o : Outcome} (ho : o.failure? ≠ some .noProcedures) :
    (s.quiet.runAnalysis lib p o).failure? ≠ some .noProcedures := by
  unfold runAnalysis
  dsimp only
  rw [reportAll_quiet]
  split
  · nofun
  · nofun
  · unfold runAccepted
    split
    · exact failure?_runTables_ne ho
    · exact failure?_runTables_ne ho
    · split
      · exact ho
      · exact failure?_runCode_ne ho

/-- No run fails for want of procedures: the parser asks for one. -/
theorem failure?_run_ne (lib : Libraries) (s : Settings) (text : String) :
    (s.run lib text).failure? ≠ some .noProcedures := by
  rw [run_eq_behind]
  change (s.quiet.run lib text).failure? ≠ _
  cases s.reach text with
  | notLexed hl => rw [run_of_lexError hl]; nofun
  | stopped hl hstage => rw [run_of_stopped hl hstage]; nofun
  | notParsed hl he hstage => rw [run_of_parseError hl he hstage]; nofun
  | parsed p hp hstage =>
    rw [run_of_program hp hstage]
    unfold runProgram
    split
    · nofun
    · nofun
    · split
      · nofun
      · exact failure?_runAnalysis_ne nofun

end Settings

end ProcMips
