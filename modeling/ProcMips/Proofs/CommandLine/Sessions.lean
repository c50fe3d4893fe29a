import ProcMips.CommandLine.Session
import ProcMips.Proofs.CommandLine.Files
import ProcMips.Proofs.CommandLine.Runs

/-! A session whose input can be read does what the stages of a compilation do. Its traces and its log
show in what it prints, and nowhere else. -/

namespace ProcMips

/-- The same values for all options but those for the traces and the log. -/
def Matches.SameButTraces (m m' : Matches) : Prop :=
  ∀ o, o ≠ .log → o ≠ .traceLexer → o ≠ .traceParser → m' o = m o

/-- What the options take from the values that are not for the traces and the log. -/
theorem Options.ofMatches_eq_ok {m : Matches} {o : Options} (h : ofMatches m = .ok o) :
    m .input = some o.input ∧ m.output = o.output ∧ m.stage? = .ok o.stage? ∧ m.emit = .ok o.emit := by
  unfold ofMatches at h
  obtain ⟨stage?, hstage, h⟩ := except_bind_eq_ok.1 h
  obtain ⟨emit, hemit, h⟩ := except_bind_eq_ok.1 h
  dsimp only at h
  split at h
  · cases h
    exact ⟨‹_›, rfl, hstage, hemit⟩
  · obtain ⟨-, -, h⟩ := except_bind_eq_ok.1 h
    obtain ⟨-, -, h⟩ := except_bind_eq_ok.1 h
    cases h

theorem Options.quiet_of_settings {o : Options} {s : Settings} (h : o.settings = .ok s) :
    s.quiet = ⟨o.stage?, o.emit, none, .off, .off⟩ := by
  unfold settings at h
  obtain ⟨lexer, -, h⟩ := except_bind_eq_ok.1 h
  obtain ⟨parser, -, h⟩ := except_bind_eq_ok.1 h
  cases h
  rfl

/-- A quiet run is told by the values that are not for the traces and the log. -/
theorem Matches.SameButTraces.options {m m' : Matches} {o o' : Options} (h : m.SameButTraces m')
    (ho : Options.ofMatches m = .ok o) (ho' : Options.ofMatches m' = .ok o') :
    o'.input = o.input ∧ o'.output = o.output ∧ o'.stage? = o.stage? ∧ o'.emit = o.emit := by
  obtain ⟨hinput, houtput, hstage, hemit⟩ := Options.ofMatches_eq_ok ho
  obtain ⟨hinput', houtput', hstage', hemit'⟩ := Options.ofMatches_eq_ok ho'
  rw [h .input nofun nofun nofun, hinput, Option.some.injEq] at hinput'
  rw [output, h .output nofun nofun nofun] at houtput'
  rw [stage?, h .stage nofun nofun nofun] at hstage'
  rw [emit, h .emit nofun nofun nofun] at hemit'
  exact ⟨hinput'.symm, houtput'.symm.trans houtput, Except.ok.inj (hstage'.symm.trans hstage),
    Except.ok.inj (hemit'.symm.trans hemit)⟩

namespace Session

variable {lib : Libraries} {files : FileTree} {m : Matches} {o : Options} {s : Settings}
  {outcome : Outcome} {path text content : String}

/-- The same session, with lines printed before all others. -/
def behind (r : Session) (lines : List String) : Session :=
  { r with outcome := r.outcome.behind lines }

/-- A run and the writing of its output. -/
def ofRun (files : FileTree) (path : String) (outcome : Outcome) : Session :=
  match outcome.output? with
  | none => ofOutcome outcome files ""
  | some text => store files outcome path text

theorem write_behind (files : FileTree) (outcome : Outcome) (lines : List String)
    (path text : String) :
    write files (outcome.behind lines) path text = (write files outcome path text).behind lines := by
  unfold write
  split
  · rw [Outcome.behind_failToCreate]; rfl
  · rw [Outcome.behind_failToStore]; rfl
  all_goals rfl

theorem store_behind (files : FileTree) (outcome : Outcome) (lines : List String)
    (path text : String) :
    store files (outcome.behind lines) path text = (store files outcome path text).behind lines := by
  unfold store
  split
  · exact write_behind files outcome lines path text
  · split
    · rw [Outcome.behind_failToCreate]; rfl
    · exact write_behind _ outcome lines path text

theorem failure?_write_ne (h : outcome.failure? ≠ some .noProcedures) :
    (write files outcome path text).outcome.failure? ≠ some .noProcedures := by
  unfold write
  split
  · nofun
  · nofun
  all_goals exact h

theorem failure?_store_ne (h : outcome.failure? ≠ some .noProcedures) :
    (store files outcome path text).outcome.failure? ≠ some .noProcedures := by
  unfold store
  split
  · exact failure?_write_ne h
  · split
    · nofun
    · exact failure?_write_ne h

theorem ofRun_of_none (h : outcome.output? = none) :
    ofRun files path outcome = ofOutcome outcome files "" := by
  simp only [ofRun, h]

theorem ofRun_of_some (h : outcome.output? = some content) :
    ofRun files path outcome = store files outcome path content := by
  simp only [ofRun, h]

theorem ofRun_behind (files : FileTree) (path : String) (outcome : Outcome) (lines : List String) :
    ofRun files path (outcome.behind lines) = (ofRun files path outcome).behind lines := by
  cases h : outcome.output? with
  | none =>
    have hbehind : (outcome.behind lines).output? = none := h
    rw [ofRun_of_none h, ofRun_of_none hbehind]
    rfl
  | some text =>
    have hbehind : (outcome.behind lines).output? = some text := h
    rw [ofRun_of_some h, ofRun_of_some hbehind, store_behind]

/-- What is stored at a path is read there. -/
theorem store_of_writable (hpath : files.Writable path) (outcome : Outcome) (content : String) :
    ∃ files', store files outcome path content = ofOutcome outcome files' "" ∧
      files'.read path = .ok content := by
  obtain ⟨made, p, hmade, htarget⟩ := hpath
  refine ⟨made.put p (.file content), ?_, FileTree.read_put_of_target htarget⟩
  unfold store
  split
  · rw [‹Path.directories path = []›] at hmade
    cases hmade
    simp only [write, htarget]
  · rw [‹Path.directories path = _›] at hmade
    simp only [hmade, write, htarget]

/-- The values of the options are valid, and the input is a text. -/
structure Reads (files : FileTree) (m : Matches) (o : Options) (s : Settings) (text : String) :
    Prop where
  options : Options.ofMatches m = .ok o
  settings : o.settings = .ok s
  input : files.read o.input = .ok text

namespace Reads

theorem start (h : Reads files m o s text) (lib : Libraries) :
    Session.start lib files m = ofRun files o.output (s.run lib text) := by
  simp only [Session.start, h.options, Options.run, h.settings, h.input]
  rfl

/-- The same session with other traces and another log. -/
theorem retraced (h : Reads files m o s text) {m' : Matches} {o' : Options} {s' : Settings}
    (hsame : m.SameButTraces m') (ho' : Options.ofMatches m' = .ok o') (hs' : o'.settings = .ok s') :
    Reads files m' o' s' text ∧ o'.output = o.output ∧ s'.quiet = s.quiet := by
  obtain ⟨hinput, houtput, hstage, hemit⟩ := hsame.options h.options ho'
  refine ⟨⟨ho', hs', hinput ▸ h.input⟩, houtput, ?_⟩
  rw [Options.quiet_of_settings h.settings, Options.quiet_of_settings hs', hstage, hemit]

theorem start_eq_behind (h : Reads files m o s text) (lib : Libraries) : Session.start lib files m =
    (ofRun files o.output (s.quiet.run lib text)).behind (s.seen lib text) := by
  rw [h.start, Settings.run_eq_behind, ofRun_behind]

theorem code?_start_ne (h : Reads files m o s text) :
    (Session.start lib files m).outcome.code? ≠ some 2 := by
  have hfailure := s.failure?_run_ne lib text
  rw [h.start]
  refine Outcome.code?_ne_two ?_
  unfold ofRun
  split
  · exact hfailure
  · exact failure?_store_ne hfailure

/-- The run is carried out, and what it writes is found at the output. -/
theorem exists_files (h : Reads files m o s text) (lib : Libraries) (hpath : files.Writable o.output) :
    ∃ files', Session.start lib files m = ofOutcome (s.run lib text) files' "" ∧
      (∀ content, s.Writes lib text content → files'.read o.output = .ok content) ∧
      ((∀ content, ¬s.Writes lib text content) → files' = files) := by
  rw [h.start]
  cases hout : (s.run lib text).output? with
  | none =>
    refine ⟨files, ofRun_of_none hout, fun content hw => ?_, fun _ => rfl⟩
    cases hout.symm.trans hw.run.1
  | some content =>
    obtain ⟨files', hstore, hread⟩ := store_of_writable hpath (s.run lib text) content
    refine ⟨files', (ofRun_of_some hout).trans hstore, fun content' hw => ?_, fun hnot => ?_⟩
    · cases hout.symm.trans hw.run.1
      exact hread
    · exact absurd (Settings.output?_run_eq_some_iff.1 hout) (hnot content)

/-- A session for assembly ends well with a text in its output exactly if the input compiles to it. -/
theorem compiles_iff (h : Reads files m o s text) (hpath : files.Writable o.output)
    (hstage : s.stage? = none) (hemit : s.emit = .asm) (asm : String) :
    ((Session.start lib files m).status = 0 ∧
      (Session.start lib files m).files.read o.output = .ok asm) ↔ compile text = .ok asm := by
  obtain ⟨files', hrun, hread, -⟩ := h.exists_files lib hpath
  rw [hrun]
  constructor
  · rintro ⟨hstatus, hfile⟩
    cases hcompile : compile text with
    | ok asm' =>
      cases hfile.symm.trans (hread asm' (.asm hcompile hstage hemit))
      rfl
    | error f =>
      obtain ⟨-, hfailure⟩ := Settings.run_of_compile_error lib hstage hemit hcompile
      cases hfailure.symm.trans (Outcome.status_eq_zero_iff.1 hstatus)
  · intro hcompile
    have hw : s.Writes lib text asm := .asm hcompile hstage hemit
    exact ⟨Outcome.status_eq_zero_iff.2 hw.run.2, hread asm hw⟩

/-- A session for assembly over a text that does not compile leaves the files alone. -/
theorem start_of_compile_error (h : Reads files m o s text) (hpath : files.Writable o.output)
    (hstage : s.stage? = none) (hemit : s.emit = .asm) {f : CompileFailure} {n : Nat}
    (hf : compile text = .error f) (hn : f.code? = some n) :
    (Session.start lib files m).files = files ∧
      (Session.start lib files m).outcome.printed = s.seen lib text ++ [f.message] ∧
      (Session.start lib files m).outcome.code? = some n ∧ (Session.start lib files m).status = 1 := by
  obtain ⟨files', hrun, -, hkept⟩ := h.exists_files lib hpath
  obtain ⟨hprinted, hfailure⟩ := Settings.run_of_compile_error lib hstage hemit hf
  obtain ⟨hshown, hstatus⟩ : f.shown = [f.message] ∧ f.ofRun.status = 1 := by
    cases f <;> first | exact ⟨rfl, rfl⟩ | cases hn
  have hnot (content : String) : ¬s.Writes lib text content := fun hw =>
    nomatch hfailure.symm.trans hw.run.2
  rw [hrun, ← hshown]
  exact ⟨hkept hnot, hprinted, (Outcome.code?_of_failure hfailure).trans (f.code?_ofRun.trans hn),
    (Outcome.status_of_failure hfailure).trans hstatus⟩

end Reads

/-- A session whose input can be read carries out the compilation of the input, with any libraries. Other
traces and another log show in what is printed and nowhere else. What compiles to assembly is written and
ends well, and what does not ends with the message and the code of the stage that fails: the code is the
one that the program returns, while the system sees the status 1 for each of them. A text is written
exactly if the stages that it takes succeed. The code for a missing procedure never occurs. -/
theorem start_follows_compilation (lib : Libraries) (h : Reads files m o s text) :
    (∀ m' o' s' logLine, m.SameButTraces m' → Options.ofMatches m' = .ok o' → o'.settings = .ok s' →
      ∃ r : Session, start lib files m = r.behind (s.seen lib text) ∧
        start { lib with logLine } files m' = r.behind (s'.seen { lib with logLine } text)) ∧
    (files.Writable o.output → s.stage? = none → s.emit = .asm →
      (∀ asm, ((start lib files m).status = 0 ∧ (start lib files m).files.read o.output = .ok asm) ↔
        compile text = .ok asm) ∧
      ∀ f n, compile text = .error f → f.code? = some n →
        (start lib files m).files = files ∧
        (start lib files m).outcome.printed = s.seen lib text ++ [f.message] ∧
        (start lib files m).outcome.code? = some n ∧ (start lib files m).status = 1) ∧
    (files.Writable o.output →
      (∀ content, (start lib files m).outcome.output? = some content ↔ s.Writes lib text content) ∧
      (∀ content, s.Writes lib text content →
        (start lib files m).status = 0 ∧ (start lib files m).files.read o.output = .ok content) ∧
      ((∀ content, ¬s.Writes lib text content) → (start lib files m).files = files)) ∧
    ((∀ p, programOf text = .ok p → p.labels < labelLimit) →
      (lib.TakesDocuments → ((∃ content, s.Writes lib text content) ↔ ∃ p, programOf text = .ok p ∧
        s.stage? ≠ some .lexer ∧ (s.emit = .ast ∨ s.emit = .dot ∨ ∃ t, analyze p = .ok t ∧
          ((s.emit = .tablesJson ∨ s.emit = .tablesYaml) ∧ s.stage? ≠ some .parser ∨
            s.emit = .asm ∧ s.stage? = none)))) ∧
      ∀ f, compile text = .error f → ∃ n, f.code? = some n) ∧
    (start lib files m).outcome.code? ≠ some 2 := by
  refine ⟨fun m' o' s' logLine hsame ho' hs' => ?_, fun hpath hstage hemit => ⟨?_, ?_⟩,
    fun hpath => ?_, fun hlabels => ⟨fun hlib => Settings.exists_writes_iff hlib hlabels, ?_⟩,
    h.code?_start_ne⟩
  · obtain ⟨hreads, houtput, hquiet⟩ := h.retraced hsame ho' hs'
    refine ⟨ofRun files o.output (s.quiet.run lib text), h.start_eq_behind lib, ?_⟩
    rw [hreads.start_eq_behind, houtput, hquiet, Settings.run_quiet_logLine]
  · exact h.compiles_iff hpath hstage hemit
  · exact fun f n => h.start_of_compile_error hpath hstage hemit
  · obtain ⟨files', hrun, hread, hkept⟩ := h.exists_files lib hpath
    rw [hrun]
    exact ⟨fun content => Settings.output?_run_eq_some_iff,
      fun content hw => ⟨Outcome.status_eq_zero_iff.2 hw.run.2, hread content hw⟩, hkept⟩
  · exact fun f => exists_code?_of_compile_error hlabels

def sevenText : String := "procedure int main ( ) return 7 ;"

/-- A working directory with a single file. -/
def oneFile (text : String) : FileTree := ⟨[(Place.here.down "prog.bl", .file text)]⟩

/-- The input and the output that are asked for, and nothing else. -/
def plainMatches : Matches
  | .input => some "prog.bl"
  | .output => some "out/seven.s"
  | _ => none

/-- The same with traces and a log. -/
def tracedMatches : Matches
  | .log => some "debug"
  | .traceLexer => some "all"
  | .traceParser => some "1"
  | o => plainMatches o

/-- The same for the symbol tables. -/
def tablesMatches : Matches
  | .emit => some "tables-json"
  | o => plainMatches o

theorem reads_oneFile (text : String) : Reads (oneFile text) plainMatches
    ⟨"prog.bl", "out/seven.s", none, .asm, none, .ok .off, .ok .off⟩ ⟨none, .asm, none, .off, .off⟩ text :=
  ⟨rfl, rfl, rfl⟩

theorem writable_oneFile (text : String) : (oneFile text).Writable "out/seven.s" := ⟨_, _, rfl, rfl⟩

theorem exists_compile_error : ∃ f, compile "#" = .error f ∧ f.code? = some 5 := by
  have hfails : (match compile "#" with
    | .error f => f.code? == some 5
    | .ok _ => false) = true := by decide +kernel
  split at hfails
  · exact ⟨_, ‹_›, eq_of_beq hfails⟩
  · cases hfails

/-- The output is made below a directory that is not there. The traces and the log of the second session
change nothing in it, and neither does it that the clock has gone on. A third one writes the symbol tables,
and a fourth one fails at a character that starts no token. -/
theorem seven_follows_compilation : ∃ asm tables, compile sevenText = .ok asm ∧
    let files := oneFile sevenText
    let later := Libraries.standard fun n => s!"12:00:0{n}"
    let plain := start libraries files plainMatches
    let traced := start later files tracedMatches
    let listed := start libraries files tablesMatches
    let failed := start libraries (oneFile "#") plainMatches
    plain.status = 0 ∧ plain.files.read "out/seven.s" = .ok asm ∧ plain.outcome.code? ≠ some 2 ∧
      traced = plain.behind (Settings.seen later ⟨none, .asm, some .debug, .all, .only 1⟩ sevenText) ∧
      listed.status = 0 ∧ listed.files.read "out/seven.s" = .ok tables ∧
      failed.status = 1 ∧ failed.outcome.code? = some 5 ∧ failed.files = oneFile "#" := by
  obtain ⟨asm, hasm⟩ : ∃ asm, compile sevenText = .ok asm :=
    except_exists_ok_iff.2 (by decide +kernel)
  obtain ⟨htraces, hasmRuns, -, -, hcode⟩ := start_follows_compilation libraries (reads_oneFile sevenText)
  obtain ⟨hstatus, hfile⟩ := ((hasmRuns (writable_oneFile _) rfl rfl).1 asm).2 hasm
  -- the session with traces and a log
  have hsame : plainMatches.SameButTraces tracedMatches := by
    intro o hlog hlexer hparser
    cases o <;> first | rfl | contradiction
  obtain ⟨r, hplain, htraced⟩ := htraces tracedMatches
    ⟨"prog.bl", "out/seven.s", none, .asm, some .debug, .ok .all, .ok (.only 1)⟩
    ⟨none, .asm, some .debug, .all, .only 1⟩
    (Libraries.standard fun n => s!"12:00:0{n}").logLine hsame rfl rfl
  have hseen : Settings.seen libraries ⟨none, .asm, none, .off, .off⟩ sevenText = [] :=
    Settings.seen_quiet libraries ⟨none, .asm, none, .off, .off⟩ sevenText
  have hquiet : r = start libraries (oneFile sevenText) plainMatches := by
    rw [hplain, hseen]
    rfl
  -- the session for the symbol tables
  have hlisted : Reads (oneFile sevenText) tablesMatches
      ⟨"prog.bl", "out/seven.s", none, .tablesJson, none, .ok .off, .ok .off⟩
      ⟨none, .tablesJson, none, .off, .off⟩ sevenText := ⟨rfl, rfl, rfl⟩
  obtain ⟨-, -, hwritten, hexists, -⟩ := start_follows_compilation libraries hlisted
  have hlabels : ∀ p ∈ (programOf sevenText).toOption, p.labels < labelLimit := by decide +kernel
  obtain ⟨p, t, hp, ht, -⟩ := compile_eq_ok_iff.1 hasm
  obtain ⟨hexists, -⟩ := hexists fun p hp => hlabels p (by rw [hp]; rfl)
  obtain ⟨tables, htables⟩ := (hexists (Libraries.standard_takesDocuments _)).2
    ⟨p, hp, nofun, .inr (.inr ⟨t, ht, .inl ⟨.inl rfl, nofun⟩⟩)⟩
  obtain ⟨hlistedStatus, hlistedFile⟩ := (hwritten (writable_oneFile _)).2.1 tables htables
  -- the session that fails
  obtain ⟨f, hf, hcode5⟩ := exists_compile_error
  obtain ⟨-, hfails, -⟩ := start_follows_compilation libraries (reads_oneFile "#")
  obtain ⟨hkept, -, hfailedCode, hfailedStatus⟩ := (hfails (writable_oneFile _) rfl rfl).2 f 5 hf hcode5
  exact ⟨asm, tables, hasm, hstatus, hfile, hcode, hquiet ▸ htraced, hlistedStatus, hlistedFile,
    hfailedStatus, hfailedCode, hkept⟩

end Session

end ProcMips
