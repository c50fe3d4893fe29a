import Mathlib.Data.List.Basic
import ProcMips.CommandLine.Run

/-! What a run lets be seen of its work. The lines of traces and of the log are printed in front of all
others, and nothing else of a run depends on what is selected for them. -/

namespace ProcMips

namespace Outcome

variable (o : Outcome) (lines : List String)

/-- The same outcome, with lines printed before all others. -/
def behind : Outcome := { o with printed := lines ++ o.printed }

@[simp] theorem behind_complete (p : Phase) :
    (o.behind lines).complete p = (o.complete p).behind lines := rfl

@[simp] theorem behind_write (text : String) :
    (o.behind lines).write text = (o.write text).behind lines := rfl

@[simp] theorem behind_failWith (f : RunFailure) (last : List String) :
    (o.behind lines).failWith f last = (o.failWith f last).behind lines := by
  simp [failWith, print, behind]

@[simp] theorem behind_failToCreate (path : String) (e : PathError) :
    (o.behind lines).failToCreate path e = (o.failToCreate path e).behind lines := by
  rw [failToCreate, failToWrite, behind_failWith]
  rfl

@[simp] theorem behind_failToStore (path : String) :
    (o.behind lines).failToStore path = (o.failToStore path).behind lines := by
  rw [failToStore, failToWrite, behind_failWith]
  rfl

theorem behind_nil : o.behind [] = o := rfl

end Outcome

def Report.event? : Report → Option Event
  | traced _ => none
  | logged e => some e

/-- The events among reports. -/
def eventsOf (rs : List Report) : List Event := rs.filterMap Report.event?

@[simp] theorem eventsOf_cons_traced (line : String) (rs : List Report) :
    eventsOf (.traced line :: rs) = eventsOf rs := rfl

@[simp] theorem eventsOf_cons_logged (e : Event) (rs : List Report) :
    eventsOf (.logged e :: rs) = e :: eventsOf rs := rfl

theorem eventsOf_logged (es : List Event) : eventsOf (es.map .logged) = es := by
  rw [eventsOf, List.filterMap_map]
  exact List.filterMap_some

theorem eventsOf_traced (lines : List String) : eventsOf (lines.map .traced) = [] := by
  rw [eventsOf, List.filterMap_map]
  exact List.filterMap_eq_nil_iff.2 fun _ _ => rfl

namespace Settings

section

variable (lib : Libraries) (s : Settings)

/-- The lines that reports print, behind `n` events. -/
def reportLines : Nat → List Report → List String
  | _, [] => []
  | n, .traced line :: rs => line :: reportLines n rs
  | n, .logged e :: rs => (s.logLine? lib n e).toList ++ reportLines (n + 1) rs

theorem reportLines_append (n : Nat) (rs qs : List Report) : s.reportLines lib n (rs ++ qs) =
    s.reportLines lib n rs ++ s.reportLines lib (n + (eventsOf rs).length) qs := by
  induction rs generalizing n with
  | nil => rfl
  | cons r rs ih =>
    cases r with
    | traced line => simp [reportLines, ih]
    | logged e => simp [reportLines, ih, Nat.add_assoc, Nat.add_comm 1]

/-- Reports print their lines behind what is printed, and add their events. -/
theorem reportAll_eq (o : Outcome) (rs : List Report) : s.reportAll lib o rs =
    { o with
      printed := o.printed ++ s.reportLines lib o.log.length rs
      log := o.log ++ eventsOf rs } := by
  induction rs generalizing o with
  | nil => simp [reportAll, reportLines, eventsOf]
  | cons r rs ih =>
    rw [reportAll, List.foldl_cons]
    change s.reportAll lib (s.report lib o r) rs = _
    rw [ih]
    cases r with
    | traced line => simp [report, reportLines, Outcome.print]
    | logged e => simp [report, reportLines, Outcome.print, Outcome.record]

/-- A run without traces and without a log. -/
def quiet : Settings := { s with log? := none, traceLexer := .off, traceParser := .off }

theorem reportLines_quiet (n : Nat) (es : List Event) :
    s.quiet.reportLines lib n (es.map .logged) = [] := by
  induction es generalizing n with
  | nil => rfl
  | cons e es ih => exact ih (n + 1)

theorem lexReports_quiet (text : String) :
    s.quiet.lexReports lib text = [.tokenizing text.length].map .logged := by
  simp [lexReports, quiet, lexTrace, Selection.includes]

theorem eventsOf_lexReports (text : String) :
    eventsOf (s.lexReports lib text) = [.tokenizing text.length] := by
  change .tokenizing text.length :: eventsOf _ = _
  rw [eventsOf_traced]

theorem parseReports_quiet (ts : List Token) :
    s.quiet.parseReports lib ts = (Event.ofParsing ts).map .logged := by
  rw [parseReports, Event.ofParsing, List.map_filterMap]
  refine List.filterMap_congr fun note _ => ?_
  cases note with
  | entered r t => simp [parseReport?, Rule.traceLine?, quiet, Selection.bounds,
      Selection.Bounds.includes, Event.ofParse?]
  | _ => rfl

theorem eventsOf_parseReports (ts : List Token) :
    eventsOf (s.parseReports lib ts) = Event.ofParsing ts := by
  rw [parseReports, Event.ofParsing, eventsOf, List.filterMap_filterMap]
  refine List.filterMap_congr fun note _ => ?_
  cases note with
  | entered r t => simp [parseReport?, Rule.traceLine?, Event.ofParse?, Report.event?, apply_ite]
  | _ => rfl

/-- What is seen of a run behind analysis. -/
def acceptedReports (p : Program) (t : Tables) : List Report :=
  match s.emit with
  | .tablesJson | .tablesYaml => []
  | _ => if s.stage? = some .semantic then [] else (codeLog p t).map .logged

/-- What is seen of a run from analysis on. -/
def reportsFromAnalysis (p : Program) : List Report :=
  (Event.ofAnalysis p).map .logged ++ match analyze p with
    | .error _ => []
    | .ok t => s.acceptedReports p t

/-- What is seen of a run behind the parser. -/
def programReports (p : Program) : List Report :=
  match s.emit with
  | .ast | .dot => []
  | _ => if s.stage? = some .parser then [] else s.reportsFromAnalysis p

/-- What is seen of a run from the parser on. -/
def reportsFromParser (ts : List Token) : List Report :=
  s.parseReports lib ts ++ match parse ts with
    | .error _ => []
    | .ok p => if p.procedures.isEmpty then [] else s.programReports p

/-- What is seen of a run: what each stage that it comes to lets be seen. -/
def reports (text : String) : List Report :=
  s.lexReports lib text ++ match (tokenize text).toExcept with
    | .error _ => []
    | .ok ts => if s.stage? = some .lexer then [] else s.reportsFromParser lib ts

/-- The lines of the traces and of the log that a run prints. -/
def seen (text : String) : List String := s.reportLines lib 0 (s.reports lib text)

end

variable {lib : Libraries} {s : Settings} {o : Outcome} {lines : List String} {rs : List Report}
  {es : List Event}

theorem reportAll_quiet : s.quiet.reportAll lib o (es.map .logged) = o.record es := by
  rw [reportAll_eq, reportLines_quiet, eventsOf_logged, List.append_nil]
  rfl

/-- Reports print their lines behind those before them, and else their events are all that counts. -/
theorem reportAll_behind (ho : o.printed = []) : s.reportAll lib (o.behind lines) rs =
    (o.record (eventsOf rs)).behind (lines ++ s.reportLines lib o.log.length rs) := by
  rw [reportAll_eq]
  simp [Outcome.behind, Outcome.record, ho]

theorem runCode_behind {p : Program} {t : Tables} (ho : o.printed = []) :
    s.runCode lib p t (o.behind lines) = (s.quiet.runCode lib p t o).behind
      (lines ++ s.reportLines lib o.log.length ((codeLog p t).map .logged)) := by
  unfold runCode codeLog
  cases p.assembly t with
  | error e => simp [reportLines]
  | ok text =>
    dsimp only
    rw [reportAll_behind ho, reportAll_quiet, eventsOf_logged, Outcome.behind_write,
      Outcome.behind_complete]

theorem runTables_behind (written : Except String String) :
    runTables written (o.behind lines) = (runTables written o).behind lines := by
  unfold runTables
  cases written <;> simp

theorem runAccepted_behind {p : Program} {t : Tables} (ho : o.printed = []) :
    s.runAccepted lib p t (o.behind lines) = (s.quiet.runAccepted lib p t o).behind
      (lines ++ s.reportLines lib o.log.length (s.acceptedReports p t)) := by
  unfold runAccepted acceptedReports
  rw [show s.quiet.emit = s.emit from rfl, show s.quiet.stage? = s.stage? from rfl]
  cases s.emit with
  | tablesJson | tablesYaml => simp [runTables_behind, reportLines]
  | asm | ast | dot =>
    by_cases hstage : s.stage? = some .semantic
    · simp [hstage, reportLines]
    · simp only [hstage, if_false]
      exact runCode_behind ho

theorem runAnalysis_behind {p : Program} (ho : o.printed = []) :
    s.runAnalysis lib p (o.behind lines) = (s.quiet.runAnalysis lib p o).behind
      (lines ++ s.reportLines lib o.log.length (s.reportsFromAnalysis p)) := by
  unfold runAnalysis reportsFromAnalysis
  dsimp only
  rw [reportAll_behind ho, reportLines_append, ← List.append_assoc, reportAll_quiet, eventsOf_logged]
  cases analyze p with
  | error f => cases f <;> simp [reportLines]
  | ok t =>
    dsimp only
    rw [Outcome.behind_complete, ← List.length_append]
    exact runAccepted_behind ho

theorem runProgram_behind {p : Program} (ho : o.printed = []) :
    s.runProgram lib p (o.behind lines) = (s.quiet.runProgram lib p o).behind
      (lines ++ s.reportLines lib o.log.length (s.programReports p)) := by
  unfold runProgram programReports
  rw [show s.quiet.emit = s.emit from rfl, show s.quiet.stage? = s.stage? from rfl]
  cases s.emit with
  | ast | dot => simp [reportLines]
  | asm | tablesJson | tablesYaml =>
    by_cases hstage : s.stage? = some .parser
    · simp [hstage, reportLines]
    · simp only [hstage, if_false]
      exact runAnalysis_behind ho

theorem runParser_behind {ts : List Token} (ho : o.printed = []) :
    s.runParser lib ts (o.behind lines) = (s.quiet.runParser lib ts o).behind
      (lines ++ s.reportLines lib o.log.length (s.reportsFromParser lib ts)) := by
  unfold runParser reportsFromParser
  dsimp only
  rw [reportAll_behind ho, reportLines_append, ← List.append_assoc, parseReports_quiet, reportAll_quiet,
    eventsOf_parseReports]
  cases parse ts with
  | error e => simp [reportLines]
  | ok p =>
    cases hempty : p.procedures.isEmpty with
    | true => simp [hempty, reportLines]
    | false =>
      simp only [hempty, Bool.false_eq_true, if_false]
      rw [Outcome.behind_complete, ← List.length_append]
      exact runProgram_behind ho

/-- Traces and log are all that their settings decide. Their lines are printed in front. -/
theorem run_eq_behind (lib : Libraries) (s : Settings) (text : String) :
    s.run lib text = (s.quiet.run lib text).behind (s.seen lib text) := by
  unfold run seen reports
  dsimp only
  rw [← Outcome.behind_nil .empty, reportAll_behind rfl, reportLines_append, List.nil_append,
    lexReports_quiet, Outcome.behind_nil, reportAll_quiet, eventsOf_lexReports,
    show s.quiet.stage? = s.stage? from rfl]
  cases (tokenize text).toExcept with
  | error e => simp [reportLines, Outcome.empty]
  | ok ts =>
    by_cases hstage : s.stage? = some .lexer
    · simp [hstage, reportLines, Outcome.empty]
    · simp only [hstage, if_false, Outcome.behind_complete]
      exact runParser_behind (o := (Outcome.empty.record [.tokenizing text.length]).complete .lexer) rfl

theorem seen_quiet (lib : Libraries) (s : Settings) (text : String) : s.quiet.seen lib text = [] :=
  List.self_eq_append_left.1 (congrArg Outcome.printed (s.quiet.run_eq_behind lib text))

/-- What the lines of a log look like shows only in them. -/
theorem run_quiet_logLine (lib : Libraries) (logLine : LogLevel → Nat → Event → String) (s : Settings)
    (text : String) : s.quiet.run { lib with logLine } text = s.quiet.run lib text := by
  simp only [run, runParser, runProgram, runAnalysis, runAccepted, runCode, lexReports_quiet,
    parseReports_quiet, reportAll_quiet]

end Settings

end ProcMips
