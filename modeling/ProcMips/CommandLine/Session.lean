import ProcMips.CommandLine.Arguments
import ProcMips.CommandLine.FileTree
import ProcMips.CommandLine.Run

/-!
A session of the compiler: a run with the options of the command line, over the text at the input path,
and the writing of its output below the working directory.
-/

namespace ProcMips

/-- The name and version of the program. -/
def versionText : String := "Blaise Compiler 0.1.0"

/-- How a session ends: its outcome, its status, what became of the files, and the output if that
went to the standard output. -/
structure Session where
  outcome : Outcome
  status : Nat
  files : FileTree
  echoed : String
deriving Repr

namespace Session

/-- A session that ends with a run. -/
def ofOutcome (outcome : Outcome) (files : FileTree) (echoed : String) : Session :=
  ⟨outcome, outcome.status, files, echoed⟩

/-- Only help and the version end a session well before it starts. -/
def refused (e : UsageError) (files : FileTree) : Session :=
  match e with
  | .versionDisplayed => ⟨Outcome.empty.print [versionText], 0, files, ""⟩
  | .helpDisplayed => ⟨.empty, 0, files, ""⟩
  | _ => ⟨.empty, 1, files, ""⟩

/-- Writes the output of a run to a path whose directories stand. -/
def write (files : FileTree) (outcome : Outcome) (path text : String) : Session :=
  match files.target path with
  | .error e => ofOutcome (outcome.failToCreate path e) files ""
  | .ok (.device .full) => ofOutcome (outcome.failToStore path) files ""
  | .ok (.device .null) | .ok (.device (.input _)) => ofOutcome outcome files ""
  | .ok (.device .output) => ofOutcome outcome files text
  | .ok (.file p) => ofOutcome outcome (files.put p (.file text)) ""

/-- Writes the output of a run to a path, and makes the directories above it that are missing. -/
def store (files : FileTree) (outcome : Outcome) (path text : String) : Session :=
  match Path.directories path with
  | [] => write files outcome path text
  | parent :: above =>
    match files.ensureDirectories (parent :: above) with
    | .error e => ofOutcome (outcome.failToCreate parent e) files ""
    | .ok files => write files outcome path text

/-- A session with the values of the options. -/
def start (lib : Libraries) (files : FileTree) (m : Matches) : Session :=
  match Options.ofMatches m with
  | .error message => ofOutcome (.misused message) files ""
  | .ok o =>
    let outcome := o.run lib (files.read o.input)
    match outcome.output? with
    | none => ofOutcome outcome files ""
    | some text => store files outcome o.output text

/-- The standard libraries, with a clock that stands still. -/
def libraries : Libraries := .standard fun _ => "00:00:00"

/-- A session with a list of arguments. -/
def run (files : FileTree) (args : List String) : Session :=
  match Matches.ofArguments args with
  | .error e => refused e files
  | .ok m => start libraries files m

end Session

end ProcMips
