import ProcMips.CommandLine.Session

/-!
The command line of the compiler. Everything it decides, the lines of the log among it, is decided by
`Options.run`; here the input is read and the effects are carried out.
-/

namespace ProcMips.CommandLine

def usageText : String :=
  "USAGE: -i INPUT [-o OUTPUT] [--stage STAGE] [--emit FORMAT] [--log LEVEL] " ++
    "[--trace-lexer LINES] [--trace-parser LINES]"

/-- The reason that the system gives. -/
def reasonOf : IO.Error → PathError
  | .alreadyExists .. => .occupied
  | .inappropriateType _ code _ => if code = 21 then .isDirectory else .notDirectory
  | .invalidArgument .. => .tooLong
  | _ => .missing

def readInput (path : String) : IO (Except PathError String) := do
  try return .ok (← IO.FS.readFile path) catch e => return .error (reasonOf e)

/-- Makes the file at a path, and the directories above it. -/
def createOutput (path : String) : IO (Except (String × PathError) IO.FS.Handle) := do
  if let parent :: _ := Path.directories path then
    try IO.FS.createDirAll parent catch e => return .error (parent, reasonOf e)
  try return .ok (← IO.FS.Handle.mk path .write) catch e => return .error (path, reasonOf e)

/-- Writes the output of a run to a path. -/
def writeOutput (outcome : Outcome) (path text : String) : IO Outcome := do
  match ← createOutput path with
  | .error (place, e) => return outcome.failToCreate place e
  | .ok handle =>
    try
      handle.putStr text
      handle.flush
      return outcome
    catch _ => return outcome.failToStore path

/-- Carries out what a run does, with its output at a path, and gives its outcome once that is written. -/
def perform (path : String) (outcome : Outcome) : IO Outcome := do
  outcome.printed.forM IO.println
  (← IO.getStdout).flush
  let last ← match outcome.output? with
    | some text => writeOutput outcome path text
    | none => pure outcome
  (last.printed.drop outcome.printed.length).forM IO.println
  last.completed.forM fun p => IO.eprintln p.text
  return last

/-- The run that the values of the options ask for. -/
def outcomeOf (m : Matches) : IO Outcome := do
  match Options.ofMatches m with
  | .error message => return .misused message
  | .ok o => return o.run Session.libraries (← readInput o.input)

/-- Runs the command line, and gives the status to exit with. -/
def run (args : List String) : IO UInt32 := do
  match Matches.ofArguments args with
  | .error e =>
    match e with
    | .versionDisplayed => IO.println versionText
    | .helpDisplayed => IO.println usageText
    | _ => IO.eprintln usageText
    return (Session.refused e ⟨[]⟩).status.toUInt32
  | .ok m => return (← perform m.output (← outcomeOf m)).status.toUInt32

end ProcMips.CommandLine

def main (args : List String) : IO UInt32 := ProcMips.CommandLine.run args
