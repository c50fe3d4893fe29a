import ProcMips.CommandLine.Options
import ProcMips.Document
import ProcMips.Event

/-!
What a session leaves to libraries: how functions are named in traces, how symbol tables are written, and
what the lines of a log look like. A session can be run with any of them.
-/

namespace ProcMips

/-- The libraries of a session. A function is given by the modules around it and its name, a document can
be refused with a message, and the line of the `n`-th event of a log can depend on the time. -/
structure Libraries where
  nameOf : List String → String
  prettyJson : Document → Except String String
  yaml : Document → Except String String
  logLine : LogLevel → Nat → Event → String

namespace Libraries

/-- Both formats take every document: the keys of its entries are texts. -/
structure TakesDocuments (lib : Libraries) : Prop where
  prettyJson : ∀ d, ∃ text, lib.prettyJson d = .ok text
  yaml : ∀ d, ∃ text, lib.yaml d = .ok text

/-- Names are shown behind their modules, every document is written, and a line of the log has the time,
the level, the number of the only thread and the module in front. -/
def standard (clock : Nat → String) : Libraries where
  nameOf := "::".intercalate
  prettyJson d := .ok (d.prettyJson 0)
  yaml d := .ok d.yaml
  logLine _ n e :=
    let source := "::".intercalate e.source
    s!"{clock n} [{LogLevel.ofEvents.label}] (1) {source}: {e.message}"

theorem standard_takesDocuments (clock : Nat → String) : (standard clock).TakesDocuments :=
  ⟨fun d => ⟨d.prettyJson 0, rfl⟩, fun d => ⟨d.yaml, rfl⟩⟩

end Libraries

end ProcMips
