import ProcMips.Document
import ProcMips.Tables
import ProcMips.Text.Lines

/-!
Symbol tables as text: a plain listing, JSON and YAML.
-/

namespace ProcMips

def Slot.document (s : Slot) : Document :=
  .fields [("offset", .int s.offset), ("size", .int s.size)]

def Frame.document (f : Frame) : Document :=
  .fields [("slots", .fields (f.slots.map fun (x, s) => (x, s.document))), ("args", .texts f.args),
    ("last_location", .int f.lastOffset), ("last_size", .int f.lastSize),
    ("finished", .bool f.finished)]

/-- The size of a frame and its slots, a line for each. -/
def Frame.listing (f : Frame) : Except Overflow String := do
  return unlines (f.lines (← f.size))

namespace Tables

def document (t : Tables) : Document :=
  .fields [("globals", .fields (t.globals.map fun (x, n) => (x, .int n))),
    ("procedures", .fields (t.frames.map fun (p, f) => (p, f.document)))]

def json (t : Tables) : String := t.document.prettyJson 0

def yaml (t : Tables) : String := t.document.yaml

/-- The globals, then each procedure with the listing of its frame, indented. -/
def listing (t : Tables) : Except Overflow String := do
  let globals := t.globals.map fun (x, n) => s!"  {x}: {n}\n"
  let procedures ← t.frames.mapM fun (p, f) => do
    return s!"  {p}\n" ++ unlines ((textLines (← f.listing)).map ("    " ++ ·))
  return "globals:\n" ++ String.join globals ++ "procedures:\n" ++ String.join procedures

end Tables

end ProcMips
