import ProcMips.CommandLine.Path

/-!
Text files, directories and devices below a working directory and outside of it. The working directory
has no name that leads back to it from outside.
-/

namespace ProcMips

/-- A place below the working directory or, outside of it, below the root; the last name first. -/
structure Place where
  outside : Bool
  names : List String
deriving Repr, DecidableEq

namespace Place

def here : Place := ⟨false, []⟩

def root : Place := ⟨true, []⟩

/-- The place that holds this one. The root holds itself. -/
def up (p : Place) : Place :=
  match p.names with
  | [] => root
  | _ :: names => { p with names }

def down (p : Place) (name : String) : Place := { p with names := name :: p.names }

/-- The path to a place from the working directory or from the root. -/
def path (p : Place) : String := "/".intercalate p.names.reverse

end Place

/-- The files that are not stored: one takes everything, one takes nothing, one is the standard
output, and one is the standard input with a text in it. -/
inductive Device where
  | null
  | full
  | output
  | input (text : String)
deriving Repr, DecidableEq

/-- The text that is read from a device. -/
def Device.contents : Device → String
  | null | full | output => ""
  | input text => text

/-- What stands at a place. -/
inductive Entry where
  | directory
  | file (contents : String)
  | device (d : Device)
deriving Repr, DecidableEq

def Entry.isDirectory : Entry → Bool
  | directory => true
  | _ => false

/-- What stands where, the latest first. The working directory and the root are always there. -/
structure FileTree where
  entries : List (Place × Entry)
deriving Repr

namespace FileTree

def find? (t : FileTree) (p : Place) : Option Entry :=
  match t.entries.lookup p with
  | some e => some e
  | none => if p.names = [] then some .directory else none

/-- Directories and devices as a system has them, with nothing in the standard input. -/
def system : List (Place × Entry) :=
  let directories := ["bin", "dev", "etc", "home", "lib", "opt", "proc", "root", "run", "sbin", "srv",
    "sys", "tmp", "usr", "var"]
  let devices := [("null", Device.null), ("stderr", .null), ("full", .full), ("stdout", .output),
    ("stdin", .input "")]
  directories.map (fun name => (Place.root.down name, .directory)) ++
    devices.map fun (name, d) => ((Place.root.down "dev").down name, .device d)

/-- A working directory that holds one file, on such a system. -/
def single (name contents : String) : FileTree :=
  ⟨(Place.here.down name, .file contents) :: system⟩

def put (t : FileTree) (p : Place) (e : Entry) : FileTree :=
  ⟨(p, e) :: t.entries.filter (·.1 ≠ p)⟩

theorem find?_put_self (t : FileTree) (p : Place) (e : Entry) : (t.put p e).find? p = some e := by
  simp [find?, put]

/-- The place that a name leads to from another place, which has to be a directory. -/
def follow (t : FileTree) (p : Place) (name : String) : Except PathError Place :=
  match t.find? p with
  | none => .error .missing
  | some .directory =>
    if name = "." then .ok p
    else if name = ".." then .ok p.up
    else if name.utf8ByteSize > Path.maxName then .error .tooLong
    else .ok (p.down name)
  | some _ => .error .notDirectory

/-- The place that names lead to from where a path starts. -/
def walk (t : FileTree) (path : String) (names : List String) : Except PathError Place :=
  if path = "" then .error .missing
  else if path.utf8ByteSize > Path.maxPath then .error .tooLong
  else names.foldlM t.follow (if Path.isAbsolute path then .root else .here)

/-- The place that a path leads to. There need not be anything at the last name. -/
def locate (t : FileTree) (path : String) : Except PathError Place :=
  t.walk path (Path.names path)

def isDirectory (t : FileTree) (path : String) : Bool :=
  match t.locate path with
  | .error _ => false
  | .ok p => (t.find? p).any Entry.isDirectory

/-- The text of the file at a path. -/
def read (t : FileTree) (path : String) : Except PathError String := do
  let p ← t.locate path
  let p ← if Path.endsInSeparator path then t.follow p "." else .ok p
  match t.find? p with
  | none => .error .missing
  | some .directory => .error .isDirectory
  | some (.file contents) => .ok contents
  | some (.device d) => .ok d.contents

/-- Makes a directory where there is nothing. -/
def makeDirectory (t : FileTree) (path : String) : Except PathError FileTree := do
  let p ← t.locate path
  match t.find? p with
  | some _ => .error .occupied
  | none => .ok (t.put p .directory)

/-- Makes a directory unless there is one. -/
def ensureDirectory (t : FileTree) (path : String) : Except PathError FileTree :=
  match t.makeDirectory path with
  | .ok t => .ok t
  | .error e => if t.isDirectory path then .ok t else .error e

/-- Makes the first of these directories. Each of the others holds the one before it, and is made if
one that holds it is missing. -/
def ensureDirectories (t : FileTree) : List String → Except PathError FileTree
  | [] => .ok t
  | path :: above =>
    match t.ensureDirectory path with
    | .error .missing => do (← t.ensureDirectories above).ensureDirectory path
    | result => result

/-- What a text can be written to. -/
inductive Target where
  | file (p : Place)
  | device (d : Device)
deriving Repr, DecidableEq

/-- The target at a path, where a file may stand already. The last name is not looked up if a
separator follows it. -/
def target (t : FileTree) (path : String) : Except PathError Target := do
  if Path.endsInSeparator path then
    let _ ← t.walk path ((Path.names path).dropLast ++ ["."])
    .error .isDirectory
  else
    let p ← t.locate path
    match t.find? p with
    | some .directory => .error .isDirectory
    | some (.device d) => .ok (.device d)
    | _ => .ok (.file p)

/-- The files below the working directory with their paths, in the order of these. -/
def files (t : FileTree) : List (String × String) :=
  let found := t.entries.filterMap fun
    | (⟨false, names⟩, .file contents) => some ((Place.mk false names).path, contents)
    | _ => none
  found.mergeSort fun a b => a.1 ≤ b.1

end FileTree

end ProcMips
