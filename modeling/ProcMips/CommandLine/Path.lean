/-!
Paths as they are written: their names, and the directories above what they name.
-/

namespace ProcMips

/-- Why a path does not lead to what is asked of it. -/
inductive PathError where
  | missing
  | occupied
  | notDirectory
  | isDirectory
  | tooLong
deriving Repr, DecidableEq

def PathError.message : PathError → String
  | missing => "No such file or directory (os error 2)"
  | occupied => "File exists (os error 17)"
  | notDirectory => "Not a directory (os error 20)"
  | isDirectory => "Is a directory (os error 21)"
  | tooLong => "File name too long (os error 36)"

namespace Path

/-- What stands between the separators. The first part of an absolute path is empty. -/
def parts (path : String) : List String := (path.toList.splitOn '/').map String.ofList

def isAbsolute (path : String) : Bool := path.toList.head? == some '/'

/-- Whether a path ends in a separator, as only the path of a directory may. -/
def endsInSeparator (path : String) : Bool := path.toList.getLast? == some '/'

/-- The names that lead along a path, `.` and `..` among them. -/
def names (path : String) : List String := (parts path).filter (· ≠ "")

/-- The longest name and the longest path, in bytes. -/
def maxName : Nat := 255

def maxPath : Nat := 4095

def ofParts (parts : List String) : String :=
  if parts = [""] then "/" else "/".intercalate parts

/-- Whether the part at an index adds to a path: `.` does so only in front. -/
def adds (parts : List String) (i : Nat) : Bool :=
  i = 0 || (parts[i]?.any fun part => part ≠ "" && part ≠ ".")

/-- The directories above what a path names, as they are written in it, the nearest first. -/
def directories (path : String) : List String :=
  let all := parts path
  let ends := (List.range all.length).filter (adds all)
  ends.dropLast.reverse.map fun i => ofParts (all.take (i + 1))

end Path

end ProcMips
