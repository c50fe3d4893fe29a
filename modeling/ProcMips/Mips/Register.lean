/-!
The registers that generated code uses.
-/

namespace ProcMips.Mips

inductive Register where
  | v0
  | a0
  | t0
  | t1
  | t2
  | t4
  | s0
  | s1
  | s2
  | s3
  | s4
  | s5
  | s6
  | s7
  | sp
  | fp
  | ra
deriving Repr, DecidableEq

namespace Register

def name : Register → String
  | v0 => "v0"
  | a0 => "a0"
  | t0 => "t0"
  | t1 => "t1"
  | t2 => "t2"
  | t4 => "t4"
  | s0 => "s0"
  | s1 => "s1"
  | s2 => "s2"
  | s3 => "s3"
  | s4 => "s4"
  | s5 => "s5"
  | s6 => "s6"
  | s7 => "s7"
  | sp => "sp"
  | fp => "fp"
  | ra => "ra"

def text (r : Register) : String := "$" ++ r.name

/-- The registers that a procedure saves besides `$ra` and `$fp`, from the highest address down. -/
def saved : List Register := [s0, s1, s2, s3, s4, s5, s6, s7]

end Register

end ProcMips.Mips
