import ProcMips.Frame
import ProcMips.Mips.Instr

/-!
Labels, and the short instruction sequences that all code is built from: the operand stack, the
saved registers and the console. A buffer collects instructions and hands out labels.
-/

namespace ProcMips.Mips

/-- The `n`-th generated label. -/
def generatedLabel (n : Nat) : String := s!"{generatedStem}{n}"

/-- Where the code of a procedure starts. -/
def procLabel (name : String) : String := "proc_" ++ name

/-- Where a global variable is stored. -/
def globalLabel (name : String) : String := name ++ "_"

def pushReg (r : Register) : List Instr :=
  [.subi .sp .sp wordSize, .sw r (.offset wordSize .sp)]

def popReg (r : Register) : List Instr :=
  [.lw r (.offset wordSize .sp), .addi .sp .sp wordSize]

/-- The saved registers with their places in the save area, from the highest address down. -/
def savedPlaces : List (Register × Int) :=
  Register.saved.mapIdx fun i r => (r, saveArea - wordSize * (i + 1))

def saveRegisters : List Instr :=
  [.subi .sp .sp saveArea, .sw .ra (.offset saveArea .sp)] ++
    savedPlaces.map (fun (r, n) => .sw r (.offset n .sp)) ++
    [.sw .fp (.offset wordSize .sp)]

def restoreRegisters : List Instr :=
  [.lw .fp (.offset wordSize .sp)] ++
    savedPlaces.reverse.map (fun (r, n) => .lw r (.offset n .sp)) ++
    [.lw .ra (.offset saveArea .sp), .addi .sp .sp saveArea]

/-- Prints the integer in `$a0` and a newline. -/
def printInt : List Instr := [.li .v0 1, .syscall, .li .v0 11, .li .a0 10, .syscall]

/-- Reads an integer into `$v0`. -/
def readInt : List Instr := [.li .v0 5, .syscall]

/-- Instructions so far, and the number of labels handed out. -/
structure Buffer where
  code : List Instr
  labels : Nat
deriving Repr, DecidableEq

namespace Buffer

def empty : Buffer := ⟨[], 0⟩

def append (b : Buffer) (code : List Instr) : Buffer := { b with code := b.code ++ code }

def freshLabel (b : Buffer) : String × Buffer :=
  (generatedLabel b.labels, { b with labels := b.labels + 1 })

def text (b : Buffer) : String := codeText b.code

end Buffer

end ProcMips.Mips
