import Mathlib.Logic.Function.Basic
import ProcMips.Proofs.Semantics.Processor

/-! The machine that runs the instructions. Registers hold integers, and memory has a block of words
for each data label and an unbounded stack, so that no address wraps around; an access outside a block
or between words stops the machine, as does everything else that an instruction cannot do. -/

namespace ProcMips.Mips

inductive Location where
  | data (label : String) (offset : Int)
  | stack (address : Int)
deriving Repr, DecidableEq

/-- Registers, memory and the console. -/
structure Core where
  regs : Register → Int
  mem : Location → Int
  reads : Nat
  printed : String

namespace Core

def set (c : Core) (r : Register) (n : Int) : Core := { c with regs := Function.update c.regs r n }

def store (c : Core) (p : Location) (n : Int) : Core := { c with mem := Function.update c.mem p n }

def print (c : Core) (text : String) : Core := { c with printed := c.printed ++ text }

end Core

def Address.place (c : Core) : Address → Location
  | offset n r => .stack (c.regs r + n)
  | indirect r => .stack (c.regs r)
  | label l => .data l 0
  | indexed l r => .data l (c.regs r)

/-- Whether a place is a word of the stack, or of a block that `code` sets up. -/
def Location.accessible (code : List Instr) : Location → Bool
  | stack a => 4 ∣ a
  | data l n => 4 ∣ n ∧ code.any fun
    | .word l' k => l' = l ∧ 0 ≤ n ∧ n < 4 * (k : Int)
    | _ => false

def Op.apply : Op → Int → Int → Option Int
  | add, a, b => some (a + b)
  | sub, a, b => some (a - b)
  | mul, a, b => some (a * b)
  | div, a, b => if b = 0 then none else some (a.tdiv b)
  | rem, a, b => if b = 0 then none else some (a.tmod b)
  | slt, a, b => some (if a < b then 1 else 0)
  | sle, a, b => some (if a ≤ b then 1 else 0)
  | seq, a, b => some (if a = b then 1 else 0)

section

variable (code : List Instr) (inputs : List Int)

/-- The services that are used: 1 prints an integer, 5 reads one, 11 prints a character. -/
def Core.syscall (c : Core) : Option Core :=
  if c.regs .v0 = 1 then some (c.print (toString (c.regs .a0)))
  else if c.regs .v0 = 5 then
    (inputs[c.reads]?).map fun n => { c.set .v0 n with reads := c.reads + 1 }
  else if c.regs .v0 = 11 then some (c.print (String.singleton (Char.ofNat (c.regs .a0).toNat)))
  else none

/-- Words are integers, and each operand of an access must be a place that there is. -/
def Core.processor : Processor Core Int where
  regs := regs
  set := set
  word n := n
  apply := Op.apply
  load c a := if (a.place c).accessible code then some (c.mem (a.place c)) else none
  store c a n := if (a.place c).accessible code then some (c.store (a.place c) n) else none
  syscall c := c.syscall inputs
  isTrue n := n ≠ 0
  target n := if 0 ≤ n then some n.toNat else none

namespace Machine

abbrev step (m : Machine Core) : Option (Machine Core) := (Core.processor code inputs).step code m

/-- Some number of steps leads from one state to another. -/
abbrev Reaches : Machine Core → Machine Core → Prop := (Core.processor code inputs).Reaches code

end Machine

end

end ProcMips.Mips
