import ProcMips.CodeGen
import ProcMips.Proofs.Semantics.Machine
import ProcMips.Proofs.Semantics.Source

/-! The machine with registers of 32 bits and one flat memory of bytes, in which addresses wrap around
and the stack can meet anything else. Arithmetic wraps around as well, and no address is refused. What
an expression means there is a word and the addresses that it reads, without any check of a type or of an
index. The console has no part in this. -/

namespace ProcMips.Mips.Flat

structure State where
  regs : Register → BitVec 32
  mem : BitVec 32 → BitVec 8

/-- A state in which memory is all zero. -/
def zeros (sp fp : BitVec 32) : State where
  regs r := if r = .sp then sp else if r = .fp then fp else 0
  mem _ := 0

namespace State

def set (c : State) (r : Register) (v : BitVec 32) : State :=
  { c with regs := Function.update c.regs r v }

/-- The word at an address, the byte with the lowest address last. -/
def load (c : State) (a : BitVec 32) : BitVec 32 :=
  c.mem (a + 3) ++ c.mem (a + 2) ++ c.mem (a + 1) ++ c.mem a

def store (c : State) (a v : BitVec 32) : State :=
  { c with mem := fun b =>
      if (b - a).toNat < 4 then v.extractLsb' (8 * (b - a).toNat) 8 else c.mem b }

end State

/-- The word that stands for a truth value. -/
def flag (b : Bool) : BitVec 32 := if b then 1 else 0

/-- Results are cut off to 32 bits, and comparisons are signed. -/
def apply : Op → BitVec 32 → BitVec 32 → Option (BitVec 32)
  | .add, a, b => some (a + b)
  | .sub, a, b => some (a - b)
  | .mul, a, b => some (a * b)
  | .div, a, b => if b = 0 then none else some (a.sdiv b)
  | .rem, a, b => if b = 0 then none else some (a.srem b)
  | .slt, a, b => some (flag (a.slt b))
  | .sle, a, b => some (flag (a.sle b))
  | .seq, a, b => some (flag (a = b))

section

variable (data : String → BitVec 32)

/-- The address of a memory operand, where `data` places the data labels. -/
def place (c : State) : Address → BitVec 32
  | .offset n r => c.regs r + BitVec.ofInt 32 n
  | .indirect r => c.regs r
  | .label l => data l
  | .indexed l r => data l + c.regs r

/-- Every word is an address and a place in the code. -/
def State.processor : Processor State (BitVec 32) where
  regs := regs
  set := set
  word := BitVec.ofInt 32
  apply := apply
  load c a := some (c.load (place data c a))
  store c a v := some (c.store (place data c a) v)
  syscall _ := none
  isTrue v := v != 0
  target v := some v.toNat

end

/-- Some number of steps leads from one state to another. -/
abbrev Machine.Reaches (code : List Instr) (data : String → BitVec 32) :
    Machine State → Machine State → Prop := (State.processor data).Reaches code

end ProcMips.Mips.Flat

namespace ProcMips

open Mips

section

variable (s : Storage) (data : String → BitVec 32)

/-- Where a variable starts. -/
def Storage.start (c : Flat.State) (x : String) : Option (BitVec 32) :=
  if s.tables.isGlobal x then some (data (globalLabel x))
  else (s.frame.offset? x).map fun n => c.regs .fp + BitVec.ofInt 32 n

/-- The primitive of an operator. An operator that short circuits has none. -/
def BinOp.wordApply : BinOp → BitVec 32 → BitVec 32 → Option (BitVec 32)
  | add, a, b => Flat.apply .add a b
  | sub, a, b => Flat.apply .sub a b
  | mul, a, b => Flat.apply .mul a b
  | div, a, b => Flat.apply .div a b
  | rem, a, b => Flat.apply .rem a b
  | less, a, b => Flat.apply .slt a b
  | lessEqual, a, b => Flat.apply .sle a b
  | equal, a, b => Flat.apply .seq a b
  | greater, a, b => Flat.apply .slt b a
  | greaterEqual, a, b => Flat.apply .sle b a
  | and, _, _ | or, _, _ => none

/-- The word of an expression over the memory of `c`, and the addresses of the words that are read. An
index is not checked, a word counts as true if it is not zero, and calls have no value. -/
def Expr.wordValue (c : Flat.State) : Expr → Option (BitVec 32 × List (BitVec 32))
  | .int _ n => some (BitVec.ofInt 32 n, [])
  | .bool _ b => some (Flat.flag b, [])
  | .scalar _ x => do
    let a ← s.start data c x
    return (c.load a, [a])
  | .element _ x index => do
    let (i, rs) ← index.wordValue c
    let a ← s.start data c x
    return (c.load (a + 4 * i), rs ++ [a + 4 * i])
  | .call .. => none
  | .binary _ op left right => do
    let (a, rs) ← left.wordValue c
    match op.decisive with
    | some d =>
      if (a != 0) = d then return (Flat.flag d, rs)
      else do
        let (b, ts) ← right.wordValue c
        return (Flat.flag (b != 0), rs ++ ts)
    | none =>
      let (b, ts) ← right.wordValue c
      return (← op.wordApply a b, rs ++ ts)
  | .not _ operand => do
    let (a, rs) ← operand.wordValue c
    return (Flat.flag (a == 0), rs)

end

end ProcMips
