import ProcMips.Proofs.Semantics.Flat

/-! The 32-bit machine as code meets it that has been assembled. It has a console, and one table says what
every name stands for: a block of data or a place in the code. Blocks lie one behind the other, and a stack
has the memory above them. -/

namespace ProcMips.Mips

namespace Flat

/-- The flat machine with a console. -/
structure Terminal extends State where
  reads : Nat
  printed : String

namespace Terminal

def set (c : Terminal) (r : Register) (v : BitVec 32) : Terminal :=
  { c with toState := c.toState.set r v }

def store (c : Terminal) (a v : BitVec 32) : Terminal := { c with toState := c.toState.store a v }

def print (c : Terminal) (text : String) : Terminal := { c with printed := c.printed ++ text }

variable (data : String → BitVec 32) (inputs : List Int)

/-- The services of the unbounded machine, with words for integers. -/
def syscall (c : Terminal) : Option Terminal :=
  if c.regs .v0 = 1 then some (c.print (toString (c.regs .a0).toInt))
  else if c.regs .v0 = 5 then
    (inputs[c.reads]?).map fun n => { c.set .v0 (BitVec.ofInt 32 n) with reads := c.reads + 1 }
  else if c.regs .v0 = 11 then some (c.print (String.singleton (Char.ofNat (c.regs .a0).toInt.toNat)))
  else none

def processor : Processor Terminal (BitVec 32) where
  regs c := c.regs
  set := set
  word := (State.processor data).word
  apply := (State.processor data).apply
  load c := (State.processor data).load c.toState
  store c a v := ((State.processor data).store c.toState a v).map fun s => { c with toState := s }
  syscall := syscall inputs
  isTrue := (State.processor data).isTrue
  target := (State.processor data).target

end Terminal

end Flat

/-- What a name stands for. -/
inductive Symbol where
  | block (start words : Nat)
  | place (pc : Nat)

namespace Symbol

def start? : Symbol → Option Nat
  | block start _ => some start
  | place _ => none

def place? : Symbol → Option Nat
  | block .. => none
  | place pc => some pc

end Symbol

/-- The names that code gives a meaning to, with the blocks one behind the other from `start` on. -/
def symbolsFrom (start pc : Nat) : List Instr → List (String × Symbol)
  | [] => []
  | .word l n :: code => (l, .block start n) :: symbolsFrom (start + 4 * n) (pc + 1) code
  | .label l :: code => (l, .place pc) :: symbolsFrom start (pc + 1) code
  | _ :: code => symbolsFrom start (pc + 1) code

/-- The bytes of all blocks. -/
def blockBytes : List Instr → Nat
  | [] => 0
  | .word _ n :: code => 4 * n + blockBytes code
  | _ :: code => blockBytes code

/-- Code and the meanings of its names, of which each has one. -/
structure Image where
  code : List Instr
  symbols : List (String × Symbol)
  nodup : (symbols.map Prod.fst).Nodup

/-- A name that is defined twice is an error. -/
def assemble (base : Nat) (code : List Instr) : Option Image :=
  if h : ((symbolsFrom base 0 code).map Prod.fst).Nodup then some ⟨code, _, h⟩ else none

namespace Image

variable (image : Image)

/-- Where a jump to a name leads. -/
def entry (l : String) : Option Nat := (image.symbols.lookup l).bind Symbol.place?

/-- Where the block of a name starts. A name without a block stands for 0. -/
def start (l : String) : Nat := ((image.symbols.lookup l).bind Symbol.start?).getD 0

def address (l : String) : BitVec 32 := BitVec.ofNat 32 (image.start l)

/-- A run of the code on the machine with a console. -/
def Reaches (inputs : List Int) : Machine Flat.Terminal → Machine Flat.Terminal → Prop :=
  Relation.ReflTransGen fun m m' =>
    (Flat.Terminal.processor image.address inputs).stepBy image.entry image.code m = some m'

/-- The address of a place of the unbounded machine, before it is cut off to 32 bits. -/
def position : Location → Int
  | .stack a => a
  | .data l n => image.start l + n

end Image

/-- The number of bytes that have an address. -/
def addressLimit : Nat := 4294967296

/-- Memory for code: its blocks from `base` on, and the stack between `low` and `high`. -/
structure MemoryMap (code : List Instr) where
  base : Nat
  low : Nat
  high : Nat
  blocks_le : base + blockBytes code ≤ low
  low_le : low ≤ high
  high_le : high ≤ addressLimit

namespace MemoryMap

variable {code : List Instr} (layout : MemoryMap code)

/-- A place that is not outside the memory for the stack. -/
def Covers : Location → Prop
  | .stack a => layout.low ≤ a ∧ a + 4 ≤ layout.high
  | .data .. => True

/-- Within these limits 32 bits are enough. Sums, differences and products may leave the words, as addresses
do, if they are not compared, divided, tested or printed. -/
def limits : Limits Core Int where
  Combines
    | .add, _, _ | .sub, _, _ | .mul, _, _ => True
    | _, a, b => Word.Fits a ∧ Word.Fits b
  Tests := Word.Fits
  Returns n := n < addressLimit
  Accesses c a := layout.Covers (a.place c)
  Serves c := Word.Fits (c.regs .v0) ∧ (c.regs .v0 ≠ 5 → Word.Fits (c.regs .a0))

instance (p : Location) : Decidable (layout.Covers p) :=
  match p with
  | .stack _ => inferInstanceAs (Decidable (_ ∧ _))
  | .data .. => isTrue trivial

instance (o : Op) (a b : Int) : Decidable (layout.limits.Combines o a b) :=
  match o with
  | .add | .sub | .mul => isTrue trivial
  | .div | .rem | .slt | .sle | .seq => inferInstanceAs (Decidable (_ ∧ _))

instance (P : Processor Core Int) (c : Core) (i : Instr) : Decidable (layout.limits.Allows P c i) :=
  match i with
  | .op o _ l r => inferInstanceAs (Decidable (layout.limits.Combines o (P.regs c l) (P.regs c r)))
  | .lw _ a | .sw _ a => inferInstanceAs (Decidable (layout.Covers (a.place c)))
  | .beqz r _ | .bnez r _ => inferInstanceAs (Decidable (Word.Fits (P.regs c r)))
  | .jr r => inferInstanceAs (Decidable (P.regs c r < addressLimit))
  | .syscall => inferInstanceAs (Decidable (_ ∧ _))
  | .addi .. | .subi .. | .sectionStart _ | .global _ | .word .. | .label _ | .li .. | .move .. | .j _
  | .jal _ => isTrue trivial

/-- A state of the unbounded machine, cut off to 32 bits. -/
structure Agrees (image : Image) (c : Core) (d : Flat.Terminal) : Prop where
  regs : ∀ r, d.regs r = BitVec.ofInt 32 (c.regs r)
  mem : ∀ p, p.accessible code = true → layout.Covers p →
    d.load (BitVec.ofInt 32 (image.position p)) = BitVec.ofInt 32 (c.mem p)
  reads : d.reads = c.reads
  printed : d.printed = c.printed

end MemoryMap

end ProcMips.Mips
