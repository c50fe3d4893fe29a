import Mathlib.Logic.Relation
import ProcMips.Mips.Instr

/-! A machine for the instructions that leaves open what words, registers and memory are. A processor says
what is done with them. The flow of control, which is the same for all processors, is added here: labels
stand for the places of instructions in the code. -/

namespace ProcMips.Mips

/-- What is done with states `σ` and words `W`. An operator without a result, an access that cannot be made,
a service that there is not and a word that is no place in the code stop the machine. -/
structure Processor (σ W : Type) where
  regs : σ → Register → W
  set : σ → Register → W → σ
  word : Int → W
  apply : Op → W → W → Option W
  load : σ → Address → Option W
  store : σ → Address → W → Option σ
  syscall : σ → Option σ
  isTrue : W → Bool
  target : W → Option Nat

/-- The place of the next instruction, and a state. -/
structure Machine (σ : Type) where
  pc : Nat
  core : σ

/-- Where a code label stands. -/
def resolve (code : List Instr) (l : String) : Option Nat := code.findIdx? (· = .label l)

/-- A jump, where `entry` says where labels lead. -/
def Machine.jump {σ : Type} (entry : String → Option Nat) (m : Machine σ) (l : String) :
    Option (Machine σ) :=
  (entry l).map fun pc => { m with pc }

namespace Processor

variable {σ W : Type} (P : Processor σ W)

/-- What an instruction does that does not jump. -/
def effect : Instr → σ → Option σ
  | .label _, c => some c
  | .li d n, c => some (P.set c d (P.word n))
  | .move d s, c => some (P.set c d (P.regs c s))
  | .lw d a, c => (P.load c a).map (P.set c d)
  | .sw s a, c => P.store c a (P.regs c s)
  | .op o d l r, c => (P.apply o (P.regs c l) (P.regs c r)).map (P.set c d)
  | .addi d l n, c => (P.apply .add (P.regs c l) (P.word n)).map (P.set c d)
  | .subi d l n, c => (P.apply .sub (P.regs c l) (P.word n)).map (P.set c d)
  | .syscall, c => P.syscall c
  | _, _ => none

def stepBy (entry : String → Option Nat) (code : List Instr) (m : Machine σ) : Option (Machine σ) :=
  match code[m.pc]? with
  | none => none
  | some (.j l) => m.jump entry l
  | some (.jal l) => { m with core := P.set m.core .ra (P.word (m.pc + 1)) }.jump entry l
  | some (.jr r) => (P.target (P.regs m.core r)).map fun pc => { m with pc }
  | some (.beqz r l) =>
    if P.isTrue (P.regs m.core r) then some { m with pc := m.pc + 1 } else m.jump entry l
  | some (.bnez r l) =>
    if P.isTrue (P.regs m.core r) then m.jump entry l else some { m with pc := m.pc + 1 }
  | some i => (P.effect i m.core).map fun core => ⟨m.pc + 1, core⟩

/-- A step where labels lead to where they stand. -/
def step (code : List Instr) : Machine σ → Option (Machine σ) := P.stepBy (resolve code) code

/-- Some number of steps leads from one state to another. -/
def Reaches (code : List Instr) : Machine σ → Machine σ → Prop :=
  Relation.ReflTransGen fun m m' => P.step code m = some m'

/-- The effects of instructions in turn. -/
def effects (k : List Instr) (c : σ) : Option σ := k.foldlM (fun c i => P.effect i c) c

end Processor

/-- Which operands, tests, places in the code, accesses and services may occur in a run. -/
structure Limits (σ W : Type) where
  Combines : Op → W → W → Prop
  Tests : W → Prop
  Returns : W → Prop
  Accesses : σ → Address → Prop
  Serves : σ → Prop

namespace Limits

variable {σ W : Type} (L : Limits σ W) (P : Processor σ W)

/-- An instruction keeps to the limits. -/
def Allows (c : σ) : Instr → Prop
  | .op o _ l r => L.Combines o (P.regs c l) (P.regs c r)
  | .addi _ l n => L.Combines .add (P.regs c l) (P.word n)
  | .subi _ l n => L.Combines .sub (P.regs c l) (P.word n)
  | .lw _ a | .sw _ a => L.Accesses c a
  | .beqz r _ | .bnez r _ => L.Tests (P.regs c r)
  | .jr r => L.Returns (P.regs c r)
  | .syscall => L.Serves c
  | _ => True

/-- Every instruction of the runs from `m` keeps to the limits. -/
def Fits (code : List Instr) (m : Machine σ) : Prop :=
  ∀ m', P.Reaches code m m' → ∀ i, code[m'.pc]? = some i → L.Allows P m'.core i

end Limits

end ProcMips.Mips
