import ProcMips.Mips.Register
import ProcMips.Text.Lines
import ProcMips.Word

/-!
Assembly instructions and directives, their text, and their effect on the stack pointer.
-/

namespace ProcMips.Mips

/-- What generated labels begin with. -/
def generatedStem : String := "label"

/-- A memory operand. -/
inductive Address where
  | offset (bytes : Int) (base : Register)
  | indirect (base : Register)
  | label (name : String)
  | indexed (name : String) (index : Register)
deriving Repr, DecidableEq

def Address.text : Address → String
  | offset n r => s!"{n}({r.text})"
  | indirect r => s!"({r.text})"
  | label l => l
  | indexed l r => s!"{l}({r.text})"

/-- The instructions with three register operands. -/
inductive Op where
  | add
  | sub
  | mul
  | div
  | rem
  | slt
  | sle
  | seq
deriving Repr, DecidableEq

def Op.text : Op → String
  | add => "add"
  | sub => "sub"
  | mul => "mul"
  | div => "div"
  | rem => "rem"
  | slt => "slt"
  | sle => "sle"
  | seq => "seq"

inductive Instr where
  | sectionStart (name : String)
  | global (name : String)
  | word (name : String) (count : Nat)
  | label (name : String)
  | li (dest : Register) (value : Int)
  | move (dest source : Register)
  | lw (dest : Register) (address : Address)
  | sw (source : Register) (address : Address)
  | op (op : Op) (dest left right : Register)
  | addi (dest left : Register) (value : Int)
  | subi (dest left : Register) (value : Int)
  | j (target : String)
  | jal (target : String)
  | jr (target : Register)
  | beqz (test : Register) (target : String)
  | bnez (test : Register) (target : String)
  | syscall
deriving Repr, DecidableEq

namespace Instr

/-- A label that is not generated starts a procedure, and has a blank line before it. -/
def labelText (name : String) : String :=
  if generatedStem.toList.isPrefixOf name.toList then name ++ ":" else "\n" ++ name ++ ":"

/-- One word is written on its own; any other count is written as a repetition of 0. -/
def wordText (name : String) (count : Nat) : String :=
  if count = 1 then name ++ ":\t.word 0" else s!"{name}:\t.word\t0:{count}"

def text : Instr → String
  | sectionStart s => s
  | global g => "\t.globl\t" ++ g
  | word l n => wordText l n
  | label l => labelText l
  | li d n => s!"\tli\t{d.text}, {n}"
  | move d s => s!"\tmove\t{d.text}, {s.text}"
  | lw d a => s!"\tlw\t{d.text}, {a.text}"
  | sw s a => s!"\tsw\t{s.text}, {a.text}"
  | op o d l r => s!"\t{o.text}\t{d.text}, {l.text}, {r.text}"
  | addi d l n => s!"\tadd\t{d.text}, {l.text}, {n}"
  | subi d l n => s!"\tsub\t{d.text}, {l.text}, {n}"
  | j t => "\tj\t" ++ t
  | jal t => "\tjal\t" ++ t
  | jr r => "\tjr\t" ++ r.text
  | beqz r t => s!"\tbeqz\t{r.text}, {t}"
  | bnez r t => s!"\tbnez\t{r.text}, {t}"
  | syscall => "\tsyscall"

/-- Bytes that an immediate adjustment adds to the stack pointer. -/
def stackEffect : Instr → Except Overflow Int
  | addi .sp .sp n => .ok n
  | subi .sp .sp n => Word.neg n
  | _ => .ok 0

end Instr

/-- The text of a list of instructions, a line for each. -/
def codeText (code : List Instr) : String := unlines (code.map Instr.text)

end ProcMips.Mips
