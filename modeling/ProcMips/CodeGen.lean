import ProcMips.Mips.Sequence
import ProcMips.Syntax.Basic
import ProcMips.Tables

/-!
Code generation. The code of an expression leaves one word on the stack, and the code of a
statement leaves the stack as it was. Labels are numbered in the order in which they are asked for,
through the whole program.
-/

namespace ProcMips

open Mips

/-- Why no code can be generated from these symbol tables. -/
inductive CodeError where
  | noFrame (procedure : String)
  | noSlot (name procedure : String)
  | noInstruction (op : BinOp)
  | overflow (op : Overflow)
deriving Repr, DecidableEq

def CodeError.message : CodeError → String
  | noFrame p => s!"No frame was computed for procedure {p}"
  | noSlot x p => s!"{x} has no slot in the frame of {p}"
  | noInstruction op => s!"{op.text} is short circuited and has no single instruction"
  | overflow op => op.message

/-- Generators of code, over the number of labels used so far. -/
abbrev Gen := StateT Nat (Except CodeError)

/-- The count of labels is a number of 32 bits. -/
def labelLimit : Nat := 4294967296

namespace Gen

def freshLabel : Gen String := fun n =>
  if n + 1 < labelLimit then .ok (generatedLabel n, n + 1) else .error (.overflow .add)

def word (r : Except Overflow Int) : Gen Int := fun n =>
  match r with
  | .ok i => .ok (i, n)
  | .error op => .error (.overflow op)

end Gen

/-- How the operands of an operator are evaluated: the left one first, the right one first, or the
right one only if the left one does not decide. -/
inductive BinOp.Order where
  | leftFirst
  | rightFirst
  | shortCircuit (decidedBy : Bool)
deriving Repr, DecidableEq

/-- `l > r` is computed as `r < l`, and `l >= r` as `r <= l`. -/
def BinOp.order : BinOp → BinOp.Order
  | add | sub | mul | div | rem | less | lessEqual | equal => .leftFirst
  | greater | greaterEqual => .rightFirst
  | and => .shortCircuit false
  | or => .shortCircuit true

/-- The instruction that combines the operands, the one evaluated first in `$t0`. -/
def BinOp.instr : BinOp → Gen Op
  | add => return .add
  | sub => return .sub
  | mul => return .mul
  | div => return .div
  | rem => return .rem
  | less | greater => return .slt
  | lessEqual | greaterEqual => return .sle
  | equal => return .seq
  | and => throw (.noInstruction .and)
  | or => throw (.noInstruction .or)

/-- The word that stands for a truth value. -/
def truthWord (b : Bool) : Int := if b then 1 else 0

/-- Where the names in the body of a procedure are stored. -/
structure Storage where
  tables : Tables
  procedure : String
  frame : Frame
deriving Repr

namespace Storage

def offset (s : Storage) (x : String) : Gen Int :=
  match s.frame.offset? x with
  | some n => return n
  | none => throw (.noSlot x s.procedure)

def scalarAddress (s : Storage) (x : String) : Gen Address :=
  if s.tables.isGlobal x then return .label (globalLabel x)
  else return .offset (← s.offset x) .fp

/-- Turns the index in `$t0` into the address of an element of `x`; `scratch` is overwritten. -/
def elementAddress (s : Storage) (x : String) (scratch : Register) : Gen (List Instr × Address) :=
  let scale := [.li scratch wordSize, .op .mul .t0 .t0 scratch]
  if s.tables.isGlobal x then return (scale, .indexed (globalLabel x) .t0)
  else return (scale ++ [.li .t4 (← s.offset x), .op .add .t4 .t4 .t0, .op .add .t4 .t4 .fp],
    .indirect .t4)

end Storage

mutual

/-- Code that pushes the value of an expression. -/
def Expr.code (s : Storage) : Expr → Gen (List Instr)
  | .int _ n => return .li .s0 n :: pushReg .s0
  | .bool _ b => return .li .s0 (truthWord b) :: pushReg .s0
  | .scalar _ x => do
    let address ← s.scalarAddress x
    return .lw .t0 address :: pushReg .t0
  | .element _ x index => do
    let index ← index.code s
    let (scale, address) ← s.elementAddress x .t1
    return index ++ popReg .t0 ++ scale ++ .lw .t1 address :: pushReg .t1
  | .call _ f args => do
    let args ← Expr.codes s args
    return args ++ [.jal (procLabel f)]
  | .binary _ op left right =>
    match op.order with
    | .leftFirst => do
      let left ← left.code s
      let right ← right.code s
      let o ← op.instr
      return left ++ right ++ popReg .t1 ++ popReg .t0 ++ .op o .s0 .t0 .t1 :: pushReg .s0
    | .rightFirst => do
      let right ← right.code s
      let left ← left.code s
      let o ← op.instr
      return right ++ left ++ popReg .t1 ++ popReg .t0 ++ .op o .s0 .t0 .t1 :: pushReg .s0
    | .shortCircuit decidedBy => do
      let decided ← Gen.freshLabel
      let done ← Gen.freshLabel
      let branch : Instr := if decidedBy then .bnez .t0 decided else .beqz .t0 decided
      let left ← left.code s
      let right ← right.code s
      return left ++ popReg .t0 ++ branch :: right ++ popReg .t0 ++
        [branch, .li .s0 (truthWord !decidedBy), .j done, .label decided,
          .li .s0 (truthWord decidedBy), .label done] ++ pushReg .s0
  | .not _ operand => do
    let done ← Gen.freshLabel
    let operand ← operand.code s
    return operand ++ popReg .t0 ++
      [.li .s0 0, .bnez .t0 done, .li .s0 1, .label done] ++ pushReg .s0

/-- Code that pushes the values of expressions, from left to right. -/
def Expr.codes (s : Storage) : List Expr → Gen (List Instr)
  | [] => return []
  | e :: es => do
    let e ← e.code s
    let es ← Expr.codes s es
    return e ++ es

end

/-- Code that jumps to `onFalse` if the condition is 0. -/
def Expr.branchCode (s : Storage) (condition : Expr) (onFalse : String) : Gen (List Instr) := do
  let condition ← condition.code s
  return condition ++ popReg .s0 ++ [.beqz .s0 onFalse]

/-- Gives the frame back and returns the value in `$t0` on top of the stack. -/
def Storage.epilogue (s : Storage) : Gen (List Instr) := do
  let size ← Gen.word s.frame.size
  return restoreRegisters ++ [.li .t1 size, .op .add .sp .sp .t1] ++ pushReg .t0 ++ [.jr .ra]

mutual

def Stmt.code (s : Storage) : Stmt → Gen (List Instr)
  | .declare .. => return []
  | .assign _ (.scalar x) value => do
    let value ← value.code s
    let address ← s.scalarAddress x
    return value ++ popReg .s0 ++ [.sw .s0 address]
  | .assign _ (.element x index) value => do
    let index ← index.code s
    let value ← value.code s
    let (scale, address) ← s.elementAddress x .t2
    return index ++ value ++ popReg .t1 ++ popReg .t0 ++ scale ++ [.sw .t1 address]
  | .block _ body => Stmt.codes s body
  | .ifThen _ condition yes => do
    let done ← Gen.freshLabel
    let condition ← condition.branchCode s done
    let yes ← yes.code s
    return condition ++ yes ++ [.label done]
  | .ifElse _ condition yes no => do
    let otherwise ← Gen.freshLabel
    let done ← Gen.freshLabel
    let condition ← condition.branchCode s otherwise
    let yes ← yes.code s
    let no ← no.code s
    return condition ++ yes ++ [.j done, .label otherwise] ++ no ++ [.label done]
  | .loop _ condition body => do
    let start ← Gen.freshLabel
    let done ← Gen.freshLabel
    let condition ← condition.branchCode s done
    let body ← body.code s
    return .label start :: condition ++ body ++ [.j start, .label done]
  | .output _ value => do
    let value ← value.code s
    return value ++ popReg .a0 ++ printInt
  | .input _ (.scalar x) => do
    let address ← s.scalarAddress x
    return readInt ++ [.sw .v0 address]
  | .input _ (.element x index) => do
    let index ← index.code s
    let (scale, address) ← s.elementAddress x .t2
    return index ++ readInt ++ popReg .t0 ++ scale ++ [.sw .v0 address]
  | .ret _ value => do
    let value ← value.code s
    let epilogue ← s.epilogue
    return value ++ popReg .t0 ++ epilogue
  | .call _ f args => do
    let args ← Expr.codes s args
    return args ++ .jal (procLabel f) :: popReg .t0

def Stmt.codes (s : Storage) : List Stmt → Gen (List Instr)
  | [] => return []
  | t :: ts => do
    let t ← t.code s
    let ts ← Stmt.codes s ts
    return t ++ ts

end

/-- Bytes that a procedure reserves below the arguments that its caller pushed. -/
def Frame.reserve (f : Frame) : Except Overflow Int := do
  let size ← f.size
  let args ← Word.mul f.argCount wordSize
  Word.sub size args

namespace Procedure

/-- Code from the label of a procedure to its last return; a body that ends without one returns 0.
-/
def bodyCode (p : Procedure) (s : Storage) : Gen (List Instr) := do
  let reserve ← Gen.word s.frame.reserve
  let body ← p.body.code s
  let epilogue ← s.epilogue
  return [.label (procLabel p.name), .li .t0 reserve, .op .sub .sp .sp .t0] ++ saveRegisters ++
    [.move .fp .sp] ++ body ++ .li .t0 0 :: epilogue

/-- The code of a procedure. The program starts at the one named `main`. -/
def code (p : Procedure) (tables : Tables) : Gen (List Instr) :=
  match tables.frame? p.name with
  | none => throw (.noFrame p.name)
  | some frame => do
    let body ← p.bodyCode ⟨tables, p.name, frame⟩
    return if p.name = mainName then .label mainName :: body else body

end Procedure

namespace Program

/-- One block of zeros for each global variable, and the sections of the program. -/
def dataCode (tables : Tables) : List Instr :=
  .sectionStart ".data" :: tables.globals.map (fun (x, n) => .word (globalLabel x) n) ++
    [.sectionStart ".text", .global mainName]

def proceduresCode (tables : Tables) : List Procedure → Gen (List Instr)
  | [] => return []
  | p :: ps => do
    let p ← p.code tables
    let ps ← proceduresCode tables ps
    return p ++ ps

/-- The instructions of a program. -/
def code (p : Program) (tables : Tables) : Except CodeError (List Instr) :=
  match proceduresCode tables p.procedures 0 with
  | .error e => .error e
  | .ok (procedures, _) => .ok (dataCode tables ++ procedures)

/-- The assembly text of a program. -/
def assembly (p : Program) (tables : Tables) : Except CodeError String :=
  (p.code tables).map codeText

end Program

end ProcMips
