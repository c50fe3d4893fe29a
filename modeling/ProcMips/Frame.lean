import ProcMips.Word

/-!
The layout of a procedure's stack frame. Slots are appended in the order of declaration, each where
the last one ends; a slot that is asked for again may grow, and the slots behind it move. Finishing
turns every position into an offset from the frame pointer, which lies below the save area.
-/

namespace ProcMips

/-- Bytes in a word. -/
def wordSize : Int := 4

/-- Bytes that hold the saved registers, at the bottom of a frame. -/
def saveArea : Int := 40

/-- The most bytes that the slots of a frame can occupy. -/
def maxFrameSize : Int := Word.greatest - saveArea

/-- Where a variable is stored. Until the frame is finished `offset` is the position in the order of
declaration. -/
structure Slot where
  offset : Int
  size : Int
deriving Repr, DecidableEq

/-- The offset from the frame pointer of a slot below `top`. -/
def Slot.mirror (top : Int) (s : Slot) : Except Overflow Slot := do
  let below ← Word.sub s.offset top
  let tail ← Word.sub s.size wordSize
  let offset ← Word.neg (← Word.add below tail)
  return { s with offset }

structure Frame where
  slots : List (String × Slot)
  args : List String
  lastOffset : Int
  lastSize : Int
  finished : Bool
deriving Repr, DecidableEq

namespace Frame

def empty : Frame := ⟨[], [], 0, 0, false⟩

/-- Why a name gets no slot. -/
inductive Refusal where
  | tooLarge
  | overflow (op : Overflow)
deriving Repr, DecidableEq

/-- Bytes that the slots occupy. -/
def size (f : Frame) : Except Overflow Int := Word.add f.lastOffset f.lastSize

def slot? (f : Frame) (name : String) : Option Slot := f.slots.lookup name

def offset? (f : Frame) (name : String) : Option Int := (f.slot? name).map Slot.offset

def argCount (f : Frame) : Nat := f.args.length

/-- Adds `diff` to the offset of each slot that begins after `start`. -/
def shift (start diff : Int) (slots : List (String × Slot)) :
    Except Overflow (List (String × Slot)) :=
  slots.mapM fun (x, s) =>
    if start < s.offset then do
      let offset ← Word.add s.offset diff
      return (x, { s with offset })
    else return (x, s)

/-- Sets the size of the slot of `name`. -/
def resize (name : String) (size : Int) (slots : List (String × Slot)) : List (String × Slot) :=
  slots.map fun (x, s) => if x = name then (x, { s with size }) else (x, s)

/-- The bytes of a frame grown by `more`, if a frame can be that large. -/
def grownSize (f : Frame) (more : Int) : Except Refusal Int :=
  match f.size with
  | .error op => .error (.overflow op)
  | .ok size => if size + more ≤ maxFrameSize then .ok (size + more) else .error .tooLarge

/-- A frame with a new slot at its end. -/
def append (f : Frame) (name : String) (size : Int) : Except Refusal Frame := do
  let grown ← f.grownSize size
  let offset := grown - size
  return { f with
    slots := f.slots ++ [(name, ⟨offset, size⟩)]
    lastOffset := offset
    lastSize := size }

/-- A frame in which `s`, the slot of `name`, has grown to `size`. -/
def widen (f : Frame) (name : String) (s : Slot) (size : Int) : Except Refusal Frame := do
  let diff := size - s.size
  let _ ← f.grownSize diff
  match shift s.offset diff f.slots with
  | .error op => .error (.overflow op)
  | .ok slots =>
    let moved := f.slots.any fun (_, t) => s.offset < t.offset ∧ t.offset = f.lastOffset
    return { f with
      slots := resize name size slots
      lastOffset := if moved then f.lastOffset + diff else f.lastOffset
      lastSize := if s.offset = f.lastOffset then size else f.lastSize }

/-- Storage of `words` words for `name`: a new slot, or the one it has, grown if it is too small. -/
def insert (f : Frame) (name : String) (words : Nat) : Except Refusal Frame :=
  let size : Int := wordSize * words
  if size ≤ Word.greatest then
    match f.slot? name with
    | none => f.append name size
    | some s => if s.size < size then f.widen name s size else .ok f
  else .error .tooLarge

/-- Storage of one word for the next parameter. -/
def insertArg (f : Frame) (name : String) : Except Refusal Frame := do
  let f ← f.insert name 1
  return { f with args := f.args ++ [name] }

/-- Turns positions into offsets from the frame pointer, once. -/
def finish (f : Frame) : Except Overflow Frame :=
  if f.finished then .ok f
  else do
    let top ← Word.add saveArea (← f.size)
    let slots ← f.slots.mapM fun (x, s) => do return (x, ← Slot.mirror top s)
    return { f with slots, finished := true }

/-- The lines that list a frame. -/
def lines (f : Frame) (size : Int) : List String :=
  s!"size: {size}" :: f.slots.map fun (x, s) => s!"{x}: {s.offset} [{s.size}]"

end Frame

end ProcMips
