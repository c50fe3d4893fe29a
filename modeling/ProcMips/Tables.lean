import ProcMips.Frame

/-!
Symbol tables: the globals with their sizes and the procedures with their frames, both in the order
of declaration.
-/

namespace ProcMips

structure Tables where
  globals : List (String × Nat)
  frames : List (String × Frame)
deriving Repr, DecidableEq

namespace Tables

def empty : Tables := ⟨[], []⟩

/-- The words of a global variable. -/
def global? (t : Tables) (name : String) : Option Nat := t.globals.lookup name

def isGlobal (t : Tables) (name : String) : Bool := (t.global? name).isSome

/-- The frame of a procedure. -/
def frame? (t : Tables) (name : String) : Option Frame := t.frames.lookup name

def addGlobal (t : Tables) (name : String) (words : Nat) : Tables :=
  { t with globals := t.globals ++ [(name, words)] }

def addFrame (t : Tables) (name : String) (f : Frame) : Tables :=
  { t with frames := t.frames ++ [(name, f)] }

end Tables

end ProcMips
