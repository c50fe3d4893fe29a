import ProcMips.Text.Blank

/-!
Selections of source lines to trace: the ranges they denote, their written form, and the bounds by
which the parser tests a line.
-/

namespace ProcMips

/-- Which source lines are traced. -/
inductive Selection where
  | all
  | off
  | only (line : Nat)
  | before (last : Nat)
  | after (first : Nat)
  | between (first last : Nat)
deriving Repr, DecidableEq

namespace Selection

/-- Whether the lexer traces `line`. -/
def includes : Selection → Nat → Bool
  | all, _ => true
  | off, _ => false
  | only n, line => line == n
  | before last, line => line ≤ last
  | after first, line => first ≤ line
  | between first last, line => first ≤ line && line ≤ last

/-- A selection as a pair of bounds, in which 0 stands for no bound. -/
structure Bounds where
  enabled : Bool
  first : Nat
  last : Nat
deriving Repr, DecidableEq

def bounds : Selection → Bounds
  | all => ⟨true, 0, 0⟩
  | off => ⟨false, 0, 0⟩
  | only n => ⟨true, n, n⟩
  | before last => ⟨true, 0, last⟩
  | after first => ⟨true, first, 0⟩
  | between first last => ⟨true, first, last⟩

/-- Whether the parser traces `line`. -/
def Bounds.includes (b : Bounds) (line : Nat) : Bool :=
  b.enabled && (b.first == 0 || b.first ≤ line) && (b.last == 0 || line ≤ b.last)

/-- The largest line number that can be written in a selection. -/
def greatestNumber : Nat := 18446744073709551615

/-- An optional plus sign and a run of digits, blanks around them aside. -/
def number? (cs : List Char) : Option Nat :=
  let digits := match trimBlank cs with
    | '+' :: ds => ds
    | ds => ds
  if digits ≠ [] ∧ digits.all Char.isDigit then
    let n := Nat.ofDigitChars 10 digits 0
    if n ≤ greatestNumber then some n else none
  else none

/-- Why a text is no selection. -/
inductive Malformed where
  | number (text : String)
  | reversed (text : String)
deriving Repr, DecidableEq

def Malformed.message : Malformed → String
  | number text => "Invalid line number in trace config: " ++ text
  | reversed text => "Trace range start is after its end: " ++ text

/-- The part before the first colon and the part after it. -/
def splitColon? (cs : List Char) : Option (List Char × List Char) :=
  match cs.span (· ≠ ':') with
  | (first, _ :: last) => some (first, last)
  | (_, []) => none

/-- The written forms are `all`, `off`, `N`, `N:M`, `..N` and `N..`. -/
def parse (text : String) : Except Malformed Selection :=
  let line (cs : List Char) : Except Malformed Nat :=
    match number? cs with
    | some n => .ok n
    | none => .error (.number text)
  match trimBlank text.toList with
  | ['a', 'l', 'l'] => .ok all
  | ['o', 'f', 'f'] => .ok off
  | '.' :: '.' :: cs => before <$> line cs
  | cs =>
    match cs.reverse with
    | '.' :: '.' :: rev => after <$> line rev.reverse
    | _ =>
      match splitColon? cs with
      | none => only <$> line cs
      | some (first, last) => do
        let first ← line first
        let last ← line last
        if last < first then .error (.reversed text) else .ok (between first last)

end Selection

end ProcMips
