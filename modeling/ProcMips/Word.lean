/-!
Arithmetic on signed 32-bit words, carried out on integers. An operation whose exact result is no
word reports which operation it was.
-/

namespace ProcMips

/-- The operation whose result left the range of a word. -/
inductive Overflow where
  | add
  | subtract
  | negate
  | multiply
deriving Repr, DecidableEq

def Overflow.message : Overflow → String
  | .add => "attempt to add with overflow"
  | .subtract => "attempt to subtract with overflow"
  | .negate => "attempt to negate with overflow"
  | .multiply => "attempt to multiply with overflow"

namespace Word

def least : Int := -2147483648

def greatest : Int := 2147483647

/-- The integers that a word can hold. -/
def Fits (n : Int) : Prop := least ≤ n ∧ n ≤ greatest

instance (n : Int) : Decidable (Fits n) := inferInstanceAs (Decidable (_ ∧ _))

/-- The exact result of `op`, provided that it is a word. -/
def checked (op : Overflow) (n : Int) : Except Overflow Int :=
  if Fits n then .ok n else .error op

def add (a b : Int) : Except Overflow Int := checked .add (a + b)

def sub (a b : Int) : Except Overflow Int := checked .subtract (a - b)

def neg (a : Int) : Except Overflow Int := checked .negate (-a)

def mul (a b : Int) : Except Overflow Int := checked .multiply (a * b)

theorem checked_eq_ok_iff {op : Overflow} {n m : Int} :
    checked op n = .ok m ↔ Fits n ∧ n = m := by
  unfold checked; split <;> simp_all

theorem checked_of_fits {op : Overflow} {n : Int} (h : Fits n) : checked op n = .ok n := by
  simp [checked, h]

end Word

end ProcMips
