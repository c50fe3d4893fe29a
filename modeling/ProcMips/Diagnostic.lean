/-!
Source lines, and causes of failure that are located on one.
-/

namespace ProcMips

/-- Lines count from 1. -/
abbrev Line := Nat

/-- A cause of failure and the line that it is reported on. -/
structure Located (κ : Type) where
  line : Line
  cause : κ
deriving Repr, DecidableEq

namespace Located

/-- The text of a located failure, given the text of its cause. -/
def text {κ : Type} (describe : κ → String) (e : Located κ) : String :=
  s!"L{e.line}: " ++ describe e.cause

end Located

end ProcMips
