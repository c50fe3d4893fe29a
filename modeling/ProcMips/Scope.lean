/-!
Scopes: which names are visible, and whether a name stands for one word or for an array. Look-up
goes from the innermost scope outward.
-/

namespace ProcMips

/-- What a name refers to. An untyped name is one that is not declared. -/
inductive VarKind where
  | untyped
  | single
  | array
deriving Repr, DecidableEq

def VarKind.text : VarKind → String
  | untyped => "untyped"
  | single => "single"
  | array => "array"

/-- The names declared in one block, each once. -/
abbrev Scope := List (String × VarKind)

namespace Scope

def kind (s : Scope) (name : String) : VarKind := (s.lookup name).getD .untyped

/-- Binds `name`, in place of what it was bound to. -/
def bind (s : Scope) (name : String) (k : VarKind) : Scope :=
  match s with
  | [] => [(name, k)]
  | (x, kx) :: s => if x = name then (x, k) :: s else (x, kx) :: Scope.bind s name k

theorem kind_bind (s : Scope) (name other : String) (k : VarKind) :
    (s.bind name k).kind other = if other = name then k else s.kind other := by
  unfold kind
  induction s with
  | nil =>
    by_cases h : other = name
    · simp [bind, h]
    · simp [bind, h, List.lookup_cons, beq_eq_false_iff_ne.mpr h]
  | cons p s ih =>
    obtain ⟨x, kx⟩ := p
    by_cases hx : x = name
    · by_cases h : other = name
      · simp [bind, hx, h]
      · simp [bind, hx, h, List.lookup_cons, beq_eq_false_iff_ne.mpr h]
    · by_cases h : other = x
      · simp [bind, hx, h]
      · simp only [bind, if_neg hx, List.lookup_cons, beq_eq_false_iff_ne.mpr h]
        exact ih

/-- The bindings in the order of their names. -/
def sorted (s : Scope) : Scope := s.mergeSort fun a b => a.1 ≤ b.1

def text (s : Scope) : String :=
  String.join (s.sorted.map fun (x, k) => s!"[{x}: {k.text}] ")

end Scope

/-- The scopes that are open, innermost first. -/
abbrev ScopeStack := List Scope

namespace ScopeStack

/-- The innermost kind of `name` other than untyped. -/
def find : ScopeStack → String → VarKind
  | [], _ => .untyped
  | s :: ss, name => if s.kind name = .untyped then find ss name else s.kind name

def isDeclared (ss : ScopeStack) (name : String) : Bool := ss.find name != .untyped

/-- Binds `name` in the innermost scope, if there is one. -/
def declare? (ss : ScopeStack) (name : String) (k : VarKind) : Option ScopeStack :=
  match ss with
  | [] => none
  | s :: ss => some (s.bind name k :: ss)

def declare (ss : ScopeStack) (name : String) (k : VarKind) : ScopeStack :=
  (ss.declare? name k).getD ss

def text (ss : ScopeStack) : String :=
  String.join (ss.mapIdx fun i s => s!"{i}: {s.text}\n")

end ScopeStack

end ProcMips
