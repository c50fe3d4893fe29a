import ProcMips.Syntax.Basic
import ProcMips.Text.Lines

/-!
A program as a tree of labels, and two ways to write the tree: as indented lines, and as the nodes
and edges of a graph. Nodes are numbered from 1 in the order of the lines, and the edge to a child
follows the child's own items.
-/

namespace ProcMips

inductive Outline where
  | node (label : String) (children : List Outline)
deriving Repr

namespace Outline

def leaf (label : String) : Outline := node label []

mutual

def size : Outline → Nat
  | node _ children => 1 + sizes children

def sizes : List Outline → Nat
  | [] => 0
  | t :: ts => t.size + sizes ts

end

def indent (depth : Nat) : String := String.ofList (List.replicate (2 * depth) ' ')

mutual

/-- One line for each node, two blanks deeper than its parent. -/
def lines (depth : Nat) : Outline → List String
  | node label children => (indent depth ++ label) :: linesOf (depth + 1) children

def linesOf (depth : Nat) : List Outline → List String
  | [] => []
  | t :: ts => t.lines depth ++ linesOf depth ts

end

mutual

theorem length_lines (t : Outline) (depth : Nat) : (t.lines depth).length = t.size := by
  obtain ⟨label, children⟩ := t
  rw [lines, size, List.length_cons, length_linesOf]
  omega

theorem length_linesOf (ts : List Outline) (depth : Nat) :
    (linesOf depth ts).length = sizes ts := by
  cases ts with
  | nil => rfl
  | cons t ts => rw [linesOf, sizes, List.length_append, length_lines, length_linesOf]

end

/-- A node or an edge of a graph. -/
inductive GraphItem where
  | node (id : Nat) (label : String)
  | edge (source target : Nat)
deriving Repr, DecidableEq

namespace GraphItem

/-- A label with its double quotes escaped. -/
def escape (label : String) : String :=
  String.ofList (label.toList.flatMap fun c => if c = '"' then ['\\', '"'] else [c])

def text : GraphItem → String
  | node id label => s!"n{id} [label=\"" ++ escape label ++ "\"];"
  | edge source target => s!"n{source} -> n{target};"

end GraphItem

mutual

/-- The items of a tree whose root gets the next number, and the next number behind the tree. -/
def walk (next : Nat) : Outline → List GraphItem × Nat
  | node label children =>
    let (items, after) := walkOf next (next + 1) children
    (.node next label :: items, after)

/-- The items below `parent`, and the next number behind them. -/
def walkOf (parent next : Nat) : List Outline → List GraphItem × Nat
  | [] => ([], next)
  | t :: ts =>
    let (items, between) := t.walk next
    let (others, after) := walkOf parent between ts
    (items ++ .edge parent next :: others, after)

end

mutual

/-- A walk hands out one number for each node. -/
theorem snd_walk (t : Outline) (next : Nat) : (t.walk next).2 = next + t.size := by
  obtain ⟨label, children⟩ := t
  rw [walk, size, ← Nat.add_assoc]
  exact snd_walkOf children next (next + 1)

theorem snd_walkOf (ts : List Outline) (parent next : Nat) :
    (walkOf parent next ts).2 = next + sizes ts := by
  cases ts with
  | nil => rfl
  | cons t ts =>
    rw [walkOf, sizes, ← Nat.add_assoc, ← snd_walk]
    exact snd_walkOf ts parent _

end

/-- The items of a tree whose root is number `id`. -/
def graph (id : Nat) (t : Outline) : List GraphItem := (t.walk id).1

/-- The items below `parent`, of which the next is number `id`. -/
def graphOf (parent id : Nat) (ts : List Outline) : List GraphItem := (walkOf parent id ts).1

theorem graph_node (id : Nat) (label : String) (children : List Outline) :
    graph id (node label children) = .node id label :: graphOf id (id + 1) children := by
  rw [graph, walk, graphOf]

theorem graphOf_cons (parent id : Nat) (t : Outline) (ts : List Outline) :
    graphOf parent id (t :: ts) =
      t.graph id ++ .edge parent id :: graphOf parent (id + t.size) ts := by
  rw [graphOf, walkOf, graph, graphOf, ← snd_walk]

end Outline

def Expr.label (e : Expr) : String := s!"L{e.line}: {e.head}"

mutual

def Expr.outline : Expr → Outline
  | e@(.int ..) | e@(.bool ..) | e@(.scalar ..) => .leaf e.label
  | e@(.element _ _ index) => .node e.label [index.outline]
  | e@(.call _ _ args) => .node e.label (Expr.outlines args)
  | e@(.binary _ _ left right) => .node e.label [left.outline, right.outline]
  | e@(.not _ operand) => .node e.label [operand.outline]

def Expr.outlines : List Expr → List Outline
  | [] => []
  | e :: es => e.outline :: Expr.outlines es

end

def Target.outlines : Target → List Outline
  | .scalar _ => []
  | .element _ index => [index.outline]

def Stmt.label (s : Stmt) : String := s!"L{s.line}: {s.head}"

mutual

def Stmt.outline : Stmt → Outline
  | s@(.declare ..) => .leaf s.label
  | s@(.assign _ target value) => .node s.label (target.outlines ++ [value.outline])
  | s@(.block _ body) => .node s.label (Stmt.outlines body)
  | s@(.ifThen _ condition yes) => .node s.label [condition.outline, yes.outline]
  | s@(.ifElse _ condition yes no) => .node s.label [condition.outline, yes.outline, no.outline]
  | s@(.loop _ condition body) => .node s.label [condition.outline, body.outline]
  | s@(.output _ value) | s@(.ret _ value) => .node s.label [value.outline]
  | s@(.input _ target) => .node s.label target.outlines
  | s@(.call _ _ args) => .node s.label (Expr.outlines args)

def Stmt.outlines : List Stmt → List Outline
  | [] => []
  | s :: ss => s.outline :: Stmt.outlines ss

end

def Global.outline (g : Global) : Outline := .leaf s!"L{g.line}: var {g.shape.text} {g.name}"

def Param.outline (p : Param) : Outline := .leaf s!"L{p.line}: arg {p.name}"

def Procedure.outline (p : Procedure) : Outline :=
  .node s!"L{p.line}: procedure {p.name}" (p.params.map Param.outline ++ [p.body.outline])

namespace Program

def outline (p : Program) : Outline :=
  .node "program" (p.globals.map Global.outline ++ p.procedures.map Procedure.outline)

/-- The indented tree of a program. -/
def treeText (p : Program) : String := unlines (p.outline.lines 0)

/-- The directed graph of a program. -/
def graphText (p : Program) : String :=
  unlines (["digraph parse_tree \x7b", "node [color=lightblue2, style=filled];"] ++
    (p.outline.graph 1).map Outline.GraphItem.text ++ ["\x7d"])

end Program

end ProcMips
