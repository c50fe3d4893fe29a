import Mathlib.Data.List.TakeWhile
import Mathlib.Order.Basic
import ProcMips.Proofs.Text.Rows
import ProcMips.Syntax.Outline

/-! The lines of an outline are its nodes in order, each with its depth and its label. A node that is
deeper than the one in front of it is its child, so that depths and labels determine the outline. -/

namespace ProcMips

/-- The number of blanks that a line starts with. -/
def indentation (line : String) : Nat := (line.toList.takeWhile (· = ' ')).length

/-- A line without the blanks that it starts with. -/
def unindented (line : String) : String := String.ofList (line.toList.dropWhile (· = ' '))

/-- A text that stays as it is where it is quoted, and on one line. -/
def PlainText (s : String) : Prop := ∀ c ∈ s.toList, c ≠ '"' ∧ c ≠ '\\' ∧ c ≠ '\n'

-- The condition is Boolean, so that no instance that searches all characters is chosen for it.
instance : DecidablePred PlainText := fun s =>
  decidable_of_iff (s.toList.all (fun c => c != '"' && c != '\\' && c != '\n') = true) <| by
    simp only [List.all_eq_true, Bool.and_eq_true, bne_iff_ne, PlainText, and_assoc]

/-- A plain text that does not start with a blank. -/
structure PlainLabel (label : String) : Prop where
  plain : PlainText label
  flush : label.toList.head? ≠ some ' '

namespace Outline

mutual

/-- The depths and the labels of the nodes, in the order of their lines. -/
def entries (depth : Nat) : Outline → List (Nat × String)
  | node label children => (depth, label) :: entriesOf (depth + 1) children

def entriesOf (depth : Nat) : List Outline → List (Nat × String)
  | [] => []
  | t :: ts => t.entries depth ++ entriesOf depth ts

end

/-- How an entry is written. -/
def entryLine (e : Nat × String) : String := indent e.1 ++ e.2

theorem entriesOf_eq_flatMap (depth : Nat) (ts : List Outline) :
    entriesOf depth ts = ts.flatMap (entries depth) := by
  induction ts with
  | nil => rfl
  | cons t ts ih => rw [entriesOf, ih, List.flatMap_cons]

mutual

theorem lines_eq (t : Outline) (depth : Nat) : t.lines depth = (t.entries depth).map entryLine := by
  obtain ⟨label, children⟩ := t
  rw [lines, entries, List.map_cons, linesOf_eq]
  rfl

theorem linesOf_eq (ts : List Outline) (depth : Nat) :
    linesOf depth ts = (entriesOf depth ts).map entryLine := by
  cases ts with
  | nil => rfl
  | cons t ts => rw [linesOf, entriesOf, List.map_append, lines_eq, linesOf_eq]

end

section Indentation

variable {e : Nat × String}

theorem toList_entryLine (e : Nat × String) :
    (entryLine e).toList = List.replicate (2 * e.1) ' ' ++ e.2.toList := by
  rw [entryLine, String.toList_append, indent, String.toList_ofList]

theorem indentation_entryLine (h : PlainLabel e.2) : indentation (entryLine e) = 2 * e.1 := by
  have hlabel : e.2.toList.takeWhile (· = ' ') = [] := by
    have hflush := h.flush
    cases htext : e.2.toList with
    | nil => rfl
    | cons c cs => simpa [htext] using hflush
  rw [indentation, toList_entryLine, List.takeWhile_append_of_pos (by simp), hlabel, List.append_nil,
    List.length_replicate]

theorem unindented_entryLine (h : PlainLabel e.2) : unindented (entryLine e) = e.2 := by
  have hlabel : e.2.toList.dropWhile (· = ' ') = e.2.toList := by
    have hflush := h.flush
    cases htext : e.2.toList with
    | nil => rfl
    | cons c cs => simpa [htext] using hflush
  rw [unindented, toList_entryLine, List.dropWhile_append_of_pos (by simp), hlabel, String.ofList_toList]

theorem entryLine_inj {e' : Nat × String} (h : PlainLabel e.2) (h' : PlainLabel e'.2)
    (heq : entryLine e = entryLine e') : e = e' := by
  have hdepth := indentation_entryLine h
  rw [heq, indentation_entryLine h'] at hdepth
  apply Prod.ext
  · omega
  · rw [← unindented_entryLine h, heq, unindented_entryLine h']

theorem newline_notMem_entryLine (h : PlainLabel e.2) : '\n' ∉ (entryLine e).toList := by
  rw [toList_entryLine, List.mem_append]
  intro hc
  rcases hc with hc | hc
  · exact absurd (List.eq_of_mem_replicate hc) (by decide)
  · exact (h.plain _ hc).2.2 rfl

end Indentation

/-- Every label of the outline is plain. -/
def Plain (t : Outline) : Prop := ∀ depth, ∀ e ∈ t.entries depth, PlainLabel e.2

theorem plain_node {label : String} {children : List Outline} (hl : PlainLabel label)
    (hc : ∀ t ∈ children, t.Plain) : (node label children).Plain := by
  intro depth e he
  rw [entries, List.mem_cons, entriesOf_eq_flatMap, List.mem_flatMap] at he
  rcases he with rfl | ⟨t, ht, he⟩
  · exact hl
  · exact hc t ht _ e he

theorem plain_leaf {label : String} (hl : PlainLabel label) : (leaf label).Plain :=
  plain_node hl fun _ ht => absurd ht List.not_mem_nil

/-- The lines of an outline with plain labels are read back from its text. -/
theorem Plain.rows_unlines_lines {t : Outline} (h : t.Plain) (depth : Nat) :
    rows (unlines (t.lines depth)) = (t.entries depth).map entryLine := by
  rw [lines_eq, rows_unlines]
  intro l hl
  obtain ⟨e, he, rfl⟩ := List.mem_map.1 hl
  exact newline_notMem_entryLine (h depth e he)

mutual

theorem le_depth {t : Outline} {depth : Nat} {e : Nat × String} (h : e ∈ t.entries depth) :
    depth ≤ e.1 := by
  obtain ⟨label, children⟩ := t
  rw [entries, List.mem_cons] at h
  rcases h with rfl | h
  · exact le_rfl
  · exact Nat.le_of_succ_le (le_depth_of h)

theorem le_depth_of {ts : List Outline} {depth : Nat} {e : Nat × String}
    (h : e ∈ entriesOf depth ts) : depth ≤ e.1 := by
  cases ts with
  | nil => cases h
  | cons t ts =>
    rw [entriesOf, List.mem_append] at h
    rcases h with h | h
    · exact le_depth h
    · exact le_depth_of h

end

/-- What follows the nodes of a depth: nothing, or a node that is not as deep. -/
def Rises (depth : Nat) (rest : List (Nat × String)) : Prop := ∀ e ∈ rest.head?, e.1 < depth

theorem rises_nil (depth : Nat) : Rises depth [] := fun _ he => absurd he (by simp)

theorem rises_entriesOf_append {depth : Nat} {ts : List Outline} {rest : List (Nat × String)}
    (h : Rises depth rest) : Rises (depth + 1) (entriesOf depth ts ++ rest) := by
  cases ts with
  | nil => exact fun e he => Nat.lt_succ_of_lt (h e he)
  | cons t ts =>
    obtain ⟨label, children⟩ := t
    intro e he
    cases he
    exact Nat.lt_succ_self depth

/-- Nodes of one depth, with those below them, end where a node is not as deep. -/
theorem entriesOf_append_inj {depth : Nat} {ts us : List Outline} {rest rest' : List (Nat × String)}
    (hr : Rises depth rest) (hr' : Rises depth rest')
    (h : entriesOf depth ts ++ rest = entriesOf depth us ++ rest') : ts = us ∧ rest = rest' := by
  match ts, us with
  | [], [] => exact ⟨rfl, h⟩
  | [], .node label children :: us =>
    subst h
    exact absurd (hr _ rfl) (lt_irrefl depth)
  | .node label children :: ts, [] =>
    subst h
    exact absurd (hr' _ rfl) (lt_irrefl depth)
  | .node label children :: ts, .node label' children' :: us =>
    simp only [entriesOf, entries, List.cons_append, List.append_assoc, List.cons.injEq, Prod.mk.injEq,
      true_and] at h
    obtain ⟨rfl, hbelow⟩ := h
    obtain ⟨rfl, hnext⟩ :=
      entriesOf_append_inj (rises_entriesOf_append hr) (rises_entriesOf_append hr') hbelow
    obtain ⟨rfl, hrest⟩ := entriesOf_append_inj hr hr' hnext
    exact ⟨rfl, hrest⟩

/-- The entries of an outline determine it. -/
theorem entries_inj {t u : Outline} {depth : Nat} (h : t.entries depth = u.entries depth) : t = u := by
  have hof : entriesOf depth [t] ++ [] = entriesOf depth [u] ++ [] := by simp only [entriesOf, h]
  exact (List.cons.inj (entriesOf_append_inj (rises_nil _) (rises_nil _) hof).1).1

end Outline

end ProcMips
