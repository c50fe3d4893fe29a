import ProcMips.Proofs.Outline.Numbering
import ProcMips.Proofs.Outline.Plain

/-! The graph of a program is read back from its text, and it is the tree that the lines of the same
program show. -/

namespace ProcMips

namespace Outline

namespace GraphItem

/-- The number of a node, and what follows it. -/
def readId : List Char → Option (Nat × List Char)
  | 'n' :: cs =>
    let digits := cs.takeWhile Char.isDigit
    if digits = [] then none else some (Nat.ofDigitChars 10 digits 0, cs.dropWhile Char.isDigit)
  | _ => none

/-- A line that declares a node or an edge. A label ends at the first quote. -/
def read (line : String) : Option GraphItem := do
  let (id, cs) ← readId line.toList
  match cs.dropPrefix? " [label=\"".toList with
  | some cs =>
    let label := String.ofList (cs.takeWhile (· ≠ '"'))
    if cs.dropWhile (· ≠ '"') = "\"];".toList then some (node id label) else none
  | none => do
    let cs ← cs.dropPrefix? " -> ".toList
    let (target, cs) ← readId cs
    if cs = ";".toList then some (edge id target) else none

/-- The label of the item, if it has one, is plain. -/
def Plain : GraphItem → Prop
  | node _ label => PlainText label
  | edge .. => True

theorem readId_toDigits (n : Nat) {c : Char} {cs : List Char} (hc : c.isDigit = false) :
    readId ('n' :: (Nat.toDigits 10 n ++ c :: cs)) = some (n, c :: cs) := by
  have hdigits : ∀ d ∈ Nat.toDigits 10 n, d.isDigit = true := fun d hd =>
    Nat.isDigit_of_mem_toDigits (by decide) (by decide) hd
  have hread : (Nat.toDigits 10 n ++ c :: cs).takeWhile Char.isDigit = Nat.toDigits 10 n := by
    rw [List.takeWhile_append_of_pos hdigits, List.takeWhile_cons_of_neg (by simp [hc]), List.append_nil]
  have hrest : (Nat.toDigits 10 n ++ c :: cs).dropWhile Char.isDigit = c :: cs := by
    rw [List.dropWhile_append_of_pos hdigits, List.dropWhile_cons_of_neg (by simp [hc])]
  simp only [readId, hread, hrest, Nat.toDigits_ne_nil, if_false,
    Nat.ofDigitChars_toDigits (show 1 < 10 by decide) (show 10 ≤ 10 by decide)]

theorem escape_of_plainText {label : String} (h : PlainText label) : escape label = label := by
  have hsame : label.toList.flatMap (fun c => if c = '"' then ['\\', '"'] else [c]) =
      label.toList.flatMap fun c => [c] := by
    apply List.flatMap_congr
    intro c hc
    rw [if_neg (h c hc).1]
  rw [escape, hsame, List.flatMap_singleton', String.ofList_toList]

theorem toList_text_node (id : Nat) {label : String} (h : PlainText label) :
    (text (node id label)).toList =
      'n' :: (Nat.toDigits 10 id ++ (" [label=\"".toList ++ (label.toList ++ "\"];".toList))) := by
  have htext : text (node id label) = "n" ++ toString id ++ " [label=\"" ++ escape label ++ "\"];" := rfl
  rw [htext, escape_of_plainText h]
  simp

theorem toList_text_edge (source target : Nat) :
    (text (edge source target)).toList =
      'n' :: (Nat.toDigits 10 source ++
        (" -> ".toList ++ ('n' :: (Nat.toDigits 10 target ++ ";".toList)))) := by
  have htext : text (edge source target) = "n" ++ toString source ++ " -> n" ++ toString target ++ ";" := rfl
  rw [htext]
  simp

theorem dropPrefix?_append_self {α : Type} [BEq α] [LawfulBEq α] (p s : List α) :
    (p ++ s).dropPrefix? p = some s :=
  List.dropPrefix?_eq_some_iff.2 ⟨p, rfl, beq_self_eq_true p⟩

theorem read_text {item : GraphItem} (h : item.Plain) : read item.text = some item := by
  cases item with
  | node id label =>
    have hunquoted : ∀ c ∈ label.toList, decide (c ≠ '"') = true :=
      fun c hc => decide_eq_true (h c hc).1
    have hlabel : (label.toList ++ "\"];".toList).takeWhile (· ≠ '"') = label.toList := by
      rw [List.takeWhile_append_of_pos hunquoted]
      exact List.append_nil _
    have hend : (label.toList ++ "\"];".toList).dropWhile (· ≠ '"') = "\"];".toList := by
      rw [List.dropWhile_append_of_pos hunquoted]
      rfl
    have hid : readId ('n' :: (Nat.toDigits 10 id ++
        (" [label=\"".toList ++ (label.toList ++ "\"];".toList)))) =
          some (id, " [label=\"".toList ++ (label.toList ++ "\"];".toList)) := readId_toDigits id rfl
    simp only [read, toList_text_node id h, hid, Option.bind_eq_bind, Option.bind_some,
      dropPrefix?_append_self, hlabel, hend, if_true, String.ofList_toList]
  | edge source target =>
    have hsource : readId ('n' :: (Nat.toDigits 10 source ++
        (" -> ".toList ++ ('n' :: (Nat.toDigits 10 target ++ ";".toList))))) =
          some (source, " -> ".toList ++ ('n' :: (Nat.toDigits 10 target ++ ";".toList))) :=
      readId_toDigits source rfl
    have htarget : readId ('n' :: (Nat.toDigits 10 target ++ ";".toList)) =
        some (target, ";".toList) := readId_toDigits target rfl
    -- An edge does not go on like a node.
    have hnode : (" -> ".toList ++ ('n' :: (Nat.toDigits 10 target ++ ";".toList))).dropPrefix?
        " [label=\"".toList = none := rfl
    simp only [read, toList_text_edge, hsource, hnode, htarget, Option.bind_eq_bind, Option.bind_some,
      dropPrefix?_append_self, if_true]

theorem newline_notMem_text {item : GraphItem} (h : item.Plain) : '\n' ∉ item.text.toList := by
  have hdigits (n : Nat) : '\n' ∉ Nat.toDigits 10 n := by
    intro hc
    cases Nat.isDigit_of_mem_toDigits (by decide) (by decide) hc
  cases item with
  | node id label =>
    have hlabel : '\n' ∉ label.toList := fun hc => (h _ hc).2.2 rfl
    simp [toList_text_node id h, hdigits, hlabel]
  | edge source target => simp [toList_text_edge, hdigits]

end GraphItem

open GraphItem

theorem plain_of_mem_graph {t : Outline} (h : t.Plain) {item : GraphItem} (hi : item ∈ t.graph 1) :
    item.Plain := by
  cases item with
  | node id label =>
    have hdeclared : (label, id) ∈ declared (t.graph 1) := List.mem_filterMap.2 ⟨_, hi, rfl⟩
    rw [declared_graph t 1 0] at hdeclared
    obtain ⟨e, he, rfl⟩ := List.mem_map.1 (List.fst_mem_of_mem_zipIdx hdeclared)
    exact (h 0 e he).plain
  | edge => trivial

theorem mapM_read {items : List GraphItem} (h : ∀ item ∈ items, item.Plain) :
    (items.map text).mapM read = some items := by
  induction items with
  | nil => rfl
  | cons item items ih =>
    rw [List.forall_mem_cons] at h
    rw [List.map_cons, List.mapM_cons, read_text h.1, ih h.2]
    rfl

end Outline

open Outline

/-- The lines in front of the items of a graph. -/
def graphHead : List String := ["digraph parse_tree \x7b", "node [color=lightblue2, style=filled];"]

/-- The items of a directed graph, one on each line. -/
def readGraph (text : String) : Option (List GraphItem) := do
  let body ← (rows text).dropPrefix? graphHead
  let lines ← body.dropSuffix? ["\x7d"]
  lines.mapM GraphItem.read

theorem readGraph_unlines {items : List GraphItem} (h : ∀ item ∈ items, item.Plain) :
    readGraph (unlines (graphHead ++ items.map GraphItem.text ++ ["\x7d"])) = some items := by
  have hrows : ∀ l ∈ graphHead ++ items.map GraphItem.text ++ ["\x7d"], '\n' ∉ l.toList := by
    intro l hl
    rw [List.append_assoc, List.mem_append, List.mem_append] at hl
    rcases hl with hl | hl | hl
    · revert l
      decide
    · obtain ⟨item, hitem, rfl⟩ := List.mem_map.1 hl
      exact GraphItem.newline_notMem_text (h item hitem)
    · revert l
      decide
  have hend : (items.map GraphItem.text ++ ["\x7d"]).dropSuffix? ["\x7d"] =
      some (items.map GraphItem.text) :=
    List.dropSuffix?_eq_some_iff.2 ⟨_, rfl, beq_self_eq_true _⟩
  rw [readGraph, rows_unlines hrows, List.append_assoc, GraphItem.dropPrefix?_append_self]
  simp only [Option.bind_eq_bind, Option.bind_some, hend, mapM_read h]

namespace Program

/-- The graph of a program whose names need no quoting is the tree that its lines show. -/
theorem readGraph_graphText {p : Program} (h : ∀ x ∈ p.names, PlainText x) :
    ∃ items, readGraph p.graphText = some items ∧ SameTree (rows p.treeText) items := by
  have hplain := plain_outline h
  refine ⟨p.outline.graph 1, readGraph_unlines fun item hi => plain_of_mem_graph hplain hi, ?_⟩
  rw [treeText, hplain.rows_unlines_lines]
  exact sameTree_graph hplain

/-- Two blanks of indentation are one edge, also where a tree goes up by more than one level at once. -/
theorem readGraph_graphText_of_nested_calls :
    ∃ items, readGraph (graphText ⟨[], [⟨1, "main", [], .ret 2 (.binary 2 .add
        (.call 2 "f" [.not 2 (.scalar 2 "x")]) (.int 2 1))⟩]⟩) = some items ∧
      SameTree (rows (treeText ⟨[], [⟨1, "main", [], .ret 2 (.binary 2 .add
        (.call 2 "f" [.not 2 (.scalar 2 "x")]) (.int 2 1))⟩]⟩)) items :=
  readGraph_graphText (by decide +kernel)

end Program

end ProcMips
