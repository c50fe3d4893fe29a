import ProcMips.Proofs.Outline.Nesting

/-! The graph of an outline against its lines. Nodes are declared in the order of the lines. Every node
but the first has one edge to it, and that edge comes from the line that the node is indented below. -/

namespace ProcMips.Outline

namespace GraphItem

/-- The nodes that are declared: their labels and their numbers. -/
def declared (items : List GraphItem) : List (String × Nat) := items.filterMap fun
  | node id label => some (label, id)
  | edge .. => none

/-- The edges: the numbers of their sources and of their targets. -/
def edges (items : List GraphItem) : List (Nat × Nat) := items.filterMap fun
  | node .. => none
  | edge source target => some (source, target)

end GraphItem

open GraphItem

/-- Of the indentations of lines that are counted from 1, `j` is the last one in front of `k` that is two
blanks less. -/
inductive ParentAt : List Nat → Nat → Nat → Prop
  | intro {before between after : List Nat} {n : Nat} (last : ∀ m ∈ between, m ≠ n) :
      ParentAt (before ++ n :: (between ++ (n + 2) :: after)) (before.length + 1)
        (before.length + between.length + 2)

/-- The items of a graph say the same tree as the lines of an outline. -/
structure SameTree (lines : List String) (items : List GraphItem) : Prop where
  nodes : declared items = (lines.map unindented).zipIdx 1
  edgeCount : (edges items).length + 1 = lines.length
  parents : ∀ k, 1 < k → k ≤ lines.length →
    ∃ j, ParentAt (lines.map indentation) j k ∧ (edges items).filter (·.2 = k) = [(j, k)]
  childrenInOrder : (edges items).Pairwise fun a b => a.1 = b.1 → a.2 < b.2

@[elab_as_elim]
theorem forest_induction {P : List Outline → Prop} (nil : P [])
    (cons : ∀ label children ts, P children → P ts → P (node label children :: ts))
    (ts : List Outline) : P ts := by
  match ts with
  | [] => exact nil
  | node label children :: ts =>
    exact cons label children ts (forest_induction nil cons children) (forest_induction nil cons ts)

theorem length_entriesOf (ts : List Outline) (depth : Nat) :
    (entriesOf depth ts).length = sizes ts := by
  rw [← length_linesOf ts depth, linesOf_eq, List.length_map]

theorem entriesOf_cons (depth : Nat) (label : String) (children ts : List Outline) :
    entriesOf depth (node label children :: ts) =
      (depth, label) :: (entriesOf (depth + 1) children ++ entriesOf depth ts) := by
  rw [entriesOf, entries, List.cons_append]

theorem sizes_cons (label : String) (children ts : List Outline) :
    sizes (node label children :: ts) = 1 + sizes children + sizes ts := by
  rw [sizes, size]

variable {parent id depth : Nat} {ts : List Outline}

theorem declared_graphOf_cons (label : String) (children ts : List Outline) :
    declared (graphOf parent id (node label children :: ts)) =
      (label, id) :: (declared (graphOf id (id + 1) children) ++
        declared (graphOf parent (id + 1 + sizes children) ts)) := by
  simp [graphOf_cons, graph_node, declared, size, Nat.add_assoc]

/-- The edge to a node stands between the edges in its own tree and those to the nodes behind it. -/
theorem edges_graphOf_cons (label : String) (children ts : List Outline) :
    edges (graphOf parent id (node label children :: ts)) =
      edges (graphOf id (id + 1) children) ++
        (parent, id) :: edges (graphOf parent (id + 1 + sizes children) ts) := by
  simp [graphOf_cons, graph_node, edges, size, Nat.add_assoc]

theorem declared_graphOf (ts : List Outline) (parent id depth : Nat) :
    declared (graphOf parent id ts) = ((entriesOf depth ts).map Prod.snd).zipIdx id := by
  induction ts using forest_induction generalizing parent id depth with
  | nil => rfl
  | cons label children ts ihc iht =>
    rw [declared_graphOf_cons, entriesOf_cons, List.map_cons, List.zipIdx_cons, List.map_append,
      List.zipIdx_append, List.length_map, length_entriesOf, ihc id (id + 1) (depth + 1),
      iht parent _ depth]

theorem declared_graph (t : Outline) (id depth : Nat) :
    declared (t.graph id) = ((t.entries depth).map Prod.snd).zipIdx id := by
  obtain ⟨label, children⟩ := t
  rw [entries, List.map_cons, List.zipIdx_cons, ← declared_graphOf children id]
  rfl

/-- Every node below the parent is the target of one edge. -/
theorem targets_perm (ts : List Outline) (parent id : Nat) :
    ((edges (graphOf parent id ts)).map Prod.snd).Perm (List.range' id (sizes ts)) := by
  induction ts using forest_induction generalizing parent id with
  | nil => exact List.Perm.nil
  | cons label children ts ihc iht =>
    rw [edges_graphOf_cons, sizes_cons, List.map_append, List.map_cons, Nat.add_assoc 1, Nat.add_comm 1,
      List.range'_succ, ← List.range'_append_1]
    exact List.perm_middle.trans (List.Perm.cons _ (List.Perm.append (ihc id _) (iht parent _)))

theorem target_bounds {e : Nat × Nat} (h : e ∈ edges (graphOf parent id ts)) :
    id ≤ e.2 ∧ e.2 < id + sizes ts := by
  have hmem := (targets_perm ts parent id).mem_iff.1 (List.mem_map_of_mem h)
  exact List.mem_range'_1.1 hmem

theorem source_bounds {e : Nat × Nat} (h : e ∈ edges (graphOf parent id ts)) :
    e.1 = parent ∨ id ≤ e.1 ∧ e.1 < id + sizes ts := by
  induction ts using forest_induction generalizing parent id with
  | nil => cases h
  | cons label children ts ihc iht =>
    rw [edges_graphOf_cons, List.mem_append, List.mem_cons] at h
    rw [sizes_cons]
    rcases h with h | rfl | h
    · have := ihc h
      omega
    · exact .inl rfl
    · have := iht h
      omega

/-- Edges from one node have their targets in order: an edge inside the tree of one child has a source
there, so it has no source in common with the edges behind that tree. -/
theorem edges_pairwise (h : parent < id) :
    (edges (graphOf parent id ts)).Pairwise fun a b => a.1 = b.1 → a.2 < b.2 := by
  induction ts using forest_induction generalizing parent id with
  | nil => exact List.Pairwise.nil
  | cons label children ts ihc iht =>
    rw [edges_graphOf_cons, List.pairwise_append, List.pairwise_cons]
    refine ⟨ihc (Nat.lt_succ_self id), ⟨?_, iht (by omega)⟩, ?_⟩
    · intro e he _
      have := (target_bounds he).1
      simp only
      omega
    · intro a ha b hb heq
      have hsource := source_bounds ha
      rcases List.mem_cons.1 hb with rfl | hb
      · simp only at heq
        omega
      · have := source_bounds hb
        omega

/-- The edges below a parent at `before.length + 1`, whose children that come first are in `between`. -/
theorem parentAt_of_mem_edges (depth : Nat) (before between after : List Nat) {s t : Nat}
    (hlast : ∀ m ∈ between, 2 * depth < m)
    (h : (s, t) ∈ edges (graphOf (before.length + 1) (before.length + between.length + 2) ts)) :
    ParentAt (before ++ 2 * depth ::
      (between ++ ((entriesOf (depth + 1) ts).map (2 * ·.1) ++ after))) s t := by
  induction ts using forest_induction generalizing before between after depth with
  | nil => cases h
  | cons label children ts ihc iht =>
    rw [edges_graphOf_cons, List.mem_append, List.mem_cons] at h
    rw [entriesOf_cons, List.map_cons, List.map_append]
    rcases h with h | h | h
    · -- The node is the parent of its children, and none of them is in front of the first one.
      have hchild := ihc (depth + 1) (before ++ 2 * depth :: between) []
        ((entriesOf (depth + 1) ts).map (2 * ·.1) ++ after) nofun
        (by simpa [Nat.add_assoc, Nat.add_comm, Nat.add_left_comm] using h)
      simpa using hchild
    · obtain ⟨rfl, rfl⟩ := Prod.mk.inj h
      exact .intro fun m hm => (hlast m hm).ne'
    · -- The node and those below it come in front of its next sibling.
      let tree := 2 * (depth + 1) :: (entriesOf (depth + 2) children).map (2 * ·.1)
      have hdeeper : ∀ m ∈ between ++ tree, 2 * depth < m := by
        intro m hm
        simp only [tree, List.mem_append, List.mem_cons, List.mem_map] at hm
        rcases hm with hm | rfl | ⟨e, he, rfl⟩
        · exact hlast m hm
        · omega
        · have := le_depth_of he
          omega
      have hid : before.length + between.length + 2 + 1 + sizes children =
          before.length + (between ++ tree).length + 2 := by
        simp only [tree, List.length_append, List.length_cons, List.length_map, length_entriesOf]
        omega
      rw [hid] at h
      simpa [tree] using iht depth before (between ++ tree) after hdeeper h

/-- The one edge with a target that no other edge has. -/
theorem filter_target_eq {es : List (Nat × Nat)} {s t : Nat} (hes : (es.map Prod.snd).Nodup)
    (h : (s, t) ∈ es) : es.filter (·.2 = t) = [(s, t)] := by
  induction es with
  | nil => cases h
  | cons e es ih =>
    rw [List.map_cons, List.nodup_cons] at hes
    rcases List.mem_cons.1 h with rfl | h
    · have hrest : es.filter (·.2 = t) = [] := by
        rw [List.filter_eq_nil_iff]
        intro e' he' heq
        exact hes.1 (by simpa [of_decide_eq_true heq] using List.mem_map_of_mem (f := Prod.snd) he')
      rw [List.filter_cons_of_pos (by simp), hrest]
    · have hne : e.2 ≠ t := by
        intro heq
        exact hes.1 (heq ▸ List.mem_map_of_mem (f := Prod.snd) h)
      rw [List.filter_cons_of_neg (by simpa using hne), ih hes.2 h]

theorem sameTree_graph {t : Outline} (h : t.Plain) :
    SameTree ((t.entries 0).map entryLine) (t.graph 1) := by
  obtain ⟨label, children⟩ := t
  have hlength : ((node label children).entries 0).length = 1 + sizes children := by
    rw [entries, List.length_cons, length_entriesOf, Nat.add_comm]
  have hedges : edges ((node label children).graph 1) = edges (graphOf 1 2 children) := rfl
  have hperm := targets_perm children 1 2
  constructor
  · have hlabels : ((node label children).entries 0).map (unindented ∘ entryLine) =
        ((node label children).entries 0).map Prod.snd :=
      List.map_congr_left fun e he => unindented_entryLine (h 0 e he)
    rw [List.map_map, hlabels, declared_graph]
  · rw [hedges, List.length_map, hlength, ← List.length_map Prod.snd, hperm.length_eq,
      List.length_range', Nat.add_comm]
  · intro k hk hle
    rw [List.length_map, hlength] at hle
    have htarget : k ∈ (edges (graphOf 1 2 children)).map Prod.snd :=
      hperm.mem_iff.2 (List.mem_range'_1.2 ⟨hk, by omega⟩)
    obtain ⟨⟨j, _⟩, hedge, rfl⟩ := List.mem_map.1 htarget
    refine ⟨j, ?_, filter_target_eq (hperm.nodup_iff.2 List.nodup_range') hedge⟩
    have hindents : ((node label children).entries 0).map (indentation ∘ entryLine) =
        ((node label children).entries 0).map (2 * ·.1) :=
      List.map_congr_left fun e he => indentation_entryLine (h 0 e he)
    rw [List.map_map, hindents, entries, List.map_cons]
    simpa using parentAt_of_mem_edges 0 [] [] [] nofun hedge
  · exact edges_pairwise Nat.one_lt_two

end ProcMips.Outline
