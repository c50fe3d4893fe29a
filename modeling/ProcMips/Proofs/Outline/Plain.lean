import ProcMips.Proofs.Outline.Labels
import ProcMips.Proofs.Outline.Nesting

/-! The labels of a program are plain texts if its names are: what else stands in them are words, numbers
and the signs of operators. -/

namespace ProcMips

theorem plainText_append {s t : String} (hs : PlainText s) (ht : PlainText t) : PlainText (s ++ t) := by
  intro c hc
  rw [String.toList_append, List.mem_append] at hc
  exact hc.elim (hs c) (ht c)

theorem plainText_of_isDigit {s : String} (h : ∀ c ∈ s.toList, c.isDigit = true ∨ c = '-') :
    PlainText s := by
  intro c hc
  rcases h c hc with hd | rfl
  · refine ⟨?_, ?_, ?_⟩ <;> (rintro rfl; cases hd)
  · decide

theorem plainText_nat (n : Nat) : PlainText (toString n) :=
  plainText_of_isDigit fun _ hc => .inl (isDigit_of_mem_nat hc)

theorem plainText_int (n : Int) : PlainText (toString n) :=
  plainText_of_isDigit fun _ hc => isDigit_or_eq_of_mem_int hc

theorem IsIdentifier.plainText {x : String} (h : IsIdentifier x) : PlainText x := by
  intro c hc
  have hword := h.chars c hc
  refine ⟨?_, ?_, ?_⟩ <;> (rintro rfl; cases hword)

theorem plainText_intercalate {ws : List String} (h : ∀ w ∈ ws, PlainText w) :
    PlainText (" ".intercalate ws) := by
  intro c hc
  rcases mem_of_mem_intercalate hc with hc | ⟨w, hw, hc⟩
  · exact (by decide : PlainText " ") c hc
  · exact h w hw c hc

theorem plainLabel_lined {ws : List String} (h : ∀ w ∈ ws, PlainText w) (line : Line) :
    PlainLabel (lined line ws) where
  plain := by
    refine plainText_append (plainText_append (plainText_append ?_ (plainText_nat line)) ?_)
      (plainText_intercalate h)
    · decide
    · decide
  flush := by simp [lined, ToString.toString]

theorem Shape.plainText_text (s : Shape) : PlainText s.text := by
  cases s with
  | single => exact (by decide : PlainText "single")
  | array n =>
    refine plainText_append (plainText_append ?_ (plainText_nat n)) ?_
    · decide
    · decide

theorem Target.plainText_shapeText (t : Target) : PlainText t.shapeText := by
  cases t with
  | scalar => exact (by decide : PlainText "single")
  | element => exact (by decide : PlainText "array")

theorem Target.name_mem_names (t : Target) : t.name ∈ t.names := by
  cases t <;> simp [name, names]

theorem BinOp.plainText_text (op : BinOp) : PlainText op.text := by cases op <;> decide

theorem plainText_bool (b : Bool) : PlainText (toString b) := by cases b <;> decide

theorem Expr.plainText_head {e : Expr} (h : ∀ x ∈ e.names, PlainText x) : PlainText e.head := by
  cases e with
  | int l n => exact plainText_int n
  | bool l b => exact plainText_bool b
  | scalar l x => exact h x (by simp [names])
  | element l x index => exact plainText_append (h x (by simp [names])) (by decide)
  | call l f args => exact plainText_append (h f (by simp [names])) (by decide)
  | binary l op left right => exact op.plainText_text
  | not l operand => exact (by decide : PlainText "not")

theorem Stmt.plainText_words {s : Stmt} (h : ∀ x ∈ s.names, PlainText x) :
    ∀ w ∈ s.words, PlainText w := by
  have hfixed : ∀ w ∈ ["declare", "assign", "block", "if-then", "if-then-else", "while", "output",
    "input", "return", "call"], PlainText w := by decide
  cases s with
  | declare l x shape =>
    simp only [words, List.forall_mem_cons]
    exact ⟨hfixed _ (by simp), shape.plainText_text, h x (by simp [names]), List.forall_mem_nil _⟩
  | assign l t value =>
    simp only [words, List.forall_mem_cons]
    exact ⟨hfixed _ (by simp), t.plainText_shapeText, h t.name (by simp [names, t.name_mem_names]), List.forall_mem_nil _⟩
  | input l t =>
    simp only [words, List.forall_mem_cons]
    exact ⟨hfixed _ (by simp), t.plainText_shapeText, h t.name (by simp [names, t.name_mem_names]), List.forall_mem_nil _⟩
  | call l f args =>
    simp only [words, List.forall_mem_cons]
    exact ⟨hfixed _ (by simp), h f (by simp [names]), List.forall_mem_nil _⟩
  | _ => exact fun w hw => hfixed w (by simp_all [words])

theorem Expr.plain_outline (e : Expr) : (∀ x ∈ e.names, PlainText x) → e.outline.Plain := by
  induction e using induction_children with
  | h e ih =>
    intro hn
    rw [outline_eq]
    apply Outline.plain_node (plainLabel_lined (List.forall_mem_singleton.2 (plainText_head hn)) _)
    intro t ht
    obtain ⟨c, hc, rfl⟩ := List.mem_map.1 ht
    exact ih c hc fun x hx => hn x (mem_names_of_child hc hx)

theorem Stmt.plain_outline (s : Stmt) : (∀ x ∈ s.names, PlainText x) → s.outline.Plain := by
  induction s using induction_stmts with
  | h s ih =>
    intro hn
    rw [outline_eq]
    apply Outline.plain_node (plainLabel_lined (plainText_words hn) _)
    intro t ht
    rcases List.mem_append.1 ht with ht | ht
    · obtain ⟨e, he, rfl⟩ := List.mem_map.1 ht
      exact e.plain_outline fun x hx => hn x (mem_names_of_expr he hx)
    · obtain ⟨t', ht', rfl⟩ := List.mem_map.1 ht
      exact ih t' ht' fun x hx => hn x (mem_names_of_stmt ht' hx)

theorem Global.plain_outline {g : Global} (h : PlainText g.name) : g.outline.Plain := by
  rw [outline_eq]
  apply Outline.plain_leaf (plainLabel_lined _ _)
  simp only [words, List.forall_mem_cons]
  exact ⟨by decide, g.shape.plainText_text, h, List.forall_mem_nil _⟩

theorem Param.plain_outline {x : Param} (h : PlainText x.name) : x.outline.Plain := by
  rw [outline_eq]
  apply Outline.plain_leaf (plainLabel_lined _ _)
  simp only [words, List.forall_mem_cons]
  exact ⟨by decide, h, List.forall_mem_nil _⟩

theorem Procedure.plain_outline {q : Procedure} (h : ∀ x ∈ q.names, PlainText x) :
    q.outline.Plain := by
  rw [outline_eq]
  apply Outline.plain_node (plainLabel_lined _ _)
  · intro t ht
    rcases List.mem_append.1 ht with ht | ht
    · obtain ⟨x, hx, rfl⟩ := List.mem_map.1 ht
      exact Param.plain_outline (h _ (by simp [names, List.mem_map_of_mem hx]))
    · obtain rfl := List.mem_singleton.1 ht
      exact q.body.plain_outline fun x hx => h x (by simp [names, hx])
  · simp only [words, List.forall_mem_cons]
    exact ⟨by decide, h _ (by simp [names]), List.forall_mem_nil _⟩

theorem Program.plain_outline {p : Program} (h : ∀ x ∈ p.names, PlainText x) : p.outline.Plain := by
  apply Outline.plain_node ⟨by decide, by decide⟩
  intro t ht
  rcases List.mem_append.1 ht with ht | ht
  · obtain ⟨g, hg, rfl⟩ := List.mem_map.1 ht
    exact Global.plain_outline (h _ (List.mem_append_left _ (List.mem_map_of_mem hg)))
  · obtain ⟨q, hq, rfl⟩ := List.mem_map.1 ht
    exact Procedure.plain_outline fun x hx =>
      h x (List.mem_append_right _ (List.mem_flatMap_of_mem hq hx))

end ProcMips
