import ProcMips.Proofs.Outline.Plain

/-! The indented tree of a program determines the program with its lines, provided that names are
identifiers. Lines give the outline by their indentation, and outlines give nodes by their labels. -/

namespace ProcMips

/-- Two lists one behind the other, where no member of the first stands in the second one. -/
theorem append_inj_of_notMem {α : Type} {as as' bs bs' : List α} (h : as ++ bs = as' ++ bs')
    (ha : ∀ a ∈ as, a ∉ bs') (ha' : ∀ a ∈ as', a ∉ bs) : as = as' ∧ bs = bs' := by
  induction as generalizing as' with
  | nil =>
    rcases as' with _ | ⟨a', as'⟩
    · exact ⟨rfl, h⟩
    · rw [List.nil_append] at h
      exact absurd (by simp [h]) (ha' a' List.mem_cons_self)
  | cons a as ih =>
    rcases as' with _ | ⟨a', as'⟩
    · rw [List.nil_append] at h
      exact absurd (by simp [← h]) (ha a List.mem_cons_self)
    · obtain ⟨rfl, hrest⟩ := List.cons.inj h
      rw [List.forall_mem_cons] at ha ha'
      obtain ⟨rfl, rfl⟩ := ih hrest ha.2 ha'.2
      exact ⟨rfl, rfl⟩

theorem Expr.outline_inj (e : Expr) : ∀ e', (∀ x ∈ e.names, IsIdentifier x) →
    (∀ x ∈ e'.names, IsIdentifier x) → e.outline = e'.outline → e = e' := by
  induction e using induction_children with
  | h e ih =>
    intro e' hn hn' h
    rw [outline_eq, outline_eq] at h
    obtain ⟨hlabel, hbelow⟩ := Outline.node.inj h
    obtain ⟨hline, hhead⟩ := lined_inj hlabel
    rw [String.intercalate_singleton, String.intercalate_singleton] at hhead
    apply eq_of_parts hn hn' hline hhead
    apply eq_of_map_eq hbelow
    intro c hc c' hc' heq
    exact ih c hc c' (fun x hx => hn x (mem_names_of_child hc hx))
      (fun x hx => hn' x (mem_names_of_child hc' hx)) heq

theorem Stmt.words_ne_nil (s : Stmt) : s.words ≠ [] := by cases s <;> exact List.cons_ne_nil _ _

theorem Stmt.outline_inj (s : Stmt) : ∀ s', (∀ x ∈ s.names, IsIdentifier x) →
    (∀ x ∈ s'.names, IsIdentifier x) → s.outline = s'.outline → s = s' := by
  induction s using induction_stmts with
  | h s ih =>
    intro s' hn hn' h
    rw [outline_eq, outline_eq] at h
    obtain ⟨hlabel, hbelow⟩ := Outline.node.inj h
    obtain ⟨hline, hwords⟩ := lined_words_inj (blank_notMem_words hn) (blank_notMem_words hn')
      s.words_ne_nil s'.words_ne_nil hlabel
    obtain ⟨hexprs, hstmts⟩ := map_parts_inj hwords hbelow
    apply eq_of_parts hline hwords
    · apply eq_of_map_eq hexprs
      intro e he e' he'
      exact e.outline_inj e' (fun x hx => hn x (mem_names_of_expr he hx))
        (fun x hx => hn' x (mem_names_of_expr he' hx))
    · apply eq_of_map_eq hstmts
      intro t ht t' ht'
      exact ih t ht t' (fun x hx => hn x (mem_names_of_stmt ht hx))
        (fun x hx => hn' x (mem_names_of_stmt ht' hx))

theorem Global.blank_notMem_words {g : Global} (h : IsIdentifier g.name) :
    ∀ w ∈ g.words, ' ' ∉ w.toList := by
  simpa [words] using ⟨g.shape.blank_notMem_text, h.notMem (by decide)⟩

theorem Param.blank_notMem_words {x : Param} (h : IsIdentifier x.name) :
    ∀ w ∈ x.words, ' ' ∉ w.toList := by
  simpa [words] using h.notMem (by decide)

theorem Procedure.blank_notMem_words {q : Procedure} (h : IsIdentifier q.name) :
    ∀ w ∈ q.words, ' ' ∉ w.toList := by
  simpa [words] using h.notMem (by decide)

theorem Global.outline_inj {g g' : Global} (hg : IsIdentifier g.name) (hg' : IsIdentifier g'.name)
    (h : g.outline = g'.outline) : g = g' := by
  rw [outline_eq, outline_eq] at h
  obtain ⟨hline, hwords⟩ := lined_words_inj (blank_notMem_words hg) (blank_notMem_words hg')
    (List.cons_ne_nil _ _) (List.cons_ne_nil _ _) (Outline.node.inj h).1
  simp only [words, List.cons.injEq, true_and, and_true] at hwords
  obtain ⟨l, x, shape⟩ := g
  obtain ⟨l', x', shape'⟩ := g'
  obtain rfl : l = l' := hline
  obtain rfl : x = x' := hwords.2
  obtain rfl : shape = shape' := Shape.text_injective hwords.1
  rfl

theorem Param.outline_inj {x y : Param} (hx : IsIdentifier x.name) (hy : IsIdentifier y.name)
    (h : x.outline = y.outline) : x = y := by
  rw [outline_eq, outline_eq] at h
  obtain ⟨hline, hwords⟩ := lined_words_inj (blank_notMem_words hx) (blank_notMem_words hy)
    (List.cons_ne_nil _ _) (List.cons_ne_nil _ _) (Outline.node.inj h).1
  simp only [words, List.cons.injEq, true_and, and_true] at hwords
  obtain ⟨l, name⟩ := x
  obtain ⟨l', name'⟩ := y
  obtain rfl : l = l' := hline
  obtain rfl : name = name' := hwords
  rfl

theorem Procedure.outline_inj {q r : Procedure} (hq : ∀ x ∈ q.names, IsIdentifier x)
    (hr : ∀ x ∈ r.names, IsIdentifier x) (h : q.outline = r.outline) : q = r := by
  rw [outline_eq, outline_eq] at h
  obtain ⟨hlabel, hbelow⟩ := Outline.node.inj h
  obtain ⟨hline, hwords⟩ := lined_words_inj (blank_notMem_words (hq _ (by simp [names])))
    (blank_notMem_words (hr _ (by simp [names]))) (List.cons_ne_nil _ _) (List.cons_ne_nil _ _) hlabel
  simp only [words, List.cons.injEq, true_and, and_true] at hwords
  -- The body is the last node below a procedure.
  obtain ⟨hparams, hbody⟩ := List.append_inj' hbelow rfl
  have hps : q.params = r.params := by
    apply eq_of_map_eq hparams
    intro x hx y hy heq
    exact Param.outline_inj (hq _ (by simp [names, List.mem_map_of_mem hx]))
      (hr _ (by simp [names, List.mem_map_of_mem hy])) heq
  have hb : q.body = r.body :=
    q.body.outline_inj r.body (fun x hx => hq x (by simp [names, hx]))
      (fun x hx => hr x (by simp [names, hx])) (List.cons.inj hbody).1
  obtain ⟨l, f, params, body⟩ := q
  obtain ⟨l', f', params', body'⟩ := r
  obtain rfl : l = l' := hline
  obtain rfl : f = f' := hwords
  obtain rfl : params = params' := hps
  obtain rfl : body = body' := hb
  rfl

theorem Global.outline_ne_procedure {g : Global} {q : Procedure} (hg : IsIdentifier g.name)
    (hq : IsIdentifier q.name) : g.outline ≠ q.outline := by
  intro h
  rw [outline_eq, Procedure.outline_eq] at h
  have hwords := lined_words_inj (blank_notMem_words hg) (Procedure.blank_notMem_words hq)
    (List.cons_ne_nil _ _) (List.cons_ne_nil _ _) (Outline.node.inj h).1
  simp [words, Procedure.words] at hwords

namespace Program

variable {p p' : Program}

theorem outline_inj (hp : ∀ x ∈ p.names, IsIdentifier x) (hp' : ∀ x ∈ p'.names, IsIdentifier x)
    (h : p.outline = p'.outline) : p = p' := by
  have hglobal {r : Program} (hr : ∀ x ∈ r.names, IsIdentifier x) {g : Global} (hg : g ∈ r.globals) :
      IsIdentifier g.name := hr _ (List.mem_append_left _ (List.mem_map_of_mem hg))
  have hproc {r : Program} (hr : ∀ x ∈ r.names, IsIdentifier x) {q : Procedure} (hq : q ∈ r.procedures)
      {x : String} (hx : x ∈ q.names) : IsIdentifier x :=
    hr x (List.mem_append_right _ (List.mem_flatMap_of_mem hq hx))
  -- No global is a procedure, so the children of the root are told apart into both.
  have hapart {r r' : Program} (hr : ∀ x ∈ r.names, IsIdentifier x)
      (hr' : ∀ x ∈ r'.names, IsIdentifier x) :
      ∀ t ∈ r.globals.map Global.outline, t ∉ r'.procedures.map Procedure.outline := by
    intro t ht ht'
    obtain ⟨g, hg, rfl⟩ := List.mem_map.1 ht
    obtain ⟨q, hq, heq⟩ := List.mem_map.1 ht'
    exact Global.outline_ne_procedure (hglobal hr hg) (hproc hr' hq (by simp [Procedure.names])) heq.symm
  obtain ⟨hgs, hqs⟩ :=
    append_inj_of_notMem (Outline.node.inj h).2 (hapart hp hp') (hapart hp' hp)
  have hglobals : p.globals = p'.globals := by
    apply eq_of_map_eq hgs
    intro g hg g' hg' heq
    exact Global.outline_inj (hglobal hp hg) (hglobal hp' hg') heq
  have hprocedures : p.procedures = p'.procedures := by
    apply eq_of_map_eq hqs
    intro q hq q' hq' heq
    exact Procedure.outline_inj (fun x hx => hproc hp hq hx) (fun x hx => hproc hp' hq' hx) heq
  obtain ⟨gs, qs⟩ := p
  obtain ⟨gs', qs'⟩ := p'
  obtain rfl : gs = gs' := hglobals
  obtain rfl : qs = qs' := hprocedures
  rfl

/-- Programs whose names are identifiers have the same tree only if they are the same, lines included. -/
theorem treeText_eq_iff (hp : ∀ x ∈ p.names, IsIdentifier x) (hp' : ∀ x ∈ p'.names, IsIdentifier x) :
    p.treeText = p'.treeText ↔ p = p' := by
  constructor
  · intro h
    have hplain := plain_outline fun x hx => (hp x hx).plainText
    have hplain' := plain_outline fun x hx => (hp' x hx).plainText
    have hrows := congrArg rows h
    rw [treeText, treeText, hplain.rows_unlines_lines, hplain'.rows_unlines_lines] at hrows
    have hentries : p.outline.entries 0 = p'.outline.entries 0 := by
      apply eq_of_map_eq hrows
      intro e he e' he' heq
      exact Outline.entryLine_inj (hplain 0 e he) (hplain' 0 e' he') heq
    exact outline_inj hp hp' (Outline.entries_inj hentries)
  · intro h
    rw [h]

/-- An alternative that belongs to the outer of two conditions is told apart from one that belongs to the
inner condition: their depths differ. -/
theorem treeText_ne_of_alternative_moved :
    treeText ⟨[⟨1, "a", .single⟩], [⟨2, "main", [], .ifElse 3 (.bool 3 true)
        (.ifThen 3 (.scalar 3 "a") (.ret 4 (.int 4 1))) (.ret 5 (.int 5 2))⟩]⟩ ≠
      treeText ⟨[⟨1, "a", .single⟩], [⟨2, "main", [], .ifThen 3 (.bool 3 true)
        (.ifElse 3 (.scalar 3 "a") (.ret 4 (.int 4 1)) (.ret 5 (.int 5 2)))⟩]⟩ := by
  intro h
  rw [treeText_eq_iff (by decide +kernel) (by decide +kernel)] at h
  cases h

end Program

end ProcMips
