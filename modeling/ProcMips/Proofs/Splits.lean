/-! Conditions on each member of a list, with the members in front of it and those behind it. -/

namespace ProcMips

variable {α : Type} {P : List α → α → List α → Prop}

theorem forall_split_nil : ∀ before b rest, [] = before ++ b :: rest → P before b rest :=
  fun before b rest e => absurd e (by simp)

/-- The condition on the first member, and on the others behind it. -/
theorem forall_split_cons {a : α} {l : List α} :
    (∀ before b rest, a :: l = before ++ b :: rest → P before b rest) ↔
      P [] a l ∧ ∀ before b rest, l = before ++ b :: rest → P (a :: before) b rest := by
  constructor
  · intro h
    exact ⟨h [] a l rfl, fun before b rest e => h (a :: before) b rest (by rw [e]; rfl)⟩
  · rintro ⟨ha, hl⟩ before b rest e
    cases before with
    | nil =>
      rw [List.nil_append, List.cons.injEq] at e
      exact e.1 ▸ e.2 ▸ ha
    | cons c before =>
      rw [List.cons_append, List.cons.injEq] at e
      exact e.1 ▸ hl before b rest e.2

end ProcMips
