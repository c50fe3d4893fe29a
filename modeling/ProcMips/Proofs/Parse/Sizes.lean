import ProcMips.Proofs.Analysis.Occurrences
import ProcMips.Proofs.Parse.Language

/-! A program that is parsed has a procedure, and its arrays are not empty. -/

namespace ProcMips

namespace Grammar

theorem DerivesShape.positive {ls : List Lexeme} {shape : Shape} (h : DerivesShape ls shape) :
    shape.Positive := by
  cases h with
  | single => trivial
  | array n hn => exact hn

theorem DerivesStmt.declared_pos {ls : List Lexeme} {s : Stmt} (h : DerivesStmt ls s) :
    ∀ r ∈ s.declared, 0 < r.2 := by
  induction h with
  | call | assign | output | input | ret => simp [Stmt.declared]
  | ifThen _ _ ih => exact ih
  | ifElse _ _ _ ihy ihn => exact List.forall_mem_append.2 ⟨ihy, ihn⟩
  | loop _ _ ih => exact ih
  | @block body _ ih =>
    intro r hr
    obtain ⟨s, hs, hr⟩ := Stmt.mem_declaredAll.1 hr
    obtain ⟨part, hpart, rfl⟩ := List.mem_map.1 hs
    exact ih part hpart r hr
  | @declare x ss shape hs =>
    intro r hr
    obtain rfl := List.mem_singleton.1 hr
    cases hs with
    | single => exact Nat.one_pos
    | array n hn => exact hn

theorem DerivesGlobal.positive {ls : List Lexeme} {g : Global} (h : DerivesGlobal ls g) :
    g.shape.Positive := by
  cases h with
  | mk x hs => exact hs.positive

theorem DerivesProcedure.declared_pos {ls : List Lexeme} {q : Procedure}
    (h : DerivesProcedure ls q) : ∀ r ∈ q.body.declared, 0 < r.2 := by
  cases h with
  | mk f params hb => exact hb.declared_pos

theorem DerivesProgram.positive {ls : List Lexeme} {p : Program} (h : DerivesProgram ls p) :
    p.Positive := by
  obtain ⟨hg, hp, -⟩ := h
  constructor
  · intro g hmem
    obtain ⟨part, hpart, rfl⟩ := List.mem_map.1 hmem
    exact (hg part hpart).positive
  · intro q hmem
    obtain ⟨part, hpart, rfl⟩ := List.mem_map.1 hmem
    exact (hp part hpart).declared_pos

theorem DerivesProgram.procedures_ne_nil {ls : List Lexeme} {p : Program}
    (h : DerivesProgram ls p) : p.procedures ≠ [] := by
  obtain ⟨-, -, hne⟩ := h
  exact fun h => hne (List.map_eq_nil_iff.1 h)

end Grammar

theorem Stmt.declared_unlined (s : Stmt) : s.unlined.declared = s.declared := by
  induction s with
  | block l body ih =>
    rw [Stmt.unlined, Stmt.declared, Stmt.declared]
    induction body with
    | nil => rfl
    | cons s body ihb =>
      rw [List.forall_mem_cons] at ih
      rw [Stmt.unlinedAll, Stmt.declaredAll, Stmt.declaredAll, ih.1, ihb ih.2]
  | ifThen l cond yes ih => exact ih
  | ifElse l cond yes no ihy ihn => rw [Stmt.unlined, Stmt.declared, Stmt.declared, ihy, ihn]
  | loop l cond body ih => exact ih
  | declare | assign | output | input | ret | call => rfl

theorem Program.positive_of_unlined {p : Program} (h : p.unlined.Positive) : p.Positive := by
  constructor
  · intro g hg
    exact h.globals g.unlined (List.mem_map_of_mem hg)
  · intro q hq
    rw [← Stmt.declared_unlined]
    exact h.bodies q.unlined (List.mem_map_of_mem hq)

variable {ts : List Token} {p : Program}

theorem positive_of_parse (h : parse ts = .ok p) : p.Positive :=
  Program.positive_of_unlined (derives_of_parse h).positive

theorem procedures_ne_nil_of_parse (h : parse ts = .ok p) : p.procedures ≠ [] := fun hnil =>
  (derives_of_parse h).procedures_ne_nil (List.map_eq_nil_iff.2 hnil)

end ProcMips
