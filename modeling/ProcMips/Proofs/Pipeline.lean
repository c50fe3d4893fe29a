import ProcMips.Pipeline
import ProcMips.Proofs.Analysis.Rejection
import ProcMips.Proofs.Parse.Sizes

/-! The stages of a compilation, one behind the other. A stage that fails is the last one, and a program
that is read and not accepted is rejected. -/

namespace ProcMips

variable {text : String} {p : Program} {t : Tables}

theorem programOf_of_error {e : Located LexError} (h : (tokenize text).error? = some e) :
    programOf text = .error (.lexer e) := by
  rw [programOf, Lexed.toExcept, h]
  rfl

theorem programOf_of_tokens (h : (tokenize text).error? = none) :
    programOf text = (parse (tokenize text).tokens).mapError .parser := by
  rw [programOf, Lexed.toExcept, h]
  rfl

theorem programOf_of_parseError {e : Located ParseError} (hl : (tokenize text).error? = none)
    (h : parse (tokenize text).tokens = .error e) : programOf text = .error (.parser e) := by
  rw [programOf_of_tokens hl, h]
  rfl

/-- A program that is read is parsed from the tokens of the text. -/
theorem programOf_eq_ok_iff :
    programOf text = .ok p ↔
      (tokenize text).error? = none ∧ parse (tokenize text).tokens = .ok p := by
  cases h : (tokenize text).error? with
  | some e => simp [programOf_of_error h]
  | none =>
    rw [programOf_of_tokens h, except_mapError_eq_ok]
    simp

theorem compile_of_unread {f : CompileFailure} (h : programOf text = .error f) :
    compile text = .error f := by
  rw [compile, h]
  rfl

theorem compile_of_rejected {e : Located SemanticError} (h : programOf text = .ok p)
    (ha : analyze p = .error (.rejected e)) : compile text = .error (.semantic e) := by
  rw [compile, h]
  dsimp only [bind, Except.bind]
  rw [ha]
  rfl

theorem compile_of_accepted (h : programOf text = .ok p) (ha : analyze p = .ok t) :
    compile text = (p.assembly t).mapError .code := by
  rw [compile, h]
  dsimp only [bind, Except.bind]
  rw [ha]
  rfl

/-- How far a text gets. -/
inductive Progress (text : String) : Prop
  | notLexed (e : Located LexError) (h : (tokenize text).error? = some e)
  | notParsed (e : Located ParseError) (hl : (tokenize text).error? = none)
    (h : parse (tokenize text).tokens = .error e)
  | notAccepted (p : Program) (e : Located SemanticError) (hp : programOf text = .ok p)
    (h : analyze p = .error (.rejected e))
  | accepted (p : Program) (t : Tables) (hp : programOf text = .ok p) (h : analyze p = .ok t)

theorem progress (text : String) : Progress text := by
  cases hl : (tokenize text).error? with
  | some e => exact .notLexed e hl
  | none =>
    cases hp : parse (tokenize text).tokens with
    | error e => exact .notParsed e hl hp
    | ok p =>
      have hprogram := programOf_eq_ok_iff.2 ⟨hl, hp⟩
      cases ha : analyze p with
      | ok t => exact .accepted p t hprogram ha
      | error f =>
        obtain ⟨e, rfl⟩ := Program.exists_rejected_of_analyze (positive_of_parse hp) ha
        exact .notAccepted p e hprogram ha

theorem compile_eq_ok_iff {asm : String} : compile text = .ok asm ↔
    ∃ p t, programOf text = .ok p ∧ analyze p = .ok t ∧ p.assembly t = .ok asm := by
  simp only [compile, except_bind_eq_ok, except_mapError_eq_ok, exists_and_left]

/-- The first stage at which a text fails. -/
inductive FailsAt (text : String) : CompileFailure → Prop
  | lexer {e : Located LexError} (h : (tokenize text).error? = some e) : FailsAt text (.lexer e)
  | parser {e : Located ParseError} (hl : (tokenize text).error? = none)
    (h : parse (tokenize text).tokens = .error e) : FailsAt text (.parser e)
  | analysis {p : Program} {e : Located SemanticError} (hp : programOf text = .ok p)
    (h : analyze p = .error (.rejected e)) : FailsAt text (.semantic e)
  | code {p : Program} {t : Tables} {e : CodeError} (hp : programOf text = .ok p)
    (ht : analyze p = .ok t) (h : p.assembly t = .error e) : FailsAt text (.code e)

theorem failsAt_of_compile_error {f : CompileFailure} (h : compile text = .error f) :
    FailsAt text f := by
  cases progress text with
  | notLexed e hl =>
    cases h.symm.trans (compile_of_unread (programOf_of_error hl))
    exact .lexer hl
  | notParsed e hl he =>
    cases h.symm.trans (compile_of_unread (programOf_of_parseError hl he))
    exact .parser hl he
  | notAccepted p e hp he =>
    cases h.symm.trans (compile_of_rejected hp he)
    exact .analysis hp he
  | accepted p t hp ht =>
    have hcode := h.symm.trans (compile_of_accepted hp ht)
    cases hasm : p.assembly t with
    | ok asm =>
      rw [hasm] at hcode
      cases hcode
    | error e =>
      rw [hasm] at hcode
      cases hcode
      exact .code hp ht hasm

end ProcMips
