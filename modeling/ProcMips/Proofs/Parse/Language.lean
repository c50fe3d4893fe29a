import ProcMips.Proofs.Parse.Completeness

/-! The language of the parser is the language of the grammar, and the grammar derives at most one tree
from a list of lexemes. The lines in the tree that is parsed are those of a phrase. -/

namespace ProcMips

open Grammar

theorem parse_eq_ok_iff {ts : List Token} {p : Program} :
    parse ts = .ok p ↔ ∃ c, Parser.program (TokenCursor.start ts) = .ok p c := by
  unfold parse parseNoting
  cases Parser.program (TokenCursor.start ts) <;> simp

/-- The program that is parsed is derived, without its lines. -/
theorem derives_of_parse {ts : List Token} {p : Program} (h : parse ts = .ok p) :
    DerivesProgram (ts.map Token.lexeme) p.unlined := by
  obtain ⟨c, hc⟩ := parse_eq_ok_iff.1 h
  exact (Parser.phrase_of_program hc).derives

/-- A program that is derived is parsed, with some lines. -/
theorem parse_of_derives {ts : List Token} {p : Program}
    (h : DerivesProgram (ts.map Token.lexeme) p) : ∃ q, parse ts = .ok q ∧ q.unlined = p := by
  obtain ⟨q, c, hrun, -, hq⟩ := Parser.reads_program h (TokenCursor.start ts) (List.append_nil _).symm
  exact ⟨q, parse_eq_ok_iff.2 ⟨c, hrun⟩, hq⟩

theorem derivesProgram_unique {ls : List Lexeme} {p q : Program} (hp : DerivesProgram ls p)
    (hq : DerivesProgram ls q) : p = q := by
  have hls : (ls.map fun l => (⟨1, l⟩ : Token)).map Token.lexeme = ls := by
    rw [List.map_map]
    exact List.map_id ls
  rw [← hls] at hp hq
  obtain ⟨p', hparse, rfl⟩ := parse_of_derives hp
  obtain ⟨q', hparse', rfl⟩ := parse_of_derives hq
  rw [hparse] at hparse'
  rw [Except.ok.inj hparse']

/-- The parser accepts what the grammar derives, with the tree of the derivation up to lines, and no
list of lexemes derives two programs. -/
theorem parse_accepts_iff_derives (ts : List Token) :
    (∀ p : Program, (∃ q, parse ts = .ok q ∧ q.unlined = p.unlined) ↔
      DerivesProgram (ts.map Token.lexeme) p.unlined) ∧
    ∀ p q : Program, DerivesProgram (ts.map Token.lexeme) p →
      DerivesProgram (ts.map Token.lexeme) q → p = q := by
  refine ⟨fun p => ⟨?_, parse_of_derives⟩, fun p q => derivesProgram_unique⟩
  rintro ⟨q, hq, hlines⟩
  rw [← hlines]
  exact derives_of_parse hq

/-- A program that is parsed is the tree of a phrase: every node carries the line of its own first
token, where a binary operation carries the line of its operator instead, and parentheses are no part of
what stands between them. -/
theorem programPhrase_of_parse {ts : List Token} {p : Program} (h : parse ts = .ok p) :
    ProgramPhrase ts p := by
  obtain ⟨c, hc⟩ := parse_eq_ok_iff.1 h
  exact Parser.phrase_of_program hc

/-- The tokens in front of a sum on two lines. -/
def sumHeading : List Token :=
  [⟨1, .keyword .procedure⟩, ⟨1, .keyword .int⟩, ⟨1, .name "main"⟩, ⟨1, .symbol .leftParen⟩,
    ⟨1, .symbol .rightParen⟩, ⟨1, .keyword .return_⟩]

def twoLineSum : List Token := [⟨1, .literal 1⟩, ⟨2, .symbol .plus⟩, ⟨2, .literal 2⟩]

theorem twoLineSum_programPhrase :
    parse (sumHeading ++ twoLineSum ++ [⟨2, .symbol .semicolon⟩]) =
        .ok ⟨[], [⟨1, "main", [], .ret 1 (.binary 2 .add (.int 1 1) (.int 2 2))⟩]⟩ ∧
      ProgramPhrase (sumHeading ++ twoLineSum ++ [⟨2, .symbol .semicolon⟩])
        ⟨[], [⟨1, "main", [], .ret 1 (.binary 2 .add (.int 1 1) (.int 2 2))⟩]⟩ :=
  ⟨rfl, programPhrase_of_parse rfl⟩

/-- The sum starts on line 1, and its node carries line 2. -/
theorem twoLineSum_line :
    parse (sumHeading ++ twoLineSum ++ [⟨2, .symbol .semicolon⟩]) =
        .ok ⟨[], [⟨1, "main", [], .ret 1 (.binary 2 .add (.int 1 1) (.int 2 2))⟩]⟩ ∧
      ExprPhrase .expression twoLineSum (.binary 2 .add (.int 1 1) (.int 2 2)) ∧
      twoLineSum.head?.map Token.line ≠ some 2 :=
  ⟨rfl, .operation 2 .add (.literal 1 1) (.single (.literal 2 2)), by decide⟩

end ProcMips
