import ProcMips.Proofs.Parse.Language
import ProcMips.Proofs.Parse.Starts

/-! An error of the parser is about the first token that no program has there. What stands in front of
it is the start of a program, since a phrase goes on from it, and no program starts with what ends in
it, since the parser would fail over that program too. -/

namespace ProcMips

open Grammar

/-- `us` is the start of a list of tokens that is accepted. -/
def Viable (us : List Token) : Prop := ∃ vs p, parse (us ++ vs) = .ok p

/-- `e` is about the token at the index `k` of `ts`, or about the end, and `k` is the first place where
no program goes on. -/
structure FaultAt (ts : List Token) (e : Located ParseError) (k : Nat) : Prop where
  bound : k ≤ ts.length
  viable : Viable (ts.take k)
  impossible : k < ts.length → ¬ Viable (ts.take (k + 1))
  line : e.line = ((ts[k]?.or ts.getLast?).map Token.line).getD 1
  found : e.cause.found? = ts[k]?.map Token.lexeme

theorem parse_eq_error_iff {ts : List Token} {e : Located ParseError} :
    parse ts = .error e ↔ ∃ c, Parser.program (TokenCursor.start ts) = .error e c := by
  unfold parse parseNoting
  cases Parser.program (TokenCursor.start ts) <;> simp

theorem viable_of_phrase {us vs : List Token} {p : Program} (h : ProgramPhrase (us ++ vs) p) :
    Viable us := by
  obtain ⟨q, hq, -⟩ := parse_of_derives h.derives
  exact ⟨vs, q, hq⟩

theorem viable_nil : Viable [] :=
  viable_of_phrase (Parser.programPhrase_of_joins Parser.joins_nil Parser.joins_shortest (by simp))

theorem not_viable_of_error {us xs : List Token} {t : Token} {e : Located ParseError}
    {c : TokenCursor} (hrun : Parser.program (TokenCursor.start (us ++ t :: xs)) = .error e c)
    (hrest : c.rest = t :: xs) : ¬ Viable (us ++ [t]) := by
  rintro ⟨ys, p, hp⟩
  obtain ⟨e', c', herror⟩ := Parser.error_of_same_start hrun hrest ys
  rw [List.append_assoc, List.singleton_append, parse_eq_error_iff.2 ⟨c', herror⟩] at hp
  cases hp

/-- What a run has read before it fails goes on to a program, but not with the token where it fails. -/
theorem faultAt_of_error {us xs : List Token} {e : Located ParseError} {c : TokenCursor}
    (hrun : Parser.program (TokenCursor.start (us ++ xs)) = .error e c) (hrest : c.rest = xs)
    (hlast : c.lastLine = (TokenCursor.start (us ++ xs)).lastLine) (hviable : Viable us)
    (he : PointsAt e c) : FaultAt (us ++ xs) e us.length := by
  have hline := he.line
  have hfound := he.found
  rw [TokenCursor.line, hrest, hlast] at hline
  rw [TokenCursor.next?, hrest] at hfound
  refine ⟨by simp, by simpa using hviable, fun hlength => ?_, ?_, ?_⟩
  · cases xs with
    | nil => simp at hlength
    | cons t xs =>
      rw [List.take_length_add_append]
      exact not_viable_of_error hrun hrest
  · cases xs with
    | nil => simpa [TokenCursor.start] using hline
    | cons t xs => simpa using hline
  · rw [hfound, List.getElem?_append_right (Nat.le_refl _), Nat.sub_self, List.head?_eq_getElem?]

/-- An error is about the first token that no program has there, or about the end of a list that is the
start of a program, and only the empty list has no program to go on with. -/
theorem parse_fails_at_first_fault {ts : List Token} {e : Located ParseError}
    (h : parse ts = .error e) :
    (∃ k, FaultAt ts e k) ∧ (e.cause = .emptyProgram ↔ ts = []) := by
  by_cases hts : ts = []
  · subst hts
    obtain rfl : e = ⟨1, .emptyProgram⟩ := (Except.error.inj h).symm
    exact ⟨⟨0, Nat.le_refl 0, viable_nil, fun h => absurd h (Nat.lt_irrefl 0), rfl, rfl⟩, by simp⟩
  · obtain ⟨c, hrun⟩ := parse_eq_error_iff.1 h
    have hfollows := Parser.soundAt_program hts (TokenCursor.start ts) rfl
    rw [hrun] at hfollows
    cases hfollows with
    | @error us vs p _ _ hrest hlast hphrase he =>
      obtain rfl : ts = us ++ c.rest := hrest
      refine ⟨⟨us.length, faultAt_of_error hrun rfl hlast (viable_of_phrase hphrase) he⟩, ?_⟩
      simp only [he.started, hts]

/-- A sum on two lines whose parenthesis is not closed. -/
def openSum : List Token :=
  [⟨1, .keyword .procedure⟩, ⟨1, .keyword .int⟩, ⟨1, .name "main"⟩, ⟨1, .symbol .leftParen⟩,
    ⟨1, .symbol .rightParen⟩, ⟨2, .keyword .return_⟩, ⟨2, .symbol .leftParen⟩, ⟨2, .literal 1⟩,
    ⟨3, .symbol .plus⟩, ⟨3, .name "x"⟩, ⟨4, .symbol .semicolon⟩]

theorem openSum_fails_at_first_fault :
    parse openSum = .error ⟨4, .expected [.symbol .rightParen] (some (.symbol .semicolon))⟩ ∧
      ∃ k, FaultAt openSum
        ⟨4, .expected [.symbol .rightParen] (some (.symbol .semicolon))⟩ k :=
  ⟨rfl, (parse_fails_at_first_fault rfl).1⟩

end ProcMips
