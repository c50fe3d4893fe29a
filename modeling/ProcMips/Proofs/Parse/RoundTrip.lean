import ProcMips.Proofs.Parse.Language
import ProcMips.Proofs.Parse.Writing

/-! A program that is written as a text is read back from it, up to its lines, whatever blanks and
comments stand between its lexemes. -/

namespace ProcMips

/-- Reading what was written gives the program that was written. -/
theorem parse_tokenize_of_written {p : Program} {text : String} (hp : p.Writable)
    (ht : Written p.lexemes text.toList) :
    (tokenize text).error? = none ∧
      ∃ q, parse (tokenize text).tokens = .ok q ∧ q.unlined = p.unlined := by
  obtain ⟨htokens, herror⟩ := ht.tokens_eq hp.lexemes .nil 1
  have hd := hp.derives
  rw [← htokens] at hd
  exact ⟨herror, parse_of_derives hd⟩

/-- The sum of two literals, halved. -/
def halvedSum : Program where
  globals := []
  procedures := [⟨1, "f", [], .ret 2 (.binary 3 .div (.binary 3 .add (.int 3 1) (.int 3 2)) (.int 3 2))⟩]

def halvedSumText : String :=
  "procedure int f ( ) // no parameters\nreturn /* the sum */ ( 1 + 2 )\n/ 2 ;"

theorem writable_halvedSum : halvedSum.Writable where
  globals := nofun
  procedures := by
    have hchars : "f".toList.all isWordChar = true := by decide
    have hf : IsIdentifier "f" :=
      ⟨⟨'f', rfl, rfl⟩, List.all_eq_true.1 hchars, fun k => by cases k <;> decide⟩
    have hone : (0 : Int) ≤ 1 ∧ 1 ≤ Word.greatest := by decide
    have htwo : (0 : Int) ≤ 2 ∧ 2 ≤ Word.greatest := by decide
    intro q hq
    rw [List.mem_singleton.1 hq]
    exact ⟨hf, nofun,
      .ret 2 (.binary 3 .div (.binary 3 .add (.int 3 hone) (.int 3 htwo)) (.int 3 htwo))⟩
  nonempty := by simp [halvedSum]

theorem written_halvedSum : Written halvedSum.lexemes halvedSumText.toList := by
  have hblank : Separator [' '] := .mk rfl .nil
  have hnewline : Separator ['\n'] := .mk rfl .nil
  have hline : Separator " // no parameters\n".toList :=
    .mk rfl (@Filler.lineComment " no parameters".toList [] (by decide) .nil)
  have hblock : Separator " /* the sum */ ".toList :=
    .mk rfl (@Filler.blockComment " the sum ".toList _ (by decide) (.blank rfl .nil))
  exact .cons _ hblank <| .cons _ hblank <| .cons _ hblank <| .cons _ hblank <| .cons _ hline <|
    .cons _ hblock <| .cons _ hblank <| .cons _ hblank <| .cons _ hblank <| .cons _ hblank <|
    .cons _ hnewline <| .cons _ hblank <| .cons _ hblank <| .last _

theorem parse_tokenize_halvedSumText :
    (tokenize halvedSumText).error? = none ∧
      ∃ q, parse (tokenize halvedSumText).tokens = .ok q ∧ q.unlined = halvedSum.unlined :=
  parse_tokenize_of_written writable_halvedSum written_halvedSum

end ProcMips
