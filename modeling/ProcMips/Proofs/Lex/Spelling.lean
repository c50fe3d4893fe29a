import ProcMips.Proofs.Lex.Munch

/-! Writing lexemes as a text. Between two lexemes stands a blank, and behind it any blanks and closed
comments. The tokens of such a text are the lexemes that were written. -/

namespace ProcMips

/-- Letters, digits and underscores that do not start with a digit and are no keyword. -/
structure IsIdentifier (x : String) : Prop where
  start : ∃ c ∈ x.toList.head?, isWordStart c = true
  chars : ∀ c ∈ x.toList, isWordChar c = true
  notKeyword : ∀ k : Keyword, k.text ≠ x

-- The conditions are Boolean, so that no instance that searches all characters is chosen for them.
instance : DecidablePred IsIdentifier := fun x =>
  decidable_of_iff (x.toList.head?.any isWordStart = true ∧ x.toList.all isWordChar = true ∧
    Keyword.all.all (·.text != x) = true) <| by
    rw [Option.any_eq_true, List.all_eq_true, List.all_eq_true]
    exact ⟨fun ⟨hs, hc, hk⟩ => ⟨hs, hc, fun k => bne_iff_ne.1 (hk k k.mem_all)⟩,
      fun h => ⟨h.start, h.chars, fun k _ => bne_iff_ne.2 (h.notKeyword k)⟩⟩

namespace Lexeme

/-- How a lexeme is written. -/
def spelling : Lexeme → List Char
  | literal n => (toString n).toList
  | name x => x.toList
  | keyword k => k.text.toList
  | symbol s => s.text.toList

/-- The lexemes that can be written: a number is a 32-bit integer without a sign. -/
def Writable : Lexeme → Prop
  | literal n => 0 ≤ n ∧ n ≤ Word.greatest
  | name x => IsIdentifier x
  | keyword _ => True
  | symbol _ => True

end Lexeme

/-- A blank, then blanks and closed comments. -/
inductive Separator : List Char → Prop
  | mk {c : Char} {g : List Char} (hc : isBlank c = true) (hg : Filler g) : Separator (c :: g)

def AllWritable (ls : List Lexeme) : Prop := ∀ l ∈ ls, l.Writable

/-- Lexemes written with separators between them. -/
inductive Written : List Lexeme → List Char → Prop
  | nil : Written [] []
  | last (l : Lexeme) : Written [l] l.spelling
  | cons (l : Lexeme) {ls : List Lexeme} {sep text : List Char} (hs : Separator sep)
    (h : Written ls text) : Written (l :: ls) (l.spelling ++ (sep ++ text))

/-- What may follow a lexeme: a blank or the end of the text. -/
def FollowsWord (rest : List Char) : Prop := ∀ c ∈ rest.head?, isBlank c = true

theorem isWordChar_eq_false_of_isBlank {c : Char} (h : isBlank c = true) : isWordChar c = false := by
  by_contra hw
  rw [isBlank_eq_false_of_isWordChar (by simpa using hw)] at h
  cases h

theorem wordRun_of_followsWord {word rest : List Char} (hne : word ≠ [])
    (hw : ∀ c ∈ word, isWordChar c = true) (hr : FollowsWord rest) : WordRun word rest :=
  ⟨hne, hw, fun c hc => isWordChar_eq_false_of_isBlank (hr c hc)⟩

theorem Symbol.isBlank_eq_false_of_mem {s : Symbol} {c : Char} (h : c ∈ s.text.toList) :
    isBlank c = false := by
  have hall : s.text.toList.all (fun c => !isBlank c) = true := by cases s <;> decide
  simpa using List.all_eq_true.1 hall c h

/-- No symbol goes on behind a blank. -/
theorem Symbol.length_le_of_followsWord {s t : Symbol} {rest : List Char} (hr : FollowsWord rest)
    (ht : t.text.toList <+: s.text.toList ++ rest) : t.text.length ≤ s.text.length := by
  rcases List.prefix_or_prefix_of_prefix ht (List.prefix_append _ _) with h | ⟨more, hmore⟩
  · simpa only [String.length_toList] using h.length_le
  · rw [← hmore, List.prefix_append_right_inj] at ht
    cases more with
    | nil => simp [← String.length_toList, ← hmore]
    | cons c more =>
      obtain ⟨after, rfl⟩ := ht
      have hblank : isBlank c = true := hr c rfl
      rw [isBlank_eq_false_of_mem (s := t) (by simp [← hmore])] at hblank
      cases hblank

theorem not_startsGap_slash {rest : List Char} (hr : FollowsWord rest) :
    ¬ StartsGap ('/' :: rest) := by
  intro h
  rcases h with ⟨c, _, heq, hc⟩ | ⟨after, heq⟩ | ⟨after, heq⟩
  · cases heq
    cases hc
  · cases heq
    cases hr _ rfl
  · cases heq
    cases hr _ rfl

/-- What is spelled in front of a blank does not open a comment. -/
theorem Spelled.not_startsGap {rest word : List Char} {l : Lexeme} (h : Spelled rest word l)
    (hr : FollowsWord rest) : ¬ StartsGap (word ++ rest) := by
  cases h with
  | @symbol s =>
    by_cases hs : s = .slash
    · subst hs
      exact not_startsGap_slash hr
    · obtain ⟨c, cs, htext, _, hb⟩ := s.exists_text_eq_cons
      rw [htext]
      apply not_startsGap_cons hb
      intro hc
      subst hc
      cases s <;> cases htext
      exact hs rfl
  | keyword hw => exact hw.not_startsGap
  | literal hw => exact hw.not_startsGap
  | name hw => exact hw.not_startsGap

theorem isDigit_eq_false_of_isWordStart {c : Char} (h : isWordStart c = true) :
    c.isDigit = false := by
  by_cases hu : c = '_'
  · subst hu
    rfl
  · simp only [isWordStart, Bool.or_eq_true, isAlpha_iff, beq_iff_eq, hu, or_false] at h
    rw [← Bool.not_eq_true, isDigit_iff]
    omega

theorem toList_toString_natCast (n : Nat) : (toString (n : Int)).toList = Nat.toDigits 10 n :=
  Nat.toList_repr

theorem isNumber_toDigits {n : Nat} (h : (n : Int) ≤ Word.greatest) :
    IsNumber (Nat.toDigits 10 n) := by
  refine ⟨fun c hc => Nat.isDigit_of_mem_toDigits (by omega) (by omega) hc, ?_⟩
  rw [Nat.ofDigitChars_ten_toDigits]
  exact h

/-- A lexeme is read back in front of a blank or the end. -/
theorem Lexeme.Writable.spelled {l : Lexeme} (h : l.Writable) {rest : List Char}
    (hr : FollowsWord rest) : Spelled rest l.spelling l := by
  cases l with
  | literal n =>
    obtain ⟨n, rfl⟩ := Int.eq_ofNat_of_zero_le h.1
    have hn := isNumber_toDigits h.2
    have hw : WordRun (Nat.toDigits 10 n) rest :=
      wordRun_of_followsWord Nat.toDigits_ne_nil (fun c hc => isWordChar_of_isDigit (hn.1 c hc)) hr
    have hs := Spelled.literal hw hn
    rw [Nat.ofDigitChars_ten_toDigits] at hs
    rw [spelling, toList_toString_natCast]
    exact hs
  | name x =>
    obtain ⟨c, hc, hstart⟩ := h.start
    have hw : WordRun x.toList rest := by
      refine wordRun_of_followsWord ?_ h.chars hr
      intro hnil
      rw [hnil] at hc
      cases hc
    have hs := Spelled.name hw ?_ ?_
    · rw [String.ofList_toList] at hs
      exact hs
    · intro ⟨d, hd, hdigit⟩
      rw [Option.mem_unique hd hc, isDigit_eq_false_of_isWordStart hstart] at hdigit
      cases hdigit
    · exact fun k hk => h.notKeyword k (String.toList_inj.1 hk)
  | keyword k =>
    have hne : k.text.toList ≠ [] := by cases k <;> decide
    have hchars : k.text.toList.all isWordChar = true := by cases k <;> decide
    exact .keyword (wordRun_of_followsWord hne (List.all_eq_true.1 hchars) hr)
  | symbol s => exact .symbol fun t ht => Symbol.length_le_of_followsWord hr ht

theorem Separator.filler {sep : List Char} (h : Separator sep) : Filler sep := by
  cases h with
  | mk hc hg => exact .blank hc hg

theorem Separator.followsWord {sep : List Char} (h : Separator sep) (text : List Char) :
    FollowsWord (sep ++ text) := by
  cases h with
  | mk hc _ =>
    intro d hd
    cases hd
    exact hc

/-- The tokens of a text that was written, behind a gap. -/
theorem Written.tokens_eq {ls : List Lexeme} {text : List Char} (h : Written ls text)
    (hw : AllWritable ls) {g : List Char} (hg : Filler g) (line : Line) :
    (TextCursor.tokens ⟨g ++ text, line⟩).tokens.map Token.lexeme = ls ∧
      (TextCursor.tokens ⟨g ++ text, line⟩).error? = none := by
  induction h generalizing g line with
  | nil =>
    rw [List.append_nil, TextCursor.tokens_of_end (.filler hg)]
    exact ⟨rfl, rfl⟩
  | last l =>
    have hs : Spelled [] l.spelling l := (hw l (by simp)).spelled nofun
    have hgap := hs.not_startsGap nofun
    rw [← List.append_nil l.spelling, TextCursor.tokens_of_spelled (.filler hg) hgap hs,
      TextCursor.tokens_of_end (.filler .nil)]
    exact ⟨rfl, rfl⟩
  | @cons l ls sep text hsep h ih =>
    have hr := hsep.followsWord text
    have hs := (hw l (by simp)).spelled hr
    rw [TextCursor.tokens_of_spelled (.filler hg) (hs.not_startsGap hr) hs]
    obtain ⟨htokens, herror⟩ :=
      ih (fun l' hl' => hw l' (by simp [hl'])) hsep.filler (line + newlines g)
    exact ⟨by rw [List.map_cons, htokens], herror⟩

end ProcMips
