import Mathlib.Data.List.TakeWhile
import ProcMips.Proofs.Lex.Gaps

/-! What a lexeme is spelled like: the longest symbol, or a whole run of letters, digits and underscores,
which is a keyword, a number or a name. A text that starts with none of these fails in exactly one way. -/

namespace ProcMips

/-- A run of letters, digits and underscores in front of `rest`, which does not go on with it. -/
structure WordRun (word rest : List Char) : Prop where
  nonempty : word ≠ []
  chars : ∀ c ∈ word, isWordChar c = true
  whole : ∀ c ∈ rest.head?, isWordChar c = false

/-- Whether a word is a number with a value that a 32-bit integer holds. -/
def IsNumber (word : List Char) : Prop :=
  (∀ c ∈ word, c.isDigit = true) ∧ (Nat.ofDigitChars 10 word 0 : Int) ≤ Word.greatest

def StartsWithDigit (word : List Char) : Prop := ∃ c ∈ word.head?, c.isDigit = true

/-- The text that a lexeme is read from in front of `rest`. -/
inductive Spelled (rest : List Char) : List Char → Lexeme → Prop
  | symbol {s : Symbol}
    (hs : ∀ t : Symbol, t.text.toList <+: s.text.toList ++ rest → t.text.length ≤ s.text.length) :
    Spelled rest s.text.toList (.symbol s)
  | keyword {k : Keyword} (hw : WordRun k.text.toList rest) : Spelled rest k.text.toList (.keyword k)
  | literal {word : List Char} (hw : WordRun word rest) (hn : IsNumber word) :
    Spelled rest word (.literal (Nat.ofDigitChars 10 word 0))
  | name {word : List Char} (hw : WordRun word rest) (hd : ¬ StartsWithDigit word)
    (hk : ∀ k : Keyword, k.text.toList ≠ word) : Spelled rest word (.name (String.ofList word))

/-- Why a text starts with neither a gap nor a lexeme. -/
inductive Fails : List Char → LexError → Prop
  | unterminatedComment {cs : List Char} (h : Unclosed cs) : Fails cs .unterminatedComment
  | invalidInteger {word rest : List Char} (hw : WordRun word rest) (hd : StartsWithDigit word)
    (hn : ¬ IsNumber word) : Fails (word ++ rest) (.invalidInteger (String.ofList word))
  | locked {c : Char} {cs : List Char} (hb : isBlank c = false) (hw : isWordChar c = false)
    (hs : ∀ s : Symbol, ¬ s.text.toList <+: c :: cs) : Fails (c :: cs) (.locked (some c))

namespace Symbol

theorem split?_text (s : Symbol) : split? s.text.toList = some (s, []) := by cases s <;> rfl

theorem eq_of_toList_text_eq {s t : Symbol} (h : s.text.toList = t.text.toList) : s = t := by
  have hs := split?_text s
  rw [h, split?_text t] at hs
  cases hs
  rfl

theorem exists_split? (s : Symbol) (rest : List Char) :
    ∃ t after, split? (s.text.toList ++ rest) = some (t, after) := by
  cases s
  case less =>
    rcases rest with _ | ⟨c, rest⟩
    · exact ⟨less, [], rfl⟩
    · by_cases hc : c = '='
      · subst hc
        exact ⟨lessEqual, rest, rfl⟩
      · refine ⟨less, c :: rest, ?_⟩
        simp [split?, text, hc]
  case greater =>
    rcases rest with _ | ⟨c, rest⟩
    · exact ⟨greater, [], rfl⟩
    · by_cases hc : c = '='
      · subst hc
        exact ⟨greaterEqual, rest, rfl⟩
      · refine ⟨greater, c :: rest, ?_⟩
        simp [split?, text, hc]
  all_goals exact ⟨_, _, rfl⟩

theorem length_le_of_split? {cs rest : List Char} {s t : Symbol} (h : split? cs = some (s, rest))
    (ht : t.text.toList <+: cs) : t.text.length ≤ s.text.length := by
  obtain ⟨after, rfl⟩ := ht
  have hpos : 1 ≤ s.text.length := by cases s <;> decide
  cases t
  case assign => cases h; exact Nat.le_refl _
  case greaterEqual => cases h; exact Nat.le_refl _
  case lessEqual => cases h; exact Nat.le_refl _
  all_goals exact hpos

/-- The longest symbol of a text is the one that is read. -/
theorem split?_of_longest {s : Symbol} {rest : List Char}
    (hs : ∀ t : Symbol, t.text.toList <+: s.text.toList ++ rest → t.text.length ≤ s.text.length) :
    split? (s.text.toList ++ rest) = some (s, rest) := by
  obtain ⟨t, after, h⟩ := exists_split? s rest
  have heq := eq_append_of_split? h
  have hle : t.text.length ≤ s.text.length := hs t ⟨after, heq.symm⟩
  have hge : s.text.length ≤ t.text.length := length_le_of_split? h (List.prefix_append _ _)
  obtain ⟨htext, rfl⟩ := List.append_inj heq (by simp only [String.length_toList]; omega)
  rw [h, eq_of_toList_text_eq htext]

theorem split?_eq_none {cs : List Char} (hs : ∀ s : Symbol, ¬ s.text.toList <+: cs) :
    split? cs = none := by
  by_contra h
  obtain ⟨⟨s, rest⟩, h⟩ := Option.ne_none_iff_exists'.1 h
  exact hs s ⟨rest, (eq_append_of_split? h).symm⟩

end Symbol

theorem WordRun.takeWhile_eq {word rest : List Char} (h : WordRun word rest) :
    (word ++ rest).takeWhile isWordChar = word := by
  rw [List.takeWhile_append_of_pos h.chars]
  cases rest with
  | nil => simp
  | cons c rest => simp [h.whole c rfl]

theorem WordRun.dropWhile_eq {word rest : List Char} (h : WordRun word rest) :
    (word ++ rest).dropWhile isWordChar = rest := by
  rw [List.dropWhile_append_of_pos h.chars]
  cases rest with
  | nil => rfl
  | cons c rest => simp [h.whole c rfl]

theorem wordRun_takeWhile {c : Char} (hc : isWordChar c = true) (cs : List Char) :
    WordRun ((c :: cs).takeWhile isWordChar) ((c :: cs).dropWhile isWordChar) where
  nonempty := by simp [hc]
  chars d hd := List.mem_takeWhile_imp hd
  whole d hd := by
    rw [← List.find?_not_eq_head?_dropWhile] at hd
    simpa using List.find?_some hd

namespace Lexeme

theorem ofNumber_of_isNumber {word : List Char} (h : IsNumber word) :
    ofNumber word = .ok (literal (Nat.ofDigitChars 10 word 0)) :=
  if_pos ⟨List.all_eq_true.2 h.1, h.2⟩

theorem ofNumber_of_not_isNumber {word : List Char} (h : ¬ IsNumber word) :
    ofNumber word = .error (.invalidInteger (String.ofList word)) :=
  if_neg fun ⟨hd, hv⟩ => h ⟨List.all_eq_true.1 hd, hv⟩

theorem ofWord_text (k : Keyword) : ofWord k.text.toList = keyword k := by
  rw [ofWord, String.ofList_toList, Keyword.ofText?_text]

theorem ofWord_of_ne {word : List Char} (h : ∀ k : Keyword, k.text.toList ≠ word) :
    ofWord word = name (String.ofList word) := by
  have hnone : Keyword.ofText? (String.ofList word) = none := by
    rw [Keyword.ofText?, List.find?_eq_none]
    intro k _ hk
    exact h k (by rw [beq_iff_eq.1 hk, String.toList_ofList])
  rw [ofWord, hnone]

end Lexeme

theorem isWordStart_of_isWordChar {c : Char} (hw : isWordChar c = true) (hd : c.isDigit = false) :
    isWordStart c = true := by
  simpa [isWordChar, isWordStart, Char.isAlphanum, hd] using hw

theorem isWordChar_of_isDigit {c : Char} (hd : c.isDigit = true) : isWordChar c = true := by
  simp [isWordChar, Char.isAlphanum, hd]

theorem isDigit_eq_false_of_isWordChar {c : Char} (hw : isWordChar c = false) :
    c.isDigit = false := by
  by_contra h
  rw [isWordChar_of_isDigit (by simpa using h)] at hw
  cases hw

theorem isWordStart_eq_false_of_isWordChar {c : Char} (hw : isWordChar c = false) :
    isWordStart c = false := by
  by_contra h
  simp_all [isWordChar, isWordStart, Char.isAlphanum]

theorem IsNumber.startsWithDigit {word rest : List Char} (h : IsNumber word)
    (hw : WordRun word rest) : StartsWithDigit word := by
  cases word with
  | nil => exact absurd rfl hw.nonempty
  | cons c word => exact ⟨c, rfl, h.1 c (by simp)⟩

theorem not_startsWithDigit_text (k : Keyword) : ¬ StartsWithDigit k.text.toList := by
  intro ⟨c, hc, hd⟩
  cases k <;> cases hc <;> cases hd

theorem isAlpha_iff {c : Char} : c.isAlpha = true ↔
    (65 ≤ c.toNat ∧ c.toNat ≤ 90) ∨ (97 ≤ c.toNat ∧ c.toNat ≤ 122) := by
  have halpha : c.isAlpha = (decide (c.val ≥ 'A'.val ∧ c.val ≤ 'Z'.val) ||
      (c.val ≥ 'a'.val && c.val ≤ 'z'.val)) := rfl
  simp only [halpha, Bool.or_eq_true, Bool.and_eq_true, decide_eq_true_eq, ge_iff_le,
    UInt32.le_iff_toNat_le, Char.reduceVal, UInt32.reduceToNat, Char.toNat]

theorem isDigit_iff {c : Char} : c.isDigit = true ↔ 48 ≤ c.toNat ∧ c.toNat ≤ 57 := by
  simp only [Char.isDigit, Bool.and_eq_true, decide_eq_true_eq, ge_iff_le,
    UInt32.le_iff_toNat_le, Char.reduceVal, UInt32.reduceToNat, Char.toNat]

theorem isBlank_eq_false_of_isWordChar {c : Char} (h : isWordChar c = true) : isBlank c = false := by
  by_cases hu : c = '_'
  · subst hu
    rfl
  · simp only [isWordChar, Char.isAlphanum, Bool.or_eq_true, isAlpha_iff, isDigit_iff, beq_iff_eq,
      hu, or_false] at h
    simp only [isBlank, Bool.or_eq_false_iff, Bool.and_eq_false_iff,
      decide_eq_false_iff_not, beq_eq_false_iff_ne, ne_eq]
    omega

theorem WordRun.not_startsGap {word rest : List Char} (h : WordRun word rest) :
    ¬ StartsGap (word ++ rest) := by
  cases word with
  | nil => exact absurd rfl h.nonempty
  | cons c word =>
    have hc := h.chars c (by simp)
    apply not_startsGap_cons (isBlank_eq_false_of_isWordChar hc)
    intro hslash
    subst hslash
    cases hc

theorem not_startsGap_of_no_symbol {c : Char} {cs : List Char} (hb : isBlank c = false)
    (hs : ∀ s : Symbol, ¬ s.text.toList <+: c :: cs) : ¬ StartsGap (c :: cs) := by
  apply not_startsGap_cons hb
  intro hslash
  subst hslash
  exact hs .slash ⟨cs, rfl⟩

theorem Symbol.exists_text_eq_cons (s : Symbol) :
    ∃ c cs, s.text.toList = c :: cs ∧ isWordChar c = false ∧ isBlank c = false := by
  cases s <;> exact ⟨_, _, rfl, rfl, rfl⟩

namespace TextCursor

theorem lexeme?_digit {word rest : List Char} (hw : WordRun word rest) (hd : StartsWithDigit word)
    (line : Line) :
    lexeme? ⟨word ++ rest, line⟩ = (Lexeme.ofNumber word).map fun l => some (l, rest) := by
  have htake := hw.takeWhile_eq
  have hdrop := hw.dropWhile_eq
  obtain ⟨c, hc, hd⟩ := hd
  cases word with
  | nil => cases hc
  | cons d word =>
    cases hc
    rw [List.cons_append] at htake hdrop ⊢
    simp only [lexeme?, htake, hdrop]
    rw [if_pos hd]

theorem lexeme?_word {word rest : List Char} (hw : WordRun word rest) (hd : ¬ StartsWithDigit word)
    (line : Line) : lexeme? ⟨word ++ rest, line⟩ = .ok (some (Lexeme.ofWord word, rest)) := by
  have htake := hw.takeWhile_eq
  have hdrop := hw.dropWhile_eq
  cases word with
  | nil => exact absurd rfl hw.nonempty
  | cons c word =>
    have hdigit : c.isDigit = false := by
      by_contra h
      exact hd ⟨c, rfl, by simpa using h⟩
    have hstart := isWordStart_of_isWordChar (hw.chars c (by simp)) hdigit
    rw [List.cons_append] at htake hdrop ⊢
    simp only [lexeme?, htake, hdrop]
    rw [if_neg (by simp [hdigit]), if_pos hstart]

theorem lexeme?_other {c : Char} (hc : isWordChar c = false) (cs : List Char) (line : Line) :
    lexeme? ⟨c :: cs, line⟩ =
      .ok ((Symbol.split? (c :: cs)).map fun (s, rest) => (.symbol s, rest)) := by
  have hdigit := isDigit_eq_false_of_isWordChar hc
  have hstart := isWordStart_eq_false_of_isWordChar hc
  simp only [lexeme?]
  rw [if_neg (by simp [hdigit]), if_neg (by simp [hstart])]

/-- What is spelled here is what is read. -/
theorem lexeme?_of_spelled {rest word : List Char} {l : Lexeme} (h : Spelled rest word l)
    (line : Line) : lexeme? ⟨word ++ rest, line⟩ = .ok (some (l, rest)) := by
  cases h with
  | @symbol s hs =>
    obtain ⟨c, cs, htext, hw, _⟩ := s.exists_text_eq_cons
    have hsplit := Symbol.split?_of_longest hs
    rw [htext, List.cons_append] at hsplit ⊢
    rw [lexeme?_other hw, hsplit]
    rfl
  | @keyword k hw => rw [lexeme?_word hw (not_startsWithDigit_text k), Lexeme.ofWord_text]
  | literal hw hn =>
    rw [lexeme?_digit hw (hn.startsWithDigit hw), Lexeme.ofNumber_of_isNumber hn]
    rfl
  | name hw hd hk => rw [lexeme?_word hw hd, Lexeme.ofWord_of_ne hk]

end TextCursor

theorem Spelled.newlines_eq_zero {rest word : List Char} {l : Lexeme} (h : Spelled rest word l) :
    newlines word = 0 := by
  have hword {word rest : List Char} (hw : WordRun word rest) : newlines word = 0 :=
    ProcMips.newlines_eq_zero fun hn => absurd (hw.chars _ hn) (by decide)
  cases h with
  | @symbol s => cases s <;> rfl
  | keyword hw => exact hword hw
  | literal hw => exact hword hw
  | name hw => exact hword hw

/-- Where no gap starts, either a lexeme does or nothing can be read. -/
theorem exists_spelled_or_fails {c : Char} {cs : List Char} (h : ¬ StartsGap (c :: cs)) :
    (∃ word rest l, c :: cs = word ++ rest ∧ Spelled rest word l) ∨ ∃ e, Fails (c :: cs) e := by
  by_cases hc : isWordChar c = true
  · have hw := wordRun_takeWhile hc cs
    rw [← List.takeWhile_append_dropWhile (p := isWordChar) (l := c :: cs)]
    generalize (c :: cs).takeWhile isWordChar = word at hw
    generalize (c :: cs).dropWhile isWordChar = rest at hw
    by_cases hd : StartsWithDigit word
    · by_cases hn : IsNumber word
      · exact .inl ⟨word, rest, _, rfl, .literal hw hn⟩
      · exact .inr ⟨_, .invalidInteger hw hd hn⟩
    · by_cases hk : ∃ k : Keyword, k.text.toList = word
      · obtain ⟨k, rfl⟩ := hk
        exact .inl ⟨_, rest, _, rfl, .keyword hw⟩
      · exact .inl ⟨word, rest, _, rfl, .name hw hd (not_exists.1 hk)⟩
  · cases hs : Symbol.split? (c :: cs) with
    | some p =>
      obtain ⟨s, rest⟩ := p
      have heq := Symbol.eq_append_of_split? hs
      refine .inl ⟨_, rest, _, heq, .symbol fun t ht => ?_⟩
      rw [← heq] at ht
      exact Symbol.length_le_of_split? hs ht
    | none =>
      have hb : isBlank c = false := by
        by_contra hb
        exact h (.inl ⟨c, cs, rfl, by simpa using hb⟩)
      refine .inr ⟨_, .locked hb (by simpa using hc) ?_⟩
      intro s ⟨rest, hrest⟩
      obtain ⟨t, after, ht⟩ := s.exists_split? rest
      rw [hrest, hs] at ht
      cases ht

end ProcMips
