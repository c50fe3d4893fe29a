import ProcMips.Proofs.Lex.Munch

/-! A newline divides a text. What is read in front of it does not depend on what stands behind it: a
word and a symbol end there, and so does a comment to the end of the line. What is read behind it depends
on what stands in front by its line only. -/

namespace ProcMips

/-- A token `k` lines further down. -/
def Token.lowered (k : Nat) (t : Token) : Token := { t with line := t.line + k }

/-- A failure `k` lines further down. -/
def Located.lowered {κ : Type} (k : Nat) (e : Located κ) : Located κ := { e with line := e.line + k }

/-- The tokens of a text that starts `k` lines further down. -/
def Lexed.lowered (k : Nat) (r : Lexed) : Lexed :=
  ⟨r.tokens.map (Token.lowered k), r.error?.map (Located.lowered k)⟩

/-- The tokens of a text that was read to its end, and behind them those of the next one. -/
def Lexed.followedBy (r s : Lexed) : Lexed := ⟨r.tokens ++ s.tokens, s.error?⟩

/-- What stands at the start of a text and has no newline in it stands in front of the first one. -/
theorem prefix_of_prefix_append_newline {w cs ds : List Char} (hw : '\n' ∉ w)
    (h : w <+: cs ++ '\n' :: ds) : w <+: cs := by
  rcases List.prefix_or_prefix_of_prefix h (List.prefix_append cs _) with h' | ⟨v, rfl⟩
  · exact h'
  · rw [List.prefix_append_right_inj] at h
    cases v with
    | nil => exact ⟨[], by simp⟩
    | cons c v =>
      obtain ⟨rfl, -⟩ := List.cons_prefix_cons.1 h
      exact absurd (List.mem_append_right cs List.mem_cons_self) hw

theorem Symbol.newline_notMem (s : Symbol) : '\n' ∉ s.text.toList := by cases s <;> decide

section

variable {rest word g : List Char} (ds : List Char)

theorem not_startsGap_append_newline (hne : rest ≠ []) (h : ¬ StartsGap rest) :
    ¬ StartsGap (rest ++ '\n' :: ds) := by
  rintro (⟨c, cs, hcs, hc⟩ | hline | hblock)
  · cases rest with
    | nil => exact hne rfl
    | cons d rest =>
      cases hcs
      exact h (.inl ⟨c, rest, rfl, hc⟩)
  · exact h (.inr (.inl (prefix_of_prefix_append_newline (by decide) hline)))
  · exact h (.inr (.inr (prefix_of_prefix_append_newline (by decide) hblock)))

theorem WordRun.append_newline (h : WordRun word rest) : WordRun word (rest ++ '\n' :: ds) := by
  refine ⟨h.nonempty, h.chars, fun c hc => ?_⟩
  cases rest with
  | nil =>
    cases hc
    decide
  | cons d rest => exact h.whole c hc

theorem Spelled.append_newline {l : Lexeme} (h : Spelled rest word l) :
    Spelled (rest ++ '\n' :: ds) word l := by
  cases h with
  | symbol hs =>
    refine .symbol fun t ht => hs t ?_
    rw [← List.append_assoc] at ht
    exact prefix_of_prefix_append_newline t.newline_notMem ht
  | keyword hw => exact .keyword (hw.append_newline ds)
  | literal hw hn => exact .literal (hw.append_newline ds) hn
  | name hw hd hk => exact .name (hw.append_newline ds) hd hk

theorem Spelled.word_ne_nil {l : Lexeme} (h : Spelled rest word l) : word ≠ [] := by
  cases h with
  | @symbol s => cases s <;> decide
  | keyword hw => exact hw.nonempty
  | literal hw => exact hw.nonempty
  | name hw => exact hw.nonempty

/-- Only at the end of the text a gap is not closed. -/
theorem Gap.filler_of_ne_nil (h : Gap rest g) (hne : rest ≠ []) : Filler g := by
  cases h with
  | filler hg => exact hg
  | lastLine hr => exact absurd hr hne

/-- A newline closes the last comment of a text. -/
theorem Gap.filler_append_newline (h : Gap rest g) : Filler (g ++ ['\n']) := by
  cases h with
  | filler hg => exact hg.append (.blank rfl .nil)
  | lastLine _ hg ht =>
    rw [List.append_assoc]
    exact hg.append (.lineComment ht .nil)

end

namespace TextCursor

/-- Blanks and closed comments in front of a text count by their lines only. -/
theorem tokens_filler {g : List Char} (hg : Filler g) (rest : List Char) (line : Line) :
    tokens ⟨g ++ rest, line⟩ = tokens ⟨rest, line + newlines g⟩ := by
  have hnext : next ⟨g ++ rest, line⟩ = next ⟨rest, line + newlines g⟩ := by
    simp only [next, skipGap_filler hg]
  rw [tokens_eq, tokens_eq ⟨rest, _⟩, hnext]

/-- The lines of tokens follow the line that the text starts on. -/
theorem tokens_lowered (cs : List Char) (line : Line) (k : Nat) :
    tokens ⟨cs, line + k⟩ = (tokens ⟨cs, line⟩).lowered k := by
  have hline (n : Nat) : line + k + n = line + n + k := Nat.add_right_comm line k n
  obtain ⟨g, rest, rfl, hg, rfl | ⟨e, he⟩ | ⟨word, after, l, rfl, hs, hw⟩⟩ := exists_next cs
  · rw [List.append_nil, tokens_of_end hg, tokens_of_end hg]
    rfl
  · rw [tokens_of_fails hg he, tokens_of_fails hg he, hline]
    rfl
  · have ih := tokens_lowered after (line + newlines g) k
    rw [tokens_of_spelled hg hs hw, tokens_of_spelled hg hs hw, hline, ih]
    rfl
termination_by cs.length
decreasing_by
  subst_vars
  exact length_next_lt (next_of_spelled hg hs hw line)

/-- The tokens of a text with a newline in it, if the part in front of the newline can be read. -/
theorem tokens_append_newline {cs : List Char} {line : Line}
    (h : (tokens ⟨cs, line⟩).error? = none) (ds : List Char) :
    tokens ⟨cs ++ '\n' :: ds, line⟩ =
      (tokens ⟨cs, line⟩).followedBy (tokens ⟨ds, line + (newlines cs + 1)⟩) := by
  obtain ⟨g, rest, rfl, hg, rfl | ⟨e, he⟩ | ⟨word, after, l, rfl, hs, hw⟩⟩ := exists_next cs
  · have hsplit : g ++ [] ++ '\n' :: ds = (g ++ ['\n']) ++ ds := by simp
    rw [hsplit, tokens_filler hg.filler_append_newline, List.append_nil, tokens_of_end hg,
      newlines_append]
    rfl
  · rw [tokens_of_fails hg he] at h
    cases h
  · rw [tokens_of_spelled hg hs hw] at h ⊢
    have hne : word ++ after ≠ [] := by simp [hw.word_ne_nil]
    have hg' := hg.filler_of_ne_nil hne
    have hs' := not_startsGap_append_newline ds hne hs
    have hlines : line + (newlines (g ++ (word ++ after)) + 1) =
        line + newlines g + (newlines after + 1) := by
      simp [hw.newlines_eq_zero, Nat.add_assoc]
    rw [List.append_assoc] at hs'
    rw [List.append_assoc, List.append_assoc,
      tokens_of_spelled (.filler hg') hs' (hw.append_newline ds), tokens_append_newline h ds, hlines]
    rfl
termination_by cs.length
decreasing_by
  subst_vars
  exact length_next_lt (next_of_spelled hg hs hw 0)

end TextCursor

/-- Behind a text that can be read, the next line is read as a text of its own, further down. -/
theorem tokenize_append_newline {s₁ : String} (h : (tokenize s₁).error? = none) (s₂ : String) :
    tokenize (s₁ ++ "\n" ++ s₂) =
      (tokenize s₁).followedBy ((tokenize s₂).lowered (1 + newlines s₁.toList)) := by
  have htext : (s₁ ++ "\n" ++ s₂).toList = s₁.toList ++ '\n' :: s₂.toList := by
    simp [String.toList_append]
  have hseam := TextCursor.tokens_append_newline h s₂.toList
  rw [TextCursor.tokens_lowered, Nat.add_comm (newlines s₁.toList)] at hseam
  rw [tokenize, TextCursor.start, htext]
  exact hseam

/-- A symbol and a comment end at the newline, though they could go on behind it. -/
theorem tokenize_split_lessEqual : (tokenize "x < // less").error? = none ∧
    tokenize ("x < // less" ++ "\n" ++ "= 0x") =
      ⟨[⟨1, .name "x"⟩, ⟨1, .symbol .less⟩, ⟨2, .symbol .equal⟩],
        some ⟨2, .invalidInteger "0x"⟩⟩ := by
  have hread : (tokenize "x < // less").error? = none := by decide +kernel
  refine ⟨hread, ?_⟩
  rw [tokenize_append_newline hread]
  decide +kernel

end ProcMips
