import ProcMips.Proofs.Lex.Words
import ProcMips.Proofs.Splits

/-! The division of a text into gaps and lexemes. Every token is the longest lexeme behind a gap and
carries the line that it stands on. What is left of the text at the end is nothing, or says which error
was reported. The tokens of a text are determined by any such division of it. -/

namespace ProcMips

/-- A token with its spelling and the gap in front of it. -/
structure Piece where
  gap : List Char
  word : List Char
  token : Token

/-- The text of a list of pieces. -/
def Piece.texts (ps : List Piece) : List Char := ps.flatMap fun p => p.gap ++ p.word

/-- A piece read between two parts of a text that starts on `line`. -/
structure Piece.ReadAt (line : Line) (before : List Char) (p : Piece) (after : List Char) : Prop where
  gap : Gap (p.word ++ after) p.gap
  whole : ¬ StartsGap (p.word ++ after)
  word : Spelled after p.word p.token.lexeme
  line : p.token.line = line + newlines (before ++ p.gap)

/-- A text that starts on `line` divided into pieces, a last gap and what is left behind it. -/
structure Munched (line : Line) (text : List Char) (r : Lexed) (ps : List Piece)
    (gap rest : List Char) : Prop where
  split : text = Piece.texts ps ++ (gap ++ rest)
  tokens : r.tokens = ps.map Piece.token
  pieces : ∀ before p after, ps = before ++ p :: after →
    p.ReadAt line (Piece.texts before) (Piece.texts after ++ (gap ++ rest))
  last : Gap rest gap
  ended : r.error? = none → rest = []
  failed : ∀ e, r.error? = some e → e.line = line + newlines (Piece.texts ps ++ gap) ∧
    ∀ cause, e.cause = cause ↔ Fails rest cause

@[simp] theorem Piece.texts_nil : texts [] = [] := rfl

@[simp] theorem Piece.texts_cons (p : Piece) (ps : List Piece) :
    texts (p :: ps) = p.gap ++ (p.word ++ texts ps) := by
  simp [texts]

namespace TextCursor

theorem next_of_spelled {g word after : List Char} {l : Lexeme} (hg : Gap (word ++ after) g)
    (hs : ¬ StartsGap (word ++ after)) (hw : Spelled after word l) (line : Line) :
    next ⟨g ++ (word ++ after), line⟩ =
      .token ⟨line + newlines g, l⟩ ⟨after, line + newlines g⟩ := by
  simp only [next, skipGap_of_gap hg hs, lexeme?_of_spelled hw]

theorem next_of_end {g : List Char} (hg : Gap [] g) (line : Line) : next ⟨g, line⟩ = .done := by
  have hskip := skipGap_of_gap hg (by simp [StartsGap]) line
  rw [List.append_nil] at hskip
  simp only [next, hskip, lexeme?]

theorem next_of_fails {g rest : List Char} {e : LexError} (hg : Gap rest g) (hf : Fails rest e)
    (line : Line) : next ⟨g ++ rest, line⟩ = .failed ⟨line + newlines g, e⟩ := by
  cases hf with
  | unterminatedComment hu => simp only [next, skipGap_of_unclosed hg hu]
  | invalidInteger hw hd hn =>
    simp only [next, skipGap_of_gap hg hw.not_startsGap, lexeme?_digit hw hd,
      Lexeme.ofNumber_of_not_isNumber hn, Except.map]
  | locked hb hw hs =>
    simp only [next, skipGap_of_gap hg (not_startsGap_of_no_symbol hb hs), lexeme?_other hw,
      Symbol.split?_eq_none hs, Option.map_none]

theorem tokens_of_spelled {g word after : List Char} {l : Lexeme} (hg : Gap (word ++ after) g)
    (hs : ¬ StartsGap (word ++ after)) (hw : Spelled after word l) (line : Line) :
    tokens ⟨g ++ (word ++ after), line⟩ =
      ⟨⟨line + newlines g, l⟩ :: (tokens ⟨after, line + newlines g⟩).tokens,
        (tokens ⟨after, line + newlines g⟩).error?⟩ := by
  rw [tokens_eq, next_of_spelled hg hs hw]

theorem tokens_of_end {g : List Char} (hg : Gap [] g) (line : Line) :
    tokens ⟨g, line⟩ = ⟨[], none⟩ := by
  rw [tokens_eq, next_of_end hg]

theorem tokens_of_fails {g rest : List Char} {e : LexError} (hg : Gap rest g) (hf : Fails rest e)
    (line : Line) : tokens ⟨g ++ rest, line⟩ = ⟨[], some ⟨line + newlines g, e⟩⟩ := by
  rw [tokens_eq, next_of_fails hg hf]

end TextCursor

theorem Fails.unique {cs : List Char} {e e' : LexError} (h : Fails cs e) (h' : Fails cs e') :
    e = e' := by
  have hnext := TextCursor.next_of_fails (.filler .nil) h 0
  rw [TextCursor.next_of_fails (.filler .nil) h' 0] at hnext
  cases hnext
  rfl

/-- What stands in front of a text: a lexeme behind a gap, a gap up to the end, or an error. -/
theorem exists_next (cs : List Char) :
    ∃ g rest, cs = g ++ rest ∧ Gap rest g ∧
      (rest = [] ∨ (∃ e, Fails rest e) ∨
        ∃ word after l, rest = word ++ after ∧ ¬ StartsGap rest ∧ Spelled after word l) := by
  obtain ⟨g, rest, rfl, hg, hs | hu⟩ := exists_gap cs
  · refine ⟨g, rest, rfl, hg, ?_⟩
    cases rest with
    | nil => exact .inl rfl
    | cons c rest =>
      rcases exists_spelled_or_fails hs with ⟨word, after, l, heq, hw⟩ | he
      · exact .inr (.inr ⟨word, after, l, heq, hs, hw⟩)
      · exact .inr (.inl he)
  · exact ⟨g, rest, rfl, hg, .inr (.inl ⟨_, .unterminatedComment hu⟩)⟩

/-- The lines in front of a place behind a piece. -/
theorem Piece.ReadAt.add_newlines {line : Line} {before after : List Char} {p : Piece}
    (hp : p.ReadAt line before after) (cs : List Char) :
    line + newlines (p.gap ++ (p.word ++ cs)) = line + newlines p.gap + newlines cs := by
  simp [hp.word.newlines_eq_zero, Nat.add_assoc]

/-- The division behind the first piece. -/
theorem Munched.tail {line : Line} {text gap rest : List Char} {r : Lexed} {p : Piece}
    {ps : List Piece} (h : Munched line text r (p :: ps) gap rest) :
    ∃ after ts, text = p.gap ++ (p.word ++ after) ∧ r.tokens = p.token :: ts ∧
      p.ReadAt line [] after ∧
      Munched (line + newlines p.gap) after ⟨ts, r.error?⟩ ps gap rest := by
  obtain ⟨hp, hps⟩ := forall_split_cons.1 h.pieces
  refine ⟨Piece.texts ps ++ (gap ++ rest), ps.map Piece.token, ?_, h.tokens, hp, ?_⟩
  · rw [h.split, Piece.texts_cons]
    simp
  · refine ⟨rfl, rfl, ?_, h.last, h.ended, ?_⟩
    · intro before q after hsplit
      have hq := hps before q after hsplit
      refine ⟨hq.gap, hq.whole, hq.word, ?_⟩
      rw [hq.line, Piece.texts_cons, ← hp.add_newlines]
      simp
    · intro e he
      obtain ⟨heline, hcause⟩ := h.failed e he
      refine ⟨?_, hcause⟩
      rw [heline, Piece.texts_cons, ← hp.add_newlines]
      simp

theorem Munched.cons {line : Line} {after gap rest : List Char} {r : Lexed} {p : Piece}
    {ps : List Piece} (hp : p.ReadAt line [] after)
    (h : Munched (line + newlines p.gap) after r ps gap rest) :
    Munched line (p.gap ++ (p.word ++ after)) ⟨p.token :: r.tokens, r.error?⟩ (p :: ps) gap rest := by
  refine ⟨?_, ?_, forall_split_cons.2 ⟨?_, ?_⟩, h.last, h.ended, ?_⟩
  · rw [h.split, Piece.texts_cons]
    simp
  · rw [h.tokens, List.map_cons]
  · rw [← h.split]
    exact hp
  · intro before q after hsplit
    have hq := h.pieces before q after hsplit
    refine ⟨hq.gap, hq.whole, hq.word, ?_⟩
    rw [hq.line, Piece.texts_cons, ← hp.add_newlines]
    simp
  · intro e he
    obtain ⟨heline, hcause⟩ := h.failed e he
    refine ⟨?_, hcause⟩
    rw [heline, Piece.texts_cons, ← hp.add_newlines]
    simp

/-- A division of a text determines its tokens. -/
theorem Munched.tokens_eq {line : Line} {text gap rest : List Char} {r : Lexed} {ps : List Piece}
    (h : Munched line text r ps gap rest) : TextCursor.tokens ⟨text, line⟩ = r := by
  induction ps generalizing line text r with
  | nil =>
    obtain ⟨ts, error?⟩ := r
    have hts : ts = [] := h.tokens
    have htext : text = gap ++ rest := h.split
    subst hts htext
    cases error? with
    | none =>
      have hrest := h.ended rfl
      subst hrest
      rw [List.append_nil, TextCursor.tokens_of_end h.last]
    | some e =>
      obtain ⟨hline, hcause⟩ := h.failed e rfl
      rw [TextCursor.tokens_of_fails h.last ((hcause e.cause).1 rfl), ← List.nil_append gap,
        ← Piece.texts_nil, ← hline]
  | cons p ps ih =>
    obtain ⟨after, ts, rfl, htokens, hp, htail⟩ := h.tail
    have hline : p.token.line = line + newlines p.gap := hp.line
    rw [TextCursor.tokens_of_spelled hp.gap hp.whole hp.word, ih htail, ← hline, ← htokens]

theorem exists_munched (line : Line) (text : List Char) :
    ∃ ps gap rest, Munched line text (TextCursor.tokens ⟨text, line⟩) ps gap rest := by
  obtain ⟨g, rest, rfl, hg, rfl | ⟨e, he⟩ | ⟨word, after, l, rfl, hs, hw⟩⟩ := exists_next text
  · rw [List.append_nil, TextCursor.tokens_of_end hg]
    exact ⟨[], g, [], by simp, rfl, forall_split_nil, hg, fun _ => rfl, nofun⟩
  · rw [TextCursor.tokens_of_fails hg he]
    refine ⟨[], g, rest, rfl, rfl, forall_split_nil, hg, nofun, ?_⟩
    intro e' he'
    cases he'
    exact ⟨rfl, fun cause => ⟨fun h => h ▸ he, he.unique⟩⟩
  · obtain ⟨ps, gap, rest, h⟩ := exists_munched (line + newlines g) after
    rw [TextCursor.tokens_of_spelled hg hs hw]
    have hp : Piece.ReadAt line [] ⟨g, word, ⟨line + newlines g, l⟩⟩ after := ⟨hg, hs, hw, rfl⟩
    exact ⟨_ :: ps, gap, rest, Munched.cons hp h⟩
termination_by text.length
decreasing_by
  subst_vars
  exact TextCursor.length_next_lt (TextCursor.next_of_spelled hg hs hw line)

/-- The tokens of a text and its error are what a division into longest lexemes says. -/
theorem tokenize_eq_iff_munched (text : String) (r : Lexed) :
    tokenize text = r ↔ ∃ ps gap rest, Munched 1 text.toList r ps gap rest := by
  constructor
  · intro h
    rw [← h]
    exact exists_munched 1 text.toList
  · intro ⟨ps, gap, rest, h⟩
    exact h.tokens_eq

end ProcMips
