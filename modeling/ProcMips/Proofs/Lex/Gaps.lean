import Mathlib.Data.List.Infix
import ProcMips.Token.Lexer

/-! The gaps of a text: blanks and comments. A line comment runs to the end of its line or of the text,
a block comment to the first closing mark behind its opening one. What is skipped in front of a lexeme is
a gap, no gap starts behind it, and it says how many lines were passed. -/

namespace ProcMips

def newlines (cs : List Char) : Nat := cs.count '\n'

/-- Whether a closing mark of a block comment stands in a text. -/
def HasClosing (cs : List Char) : Prop := ['*', '/'] <:+: cs

instance (cs : List Char) : Decidable (HasClosing cs) := inferInstanceAs (Decidable (_ <:+: _))

/-- Blanks and comments that are closed. The mark that closes a block comment is the only one in it, and
its star is no part of an earlier one. -/
inductive Filler : List Char → Prop
  | nil : Filler []
  | blank {c : Char} {g : List Char} (hc : isBlank c = true) (hg : Filler g) : Filler (c :: g)
  | lineComment {text g : List Char} (ht : '\n' ∉ text) (hg : Filler g) :
    Filler ('/' :: '/' :: (text ++ '\n' :: g))
  | blockComment {text g : List Char} (ht : ¬ HasClosing (text ++ ['*'])) (hg : Filler g) :
    Filler ('/' :: '*' :: (text ++ '*' :: '/' :: g))

/-- A gap in front of `rest`. A line comment at the end of the text needs no newline. -/
inductive Gap (rest : List Char) : List Char → Prop
  | filler {g : List Char} (hg : Filler g) : Gap rest g
  | lastLine {g text : List Char} (hr : rest = []) (hg : Filler g) (ht : '\n' ∉ text) :
    Gap rest (g ++ '/' :: '/' :: text)

/-- Whether a text starts with a blank or with the mark that opens a comment. -/
def StartsGap (cs : List Char) : Prop :=
  (∃ c rest, cs = c :: rest ∧ isBlank c = true) ∨ ['/', '/'] <+: cs ∨ ['/', '*'] <+: cs

/-- A text that starts with a block comment which is never closed. -/
def Unclosed (cs : List Char) : Prop := ∃ text, cs = '/' :: '*' :: text ∧ ¬ HasClosing text

@[simp] theorem newlines_nil : newlines [] = 0 := rfl

@[simp] theorem newlines_append (cs ds : List Char) :
    newlines (cs ++ ds) = newlines cs + newlines ds := List.count_append

theorem newlines_cons (c : Char) (cs : List Char) :
    newlines (c :: cs) = newlines [c] + newlines cs := newlines_append [c] cs

theorem newlines_eq_zero {cs : List Char} (h : '\n' ∉ cs) : newlines cs = 0 :=
  List.count_eq_zero.2 h

theorem TextCursor.lineAfter_eq (c : Char) (line : Line) :
    lineAfter c line = line + newlines [c] := by
  rw [lineAfter, newlines, List.count_singleton]
  split_ifs <;> simp_all

theorem Filler.append {g h : List Char} (hg : Filler g) (hh : Filler h) : Filler (g ++ h) := by
  induction hg with
  | nil => exact hh
  | blank hc _ ih => exact .blank hc ih
  | lineComment ht _ ih => simpa using Filler.lineComment ht ih
  | blockComment ht _ ih => simpa using Filler.blockComment ht ih

theorem Gap.append {rest g h : List Char} (hg : Filler g) (hh : Gap rest h) : Gap rest (g ++ h) := by
  cases hh with
  | filler hh => exact .filler (hg.append hh)
  | lastLine hr hh ht =>
    rw [← List.append_assoc]
    exact .lastLine hr (hg.append hh) ht

theorem not_startsGap_cons {c : Char} {cs : List Char} (hb : isBlank c = false) (hc : c ≠ '/') :
    ¬ StartsGap (c :: cs) := by
  rintro (⟨_, _, ⟨⟩, h⟩ | h | h)
  · simp [hb] at h
  · exact hc (List.cons_prefix_cons.1 h).1.symm
  · exact hc (List.cons_prefix_cons.1 h).1.symm

/-- A closing mark that stands first, or one further on. -/
theorem hasClosing_cons {c : Char} {cs : List Char} :
    HasClosing (c :: cs) ↔ (c = '*' ∧ ∃ rest, cs = '/' :: rest) ∨ HasClosing cs := by
  rw [HasClosing, List.infix_cons_iff, List.cons_prefix_cons, eq_comm (a := '*')]
  refine or_congr_left (and_congr_right fun _ => ?_)
  constructor
  · intro ⟨rest, h⟩
    exact ⟨rest, h.symm⟩
  · intro ⟨rest, h⟩
    exact ⟨rest, h.symm⟩

namespace TextCursor

/-- The end of the first line, if there is another one. -/
theorem afterLine_append {text : List Char} (ht : '\n' ∉ text) (rest : List Char) (line : Line) :
    afterLine (text ++ '\n' :: rest) line = ⟨rest, line + 1⟩ := by
  induction text with
  | nil => simp [afterLine]
  | cons c text ih =>
    rw [List.mem_cons, not_or] at ht
    rw [List.cons_append, afterLine, if_neg (Ne.symm ht.1), ih ht.2]

theorem afterLine_of_not_mem {text : List Char} (ht : '\n' ∉ text) (line : Line) :
    afterLine text line = ⟨[], line⟩ := by
  induction text with
  | nil => rfl
  | cons c text ih =>
    rw [List.mem_cons, not_or] at ht
    rw [afterLine, if_neg (Ne.symm ht.1), ih ht.2]

/-- In front of a character that does not close the comment with the next one. -/
theorem afterComment?_cons {c : Char} {cs : List Char} (h : ¬ (c = '*' ∧ ∃ rest, cs = '/' :: rest))
    (line : Line) : afterComment? (c :: cs) line = afterComment? cs (lineAfter c line) := by
  rw [afterComment?]
  intro cs' hc hcs
  exact h ⟨hc, cs', hcs⟩

theorem afterComment?_append {text : List Char} (ht : ¬ HasClosing (text ++ ['*']))
    (rest : List Char) (line : Line) :
    afterComment? (text ++ '*' :: '/' :: rest) line = some ⟨rest, line + newlines text⟩ := by
  induction text generalizing line with
  | nil => rfl
  | cons c text ih =>
    rw [List.cons_append, hasClosing_cons, not_or] at ht
    -- a star at the end of `text` would be followed by the star of the closing mark
    have hopen : ¬ (c = '*' ∧ ∃ ds, text ++ '*' :: '/' :: rest = '/' :: ds) := by
      intro ⟨hc, ds, hds⟩
      cases text with
      | nil => cases hds
      | cons d text =>
        cases hds
        exact ht.1 ⟨hc, _, rfl⟩
    rw [List.cons_append, afterComment?_cons hopen, ih ht.2, lineAfter_eq,
      newlines_cons c text, Nat.add_assoc]

theorem afterComment?_of_not_hasClosing {text : List Char} (ht : ¬ HasClosing text) (line : Line) :
    afterComment? text line = none := by
  induction text generalizing line with
  | nil => rfl
  | cons c text ih =>
    rw [hasClosing_cons, not_or] at ht
    rw [afterComment?_cons ht.1, ih ht.2]

theorem skipGap_blank {c : Char} (hc : isBlank c = true) (cs : List Char) (line : Line) :
    skipGap ⟨c :: cs, line⟩ = skipGap ⟨cs, lineAfter c line⟩ := by
  have hne : c ≠ '/' := by
    intro h
    subst h
    exact absurd hc (by decide)
  rw [skipGap]
  split
  · simp_all
  · simp_all
  · simp_all
  · simp_all

theorem skipGap_lineComment (cs : List Char) (line : Line) :
    skipGap ⟨'/' :: '/' :: cs, line⟩ = skipGap (afterLine cs line) := by
  rw [skipGap]
  rfl

theorem skipGap_blockComment (cs : List Char) (line : Line) :
    skipGap ⟨'/' :: '*' :: cs, line⟩ =
      match afterComment? cs line with
      | some c => skipGap c
      | none => .error ⟨line, .unterminatedComment⟩ := by
  rw [skipGap]
  split
  next h => cases h
  next h =>
    cases h
    dsimp only
    split
    next h => rw [h]
    next h => rw [h]
  next _ hopen h =>
    cases h
    exact (hopen cs rfl rfl).elim
  next h => cases h

theorem skipGap_of_not_startsGap {cs : List Char} (h : ¬ StartsGap cs) (line : Line) :
    skipGap ⟨cs, line⟩ = .ok ⟨cs, line⟩ := by
  rw [skipGap]
  split
  · simp_all [StartsGap]
  · simp_all [StartsGap]
  · simp_all [StartsGap]
  · rfl

theorem skipGap_filler {g : List Char} (hg : Filler g) (rest : List Char) (line : Line) :
    skipGap ⟨g ++ rest, line⟩ = skipGap ⟨rest, line + newlines g⟩ := by
  induction hg generalizing line with
  | nil => rfl
  | @blank c g hc _ ih =>
    rw [List.cons_append, skipGap_blank hc, ih, lineAfter_eq, newlines_cons c g, Nat.add_assoc]
  | @lineComment text g ht _ ih =>
    have hlines : newlines ('/' :: '/' :: (text ++ '\n' :: g)) = 1 + newlines g := by
      have htext : text.count '\n' = 0 := newlines_eq_zero ht
      simp only [newlines, List.count_cons, List.count_append, htext]
      simp
      omega
    simp only [List.cons_append, List.append_assoc]
    rw [skipGap_lineComment, afterLine_append ht, ih, hlines, Nat.add_assoc]
  | @blockComment text g ht _ ih =>
    have hlines : newlines ('/' :: '*' :: (text ++ '*' :: '/' :: g)) = newlines text + newlines g := by
      simp [newlines]
    simp only [List.cons_append, List.append_assoc]
    rw [skipGap_blockComment, afterComment?_append ht, hlines, ← Nat.add_assoc]
    exact ih _

theorem skipGap_of_gap {rest g : List Char} (hg : Gap rest g) (hr : ¬ StartsGap rest) (line : Line) :
    skipGap ⟨g ++ rest, line⟩ = .ok ⟨rest, line + newlines g⟩ := by
  cases hg with
  | filler hg => rw [skipGap_filler hg, skipGap_of_not_startsGap hr]
  | @lastLine g text hrest hg ht =>
    subst hrest
    have hlines : newlines (g ++ '/' :: '/' :: text) = newlines g := by
      have hlast : newlines ('/' :: '/' :: text) = 0 := newlines_eq_zero (by simp [ht])
      rw [newlines_append, hlast, Nat.add_zero]
    rw [List.append_nil, hlines, skipGap_filler hg, skipGap_lineComment, afterLine_of_not_mem ht,
      skipGap_of_not_startsGap hr]

theorem skipGap_of_unclosed {rest g : List Char} (hg : Gap rest g) (hr : Unclosed rest) (line : Line) :
    skipGap ⟨g ++ rest, line⟩ = .error ⟨line + newlines g, .unterminatedComment⟩ := by
  obtain ⟨text, rfl, ht⟩ := hr
  cases hg with
  | filler hg => rw [skipGap_filler hg, skipGap_blockComment, afterComment?_of_not_hasClosing ht]
  | lastLine hrest => cases hrest

end TextCursor

/-- The text of a block comment up to the first mark that closes it. -/
theorem exists_first_closing {cs : List Char} (h : HasClosing cs) :
    ∃ text rest, cs = text ++ '*' :: '/' :: rest ∧ ¬ HasClosing (text ++ ['*']) := by
  induction cs with
  | nil => exact absurd (List.infix_nil.1 h) (by simp)
  | cons c cs ih =>
    by_cases hc : c = '*' ∧ ∃ rest, cs = '/' :: rest
    · obtain ⟨rfl, rest, rfl⟩ := hc
      exact ⟨[], rest, rfl, by simp [HasClosing, List.infix_cons_iff]⟩
    · obtain ⟨text, rest, rfl, ht⟩ := ih ((hasClosing_cons.1 h).resolve_left hc)
      refine ⟨c :: text, rest, rfl, ?_⟩
      rw [List.cons_append, hasClosing_cons, not_or]
      refine ⟨fun ⟨hstar, ds, hds⟩ => hc ⟨hstar, ?_⟩, ht⟩
      cases text with
      | nil => cases hds
      | cons d text =>
        cases hds
        exact ⟨_, rfl⟩

/-- In front of a text stands a gap that no further blank or closed comment follows. -/
theorem exists_gap (cs : List Char) :
    ∃ g rest, cs = g ++ rest ∧ Gap rest g ∧ (¬ StartsGap rest ∨ Unclosed rest) := by
  by_cases hs : StartsGap cs
  · rcases hs with ⟨c, cs, rfl, hc⟩ | ⟨cs, rfl⟩ | ⟨cs, rfl⟩
    · obtain ⟨g, rest, rfl, hg, hr⟩ := exists_gap cs
      exact ⟨c :: g, rest, rfl, Gap.append (.blank hc .nil) hg, hr⟩
    · by_cases hn : '\n' ∈ cs
      · obtain ⟨text, cs, rfl, ht⟩ := List.eq_append_cons_of_mem hn
        obtain ⟨g, rest, rfl, hg, hr⟩ := exists_gap cs
        refine ⟨'/' :: '/' :: (text ++ ['\n']) ++ g, rest, by simp, ?_, hr⟩
        exact Gap.append (.lineComment ht .nil) hg
      · exact ⟨'/' :: '/' :: cs, [], by simp, .lastLine rfl .nil hn,
          .inl (by simp [StartsGap])⟩
    · by_cases hn : HasClosing cs
      · obtain ⟨text, cs, rfl, ht⟩ := exists_first_closing hn
        obtain ⟨g, rest, rfl, hg, hr⟩ := exists_gap cs
        refine ⟨'/' :: '*' :: (text ++ ['*', '/']) ++ g, rest, by simp, ?_, hr⟩
        exact Gap.append (.blockComment ht .nil) hg
      · exact ⟨[], _, rfl, .filler .nil, .inr ⟨cs, rfl, hn⟩⟩
  · exact ⟨[], cs, rfl, .filler .nil, .inl hs⟩
termination_by cs.length
decreasing_by all_goals subst_vars; simp; try omega

end ProcMips
