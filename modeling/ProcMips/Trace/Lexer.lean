import ProcMips.Text.Quoted
import ProcMips.Token.Lexer
import ProcMips.Trace.Selection

/-!
The trace of the lexer: the steps it takes over a text, each with the place where it is taken. A
symbol that cannot be read is looked for once more if a gap was skipped before it.
-/

namespace ProcMips

inductive LexStep where
  | whitespace
  | lineComment
  | blockComment
  | integer
  | identifier
  | keyword
  | operator
deriving Repr, DecidableEq

/-- The function that takes a step, by the modules around it and its name. -/
def LexStep.function (s : LexStep) : List String :=
  ["blaise_lang", "compiler", "lexer", "lexer", "Lexer", match s with
    | whitespace => "consume_whitespace"
    | lineComment => "consume_line_comment"
    | blockComment => "consume_block_comment"
    | integer => "consume_integer"
    | identifier => "consume_identifier"
    | keyword => "if_keyword_map"
    | operator => "consume_operator"]

/-- A step of the lexer, with its line and the next character. -/
structure LexVisit where
  step : LexStep
  line : Line
  next : Option Char
deriving Repr, DecidableEq

/-- The line of a visit, where functions are shown by `nameOf`. -/
def LexVisit.text (nameOf : List String → String) (v : LexVisit) : String :=
  s!"{nameOf v.step.function} <- L{v.line}:{quotedNext v.next}"

namespace TextCursor

def visit (c : TextCursor) (s : LexStep) : LexVisit := ⟨s, c.line, c.rest.head?⟩

/-- Past the blanks that stand here. -/
def skipBlanks (c : TextCursor) : TextCursor :=
  ⟨c.rest.dropWhile isBlank, c.line + (c.rest.takeWhile isBlank).count '\n'⟩

def skipLineComment (c : TextCursor) : TextCursor :=
  match c.rest with
  | '/' :: '/' :: cs => afterLine cs c.line
  | _ => c

def skipBlockComment? (c : TextCursor) : Option TextCursor :=
  match c.rest with
  | '/' :: '*' :: cs => afterComment? cs c.line
  | _ => some c

/-- Past one kind of gap after the other, unless a comment is never closed. -/
def sweep? (c : TextCursor) : Option TextCursor :=
  c.skipBlanks.skipLineComment.skipBlockComment?

def sweepVisits (c : TextCursor) : List LexVisit :=
  [c.visit .whitespace, c.skipBlanks.visit .lineComment,
    c.skipBlanks.skipLineComment.visit .blockComment]

/-- Whether a gap starts here. -/
def atGap (c : TextCursor) : Bool :=
  match c.rest with
  | '/' :: '/' :: _ | '/' :: '*' :: _ => true
  | ch :: _ => isBlank ch
  | [] => false

theorem length_skipBlanks_le (c : TextCursor) : c.skipBlanks.rest.length ≤ c.rest.length :=
  length_dropWhile_le isBlank c.rest

theorem length_skipLineComment_le (c : TextCursor) :
    c.skipLineComment.rest.length ≤ c.rest.length := by
  unfold skipLineComment
  split
  · rename_i cs hc
    have := length_afterLine_le cs c.line
    simp only [hc, List.length_cons]; omega
  · exact Nat.le_refl _

theorem length_skipBlockComment?_le {c c' : TextCursor} (h : c.skipBlockComment? = some c') :
    c'.rest.length ≤ c.rest.length := by
  unfold skipBlockComment? at h
  split at h
  · rename_i cs hc
    have := length_afterComment?_lt h
    simp only [hc, List.length_cons]; omega
  · cases h; exact Nat.le_refl _

/-- A sweep at a gap skips something. -/
theorem length_sweep?_lt {c c' : TextCursor} (hg : c.atGap = true) (h : c.sweep? = some c') :
    c'.rest.length < c.rest.length := by
  have h1 := length_skipBlanks_le c
  have h2 := length_skipLineComment_le c.skipBlanks
  have h3 := length_skipBlockComment?_le h
  unfold atGap at hg
  split at hg
  · rename_i cs hc
    have hb : c.skipBlanks.rest = '/' :: '/' :: cs := by simp [skipBlanks, hc, isBlank]
    have := length_afterLine_le cs c.skipBlanks.line
    have hl : c.skipBlanks.skipLineComment = afterLine cs c.skipBlanks.line := by
      simp [skipLineComment, hb]
    rw [hl] at h3
    simp only [hc, List.length_cons]; omega
  · rename_i cs hc
    have hb : c.skipBlanks.rest = '/' :: '*' :: cs := by simp [skipBlanks, hc, isBlank]
    have hl : c.skipBlanks.skipLineComment = c.skipBlanks := by simp [skipLineComment, hb]
    have hs : afterComment? cs c.skipBlanks.line = some c' := by
      have := h; simp only [sweep?, hl, skipBlockComment?, hb] at this; exact this
    have := length_afterComment?_lt hs
    simp only [hc, List.length_cons]; omega
  · rename_i ch cs _ _ hc
    have : c.skipBlanks.rest.length ≤ cs.length := by
      simp only [skipBlanks, hc, List.dropWhile_cons_of_pos hg]
      exact length_dropWhile_le _ _
    simp only [hc, List.length_cons]; omega
  · cases hg

/-- Sweeps are made until one skips nothing. -/
def gapVisits (c : TextCursor) : List LexVisit :=
  c.sweepVisits ++
    if _hg : c.atGap then
      match _h : c.sweep? with
      | some c' => c'.gapVisits
      | none => []
    else []
termination_by c.rest.length
decreasing_by exact length_sweep?_lt ‹_› ‹_›

/-- The attempts at a number, a word and a symbol, up to the one that succeeds. -/
def lexemeVisits (c : TextCursor) : List LexVisit :=
  c.visit .integer :: match c.rest with
    | [] => []
    | ch :: _ =>
      if ch.isDigit then []
      else if isWordStart ch then
        let after : TextCursor := ⟨c.rest.dropWhile isWordChar, c.line⟩
        [c.visit .identifier, after.visit .keyword]
      else [c.visit .identifier, c.visit .operator]

/-- The steps of one `next`. -/
def nextVisits (c : TextCursor) : List LexVisit :=
  c.gapVisits ++ match c.skipGap with
    | .error _ => []
    | .ok c' =>
      if c'.rest = [] then []
      else
        let again := match c'.lexeme? with
          | .ok none => if c.atGap then c'.gapVisits ++ c'.lexemeVisits else []
          | _ => []
        c'.lexemeVisits ++ again

def visits (c : TextCursor) : List LexVisit :=
  if c.rest = [] then []
  else c.nextVisits ++ match _h : c.next with
    | .token _ c' => c'.visits
    | _ => []
termination_by c.rest.length
decreasing_by exact TextCursor.length_next_lt ‹_›

end TextCursor

/-- The lines that the lexer prints while it reads `text`. -/
def lexTrace (nameOf : List String → String) (sel : Selection) (text : String) : List String :=
  ((TextCursor.start text).visits.filter fun v => sel.includes v.line).map (LexVisit.text nameOf)

end ProcMips
