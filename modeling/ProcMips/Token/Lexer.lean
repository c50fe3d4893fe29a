import ProcMips.Text.Blank
import ProcMips.Token.Basic
import ProcMips.Word

/-!
Reading tokens from a text. A gap is a run of blanks, line comments and block comments; after a gap
stands the longest word, number or symbol. Each token leaves a shorter text.
-/

namespace ProcMips

/-- Why a text has no further token. -/
inductive LexError where
  | locked (next : Option Char)
  | invalidInteger (text : String)
  | unterminatedComment
deriving Repr, DecidableEq

def LexError.message : LexError → String
  | locked none => "Lexer locked on EOF"
  | locked (some c) => "Lexer locked on " ++ c.toString
  | invalidInteger text => "Invalid integer: " ++ text
  | unterminatedComment => "Block comment is never closed"

/-- A place in a text: what is still to be read, and its line. -/
structure TextCursor where
  rest : List Char
  line : Line
deriving Repr, DecidableEq

namespace TextCursor

def start (text : String) : TextCursor := ⟨text.toList, 1⟩

/-- The line behind a character. -/
def lineAfter (c : Char) (line : Line) : Line := if c = '\n' then line + 1 else line

/-- Past the end of the line, and the newline there. -/
def afterLine : List Char → Line → TextCursor
  | [], line => ⟨[], line⟩
  | c :: cs, line => if c = '\n' then ⟨cs, line + 1⟩ else afterLine cs line

/-- Past the first closing mark of a block comment. -/
def afterComment? : List Char → Line → Option TextCursor
  | '*' :: '/' :: cs, line => some ⟨cs, line⟩
  | c :: cs, line => afterComment? cs (lineAfter c line)
  | [], _ => none

theorem length_afterLine_le (cs : List Char) (line : Line) :
    (afterLine cs line).rest.length ≤ cs.length := by
  fun_induction afterLine cs line with
  | case1 => exact Nat.le_refl _
  | case2 => simp
  | case3 _ _ _ _ ih => exact Nat.le_succ_of_le ih

theorem length_afterComment?_lt {cs : List Char} {line : Line} {c : TextCursor}
    (h : afterComment? cs line = some c) : c.rest.length < cs.length := by
  fun_induction afterComment? cs line with
  | case1 => cases h; simp only [List.length_cons]; omega
  | case2 _ _ _ _ ih => exact Nat.lt_succ_of_lt (ih h)
  | case3 => cases h

/-- Past the blanks and comments that stand here. -/
def skipGap (c : TextCursor) : Except (Located LexError) TextCursor :=
  match _hc : c.rest with
  | '/' :: '/' :: cs => (afterLine cs c.line).skipGap
  | '/' :: '*' :: cs =>
    match _ha : afterComment? cs c.line with
    | some c' => c'.skipGap
    | none => .error ⟨c.line, .unterminatedComment⟩
  | ch :: cs =>
    if isBlank ch then skipGap ⟨cs, lineAfter ch c.line⟩ else .ok c
  | [] => .ok c
termination_by c.rest.length
decreasing_by
  · have := length_afterLine_le cs c.line
    simp only [*, List.length_cons]; omega
  · have := length_afterComment?_lt ‹_›
    simp only [*, List.length_cons]; omega
  · simp only [*, List.length_cons]; omega

end TextCursor

def isWordStart (c : Char) : Bool := c.isAlpha || c == '_'

def isWordChar (c : Char) : Bool := c.isAlphanum || c == '_'

namespace Lexeme

/-- A word is a keyword if it is spelled like one. -/
def ofWord (word : List Char) : Lexeme :=
  let text := String.ofList word
  match Keyword.ofText? text with
  | some k => keyword k
  | none => name text

/-- A number is a word of digits alone, whose value is a 32-bit integer. -/
def ofNumber (word : List Char) : Except LexError Lexeme :=
  let value : Int := Nat.ofDigitChars 10 word 0
  if word.all Char.isDigit ∧ value ≤ Word.greatest then .ok (literal value)
  else .error (.invalidInteger (String.ofList word))

end Lexeme

namespace TextCursor

/-- The lexeme that stands here, and the text after it. -/
def lexeme? (c : TextCursor) : Except LexError (Option (Lexeme × List Char)) :=
  match c.rest with
  | [] => .ok none
  | ch :: _ =>
    let word := c.rest.takeWhile isWordChar
    let rest := c.rest.dropWhile isWordChar
    if ch.isDigit then (Lexeme.ofNumber word).map fun l => some (l, rest)
    else if isWordStart ch then .ok (some (Lexeme.ofWord word, rest))
    else .ok ((Symbol.split? c.rest).map fun (s, rest) => (.symbol s, rest))

/-- What stands after the gap. -/
inductive Next where
  | done
  | token (t : Token) (after : TextCursor)
  | failed (e : Located LexError)
deriving Repr, DecidableEq

def next (c : TextCursor) : Next :=
  match c.skipGap with
  | .error e => .failed e
  | .ok c =>
    match c.lexeme? with
    | .error e => .failed ⟨c.line, e⟩
    | .ok (some (l, rest)) => .token ⟨c.line, l⟩ ⟨rest, c.line⟩
    | .ok none =>
      match c.rest with
      | [] => .done
      | ch :: _ => .failed ⟨c.line, .locked (some ch)⟩

theorem length_dropWhile_le (p : Char → Bool) (cs : List Char) :
    (cs.dropWhile p).length ≤ cs.length :=
  (List.dropWhile_suffix p).length_le

theorem length_skipGap_le {c c' : TextCursor} (h : c.skipGap = .ok c') :
    c'.rest.length ≤ c.rest.length := by
  fun_induction skipGap c with
  | case1 c cs hc ih =>
    have := length_afterLine_le cs c.line
    have := ih h
    simp only [hc, List.length_cons]; omega
  | case2 c cs hc d hd ih =>
    have := length_afterComment?_lt hd
    have := ih h
    simp only [hc, List.length_cons]; omega
  | case3 => cases h
  | case4 c ch cs _ _ hc _ ih =>
    have : c'.rest.length ≤ cs.length := ih h
    simp only [hc, List.length_cons]; omega
  | case5 => cases h; exact Nat.le_refl _
  | case6 => cases h; exact Nat.le_refl _

theorem length_split?_lt {cs rest : List Char} {s : Symbol}
    (h : Symbol.split? cs = some (s, rest)) : rest.length < cs.length := by
  rw [Symbol.eq_append_of_split? h, List.length_append]
  have : 0 < s.text.toList.length := by cases s <;> decide
  omega

theorem length_lexeme?_lt {c : TextCursor} {l : Lexeme} {rest : List Char}
    (h : c.lexeme? = .ok (some (l, rest))) : rest.length < c.rest.length := by
  unfold lexeme? at h
  split at h
  · cases h
  · rename_i ch cs hr
    have hword (hc : isWordChar ch = true) :
        (c.rest.dropWhile isWordChar).length < c.rest.length := by
      rw [hr, List.dropWhile_cons_of_pos hc]
      exact Nat.lt_succ_of_le (length_dropWhile_le _ _)
    simp only at h
    split at h
    · rename_i hd
      cases hn : Lexeme.ofNumber (c.rest.takeWhile isWordChar) with
      | error e => rw [hn] at h; cases h
      | ok l' =>
        rw [hn] at h; cases h
        exact hword (by simp [isWordChar, Char.isAlphanum, hd])
    · split at h
      · rename_i hs
        cases h
        refine hword ?_
        simp only [isWordStart, Bool.or_eq_true] at hs
        rcases hs with hs | hs <;> simp [isWordChar, Char.isAlphanum, hs]
      · cases hs : Symbol.split? c.rest with
        | none => rw [hs] at h; cases h
        | some p =>
          rw [hs] at h; cases h
          exact length_split?_lt hs

theorem length_next_lt {c c' : TextCursor} {t : Token} (h : c.next = .token t c') :
    c'.rest.length < c.rest.length := by
  unfold next at h
  split at h
  · cases h
  · rename_i d hd
    split at h
    · cases h
    · rename_i l rest hl
      cases h
      exact Nat.lt_of_lt_of_le (length_lexeme?_lt hl) (length_skipGap_le hd)
    · split at h <;> cases h

end TextCursor

/-- The tokens of a text up to its end or its first error. -/
structure Lexed where
  tokens : List Token
  error? : Option (Located LexError)
deriving Repr, DecidableEq

namespace Lexed

def toExcept (r : Lexed) : Except (Located LexError) (List Token) :=
  match r.error? with
  | none => .ok r.tokens
  | some e => .error e

end Lexed

/-- Every token from `c` on. -/
def TextCursor.tokens (c : TextCursor) : Lexed :=
  match _h : c.next with
  | .done => ⟨[], none⟩
  | .failed e => ⟨[], some e⟩
  | .token t c' =>
    let r := c'.tokens
    ⟨t :: r.tokens, r.error?⟩
termination_by c.rest.length
decreasing_by exact TextCursor.length_next_lt ‹_›

theorem TextCursor.tokens_eq (c : TextCursor) :
    c.tokens = match c.next with
      | .done => ⟨[], none⟩
      | .failed e => ⟨[], some e⟩
      | .token t c' => ⟨t :: c'.tokens.tokens, c'.tokens.error?⟩ := by
  rw [tokens]
  split <;> rename_i h <;> rw [h]

/-- The tokens of a text. -/
def tokenize (text : String) : Lexed := (TextCursor.start text).tokens

end ProcMips
