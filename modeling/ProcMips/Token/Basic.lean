import ProcMips.Diagnostic

/-!
Tokens: keywords and symbols with their spellings, lexemes, and the class of a lexeme, which forgets
the value that it carries.
-/

namespace ProcMips

inductive Keyword where
  | var
  | int
  | bool
  | void
  | procedure
  | if_
  | else_
  | endif
  | while_
  | output
  | input
  | return_
  | true_
  | false_
  | not
  | and
  | or
deriving Repr, DecidableEq

namespace Keyword

def all : List Keyword :=
  [var, int, bool, void, procedure, if_, else_, endif, while_, output, input, return_, true_,
    false_, not, and, or]

def text : Keyword → String
  | var => "var"
  | int => "int"
  | bool => "bool"
  | void => "void"
  | procedure => "procedure"
  | if_ => "if"
  | else_ => "else"
  | endif => "endif"
  | while_ => "while"
  | output => "output"
  | input => "input"
  | return_ => "return"
  | true_ => "true"
  | false_ => "false"
  | not => "not"
  | and => "and"
  | or => "or"

def ofText? (s : String) : Option Keyword := all.find? (·.text == s)

theorem mem_all (k : Keyword) : k ∈ all := by cases k <;> decide

theorem ofText?_text (k : Keyword) : ofText? k.text = some k := by cases k <;> decide

end Keyword

inductive Symbol where
  | plus
  | minus
  | star
  | slash
  | percent
  | less
  | lessEqual
  | greater
  | greaterEqual
  | equal
  | assign
  | leftParen
  | rightParen
  | leftBrace
  | rightBrace
  | leftBracket
  | rightBracket
  | semicolon
  | comma
deriving Repr, DecidableEq

namespace Symbol

def text : Symbol → String
  | plus => "+"
  | minus => "-"
  | star => "*"
  | slash => "/"
  | percent => "%"
  | less => "<"
  | lessEqual => "<="
  | greater => ">"
  | greaterEqual => ">="
  | equal => "="
  | assign => ":="
  | leftParen => "("
  | rightParen => ")"
  | leftBrace => "\x7b"
  | rightBrace => "\x7d"
  | leftBracket => "["
  | rightBracket => "]"
  | semicolon => ";"
  | comma => ","

/-- The longest symbol that a text starts with, and what follows it. -/
def split? : List Char → Option (Symbol × List Char)
  | ':' :: '=' :: cs => some (assign, cs)
  | '>' :: '=' :: cs => some (greaterEqual, cs)
  | '<' :: '=' :: cs => some (lessEqual, cs)
  | '+' :: cs => some (plus, cs)
  | '-' :: cs => some (minus, cs)
  | '*' :: cs => some (star, cs)
  | '/' :: cs => some (slash, cs)
  | '%' :: cs => some (percent, cs)
  | '<' :: cs => some (less, cs)
  | '>' :: cs => some (greater, cs)
  | '=' :: cs => some (equal, cs)
  | '(' :: cs => some (leftParen, cs)
  | ')' :: cs => some (rightParen, cs)
  | '{' :: cs => some (leftBrace, cs)
  | '}' :: cs => some (rightBrace, cs)
  | '[' :: cs => some (leftBracket, cs)
  | ']' :: cs => some (rightBracket, cs)
  | ';' :: cs => some (semicolon, cs)
  | ',' :: cs => some (comma, cs)
  | _ => none

theorem eq_append_of_split? {cs rest : List Char} {s : Symbol} (h : split? cs = some (s, rest)) :
    cs = s.text.toList ++ rest := by
  unfold split? at h
  split at h <;> simp at h <;> obtain ⟨rfl, rfl⟩ := h <;> rfl

end Symbol

/-- What a token is, apart from where it stands. -/
inductive Lexeme where
  | literal (value : Int)
  | name (text : String)
  | keyword (k : Keyword)
  | symbol (s : Symbol)
deriving Repr, DecidableEq

/-- The kind of a lexeme, without the value it carries. -/
inductive TokenClass where
  | integer
  | identifier
  | keyword (k : Keyword)
  | symbol (s : Symbol)
deriving Repr, DecidableEq

def TokenClass.text : TokenClass → String
  | integer => "integer"
  | identifier => "identifier"
  | keyword k => k.text
  | symbol s => s.text

namespace Lexeme

def tokenClass : Lexeme → TokenClass
  | literal _ => .integer
  | name _ => .identifier
  | keyword k => .keyword k
  | symbol s => .symbol s

def text : Lexeme → String
  | literal n => s!"literal {n}"
  | name s => "identifier " ++ s
  | keyword k => k.text
  | symbol s => s.text

/-- The text of an identifier. -/
def name? : Lexeme → Option String
  | name s => some s
  | _ => none

end Lexeme

structure Token where
  line : Line
  lexeme : Lexeme
deriving Repr, DecidableEq

namespace Token

def text (t : Token) : String := s!"L{t.line}: " ++ t.lexeme.text

/-- Whether a token is of the same class as a lexeme. -/
def matchesClass (t : Token) (l : Lexeme) : Bool := t.lexeme.tokenClass == l.tokenClass

end Token

end ProcMips
