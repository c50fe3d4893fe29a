import ProcMips.Parse.Error

/-!
Parsers over a list of tokens. A parser leaves a cursor behind whether it succeeds or fails, and the
cursor keeps a record of the grammar rules that were entered and the declarations that were read.
-/

namespace ProcMips

/-- The rules of the grammar that a trace names. -/
inductive Rule where
  | varDecl
  | arraySize
  | procedureDef
  | parameterList
  | statement
  | idInstruction
  | lvalueSuffix
  | ifInstruction
  | whileInstruction
  | outputInstruction
  | inputInstruction
  | block
  | returnInstruction
  | declaration
  | expression
  | factor
  | identifierOrCall
  | argumentList
deriving Repr, DecidableEq

/-- What happened on the way through the tokens. -/
inductive ParseNote where
  | entered (rule : Rule) (next : Token)
  | parsedGlobal (name : String)
  | parsedProcedure (name : String)
deriving Repr, DecidableEq

/-- A place in a list of tokens. `lastLine` is the line of the last token of the whole list, and
`notes` has the latest note first. -/
structure TokenCursor where
  rest : List Token
  lastLine : Line
  notes : List ParseNote
deriving Repr, DecidableEq

namespace TokenCursor

def start (ts : List Token) : TokenCursor :=
  ⟨ts, (ts.getLast?.map Token.line).getD 1, []⟩

/-- The line of the next token, or of the last token at the end. -/
def line (c : TokenCursor) : Line :=
  match c.rest with
  | t :: _ => t.line
  | [] => c.lastLine

def next? (c : TokenCursor) : Option Lexeme := c.rest.head?.map Token.lexeme

def note (c : TokenCursor) (n : ParseNote) : TokenCursor := { c with notes := n :: c.notes }

end TokenCursor

abbrev Parser := EStateM (Located ParseError) TokenCursor

namespace Parser

/-- Fails at the next token. -/
def fail {α : Type} (e : ParseError) : Parser α := fun c => .error ⟨c.line, e⟩ c

def next? : Parser (Option Lexeme) := fun c => .ok c.next? c

def line : Parser Line := fun c => .ok c.line c

def note (n : ParseNote) : Parser Unit := fun c => .ok () (c.note n)

/-- Records that a rule is entered, if there is a token left. -/
def enter (r : Rule) : Parser Unit := fun c =>
  match c.rest with
  | t :: _ => .ok () (c.note (.entered r t))
  | [] => .ok () c

/-- Moves past the next token. -/
def advance : Parser Unit := fun c => .ok () { c with rest := c.rest.tail }

/-- Moves past the next token if it is of class `k`, and gives its line. -/
def accept (k : TokenClass) : Parser (Option Line) := fun c =>
  match c.rest with
  | t :: ts =>
    if t.lexeme.tokenClass = k then .ok (some t.line) { c with rest := ts } else .ok none c
  | [] => .ok none c

/-- Moves past a token of class `k`, which must come next, and gives its line. -/
def expect (k : TokenClass) : Parser Line := fun c =>
  match c.rest with
  | t :: ts =>
    if t.lexeme.tokenClass = k then .ok t.line { c with rest := ts }
    else .error ⟨t.line, .expected [k] (some t.lexeme)⟩ c
  | [] => .error ⟨c.lastLine, .expected [k] none⟩ c

/-- An identifier, with its line. -/
def identifier : Parser (Line × String) := fun c =>
  match c.rest with
  | ⟨l, .name x⟩ :: ts => .ok (l, x) { c with rest := ts }
  | _ => .error ⟨c.line, .expected [.identifier] c.next?⟩ c

/-- Whether a token of class `k` comes next. -/
def sees (k : TokenClass) : Parser Bool := fun c => .ok (c.next?.map Lexeme.tokenClass == some k) c

/-- Gives `p` a bound on the tokens that are left. -/
def bounded {α : Type} (p : Nat → Parser α) : Parser α := fun c => p (c.rest.length + 1) c

/-- Items until there is none, at most `n`. -/
def many {α : Type} (item : Parser (Option α)) : Nat → Parser (List α)
  | 0 => return []
  | n + 1 => do
    match ← item with
    | none => return []
    | some a => return a :: (← many item n)

/-- Items with commas between them, at least one. -/
def commaList {α : Type} (item : Parser α) : Nat → Parser (List α)
  | 0 => return []
  | n + 1 => do
    let a ← item
    match ← accept (.symbol .comma) with
    | none => return [a]
    | some _ => return a :: (← commaList item n)

end Parser

end ProcMips
