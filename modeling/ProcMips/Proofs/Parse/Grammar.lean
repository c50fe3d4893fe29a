import Mathlib.Data.List.Basic
import ProcMips.Syntax.Basic
import ProcMips.Token.Basic

/-! The grammar, as derivations of lists of lexemes with the tree that each derivation builds. Nothing
is looked ahead at here, and nothing is said about an order of reading. -/

namespace ProcMips

/-- How an operator is written. -/
def BinOp.lexeme : BinOp → Lexeme
  | add => .symbol .plus
  | sub => .symbol .minus
  | mul => .symbol .star
  | div => .symbol .slash
  | rem => .symbol .percent
  | less => .symbol .less
  | lessEqual => .symbol .lessEqual
  | equal => .symbol .equal
  | greaterEqual => .symbol .greaterEqual
  | greater => .symbol .greater
  | and => .keyword .and
  | or => .keyword .or

namespace Grammar

/-- The lexemes of parts with commas between them. -/
def listed {α : Type} (parts : List (List Lexeme × α)) : List Lexeme :=
  [.symbol .comma].intercalate (parts.map Prod.fst)

theorem listed_cons {α : Type} {ls : List Lexeme} {a : α} {parts : List (List Lexeme × α)}
    (hne : parts ≠ []) : listed ((ls, a) :: parts) = ls ++ .symbol .comma :: listed parts := by
  obtain ⟨p, parts, rfl⟩ := List.exists_cons_of_ne_nil hne
  simp [listed]

/-- The lexemes of parts one behind the other. -/
def joined {α : Type} (parts : List (List Lexeme × α)) : List Lexeme := parts.flatMap Prod.fst

/-- Something in parentheses. -/
def parens (ls : List Lexeme) : List Lexeme := .symbol .leftParen :: (ls ++ [.symbol .rightParen])

/-- Something in brackets. -/
def brackets (ls : List Lexeme) : List Lexeme :=
  .symbol .leftBracket :: (ls ++ [.symbol .rightBracket])

/-- What an expression is derived from. -/
inductive Level where
  | factor
  | expression

/-- Parentheses add no node, and the right operand is all that follows an operator. -/
inductive DerivesExpr : Level → List Lexeme → Expr → Prop
  | true_ : DerivesExpr .factor [.keyword .true_] (.bool 0 true)
  | false_ : DerivesExpr .factor [.keyword .false_] (.bool 0 false)
  | literal (n : Int) : DerivesExpr .factor [.literal n] (.int 0 n)
  | parens {ls : List Lexeme} {e : Expr} (h : DerivesExpr .expression ls e) :
    DerivesExpr .factor (parens ls) e
  | not {ls : List Lexeme} {e : Expr} (h : DerivesExpr .expression ls e) :
    DerivesExpr .factor (.keyword .not :: parens ls) (.not 0 e)
  | call (f : String) {args : List (List Lexeme × Expr)}
    (h : ∀ a ∈ args, DerivesExpr .expression a.1 a.2) :
    DerivesExpr .factor (.name f :: parens (listed args)) (.call 0 f (args.map Prod.snd))
  | element (x : String) {ls : List Lexeme} {index : Expr} (h : DerivesExpr .expression ls index) :
    DerivesExpr .factor (.name x :: brackets ls) (.element 0 x index)
  | scalar (x : String) : DerivesExpr .factor [.name x] (.scalar 0 x)
  | single {ls : List Lexeme} {e : Expr} (h : DerivesExpr .factor ls e) :
    DerivesExpr .expression ls e
  | operation (op : BinOp) {ls rs : List Lexeme} {left right : Expr}
    (hl : DerivesExpr .factor ls left) (hr : DerivesExpr .expression rs right) :
    DerivesExpr .expression (ls ++ op.lexeme :: rs) (.binary 0 op left right)

inductive DerivesTarget : List Lexeme → Target → Prop
  | scalar (x : String) : DerivesTarget [.name x] (.scalar x)
  | element (x : String) {ls : List Lexeme} {index : Expr} (h : DerivesExpr .expression ls index) :
    DerivesTarget (.name x :: brackets ls) (.element x index)

/-- An optional array size, which is positive. -/
inductive DerivesShape : List Lexeme → Shape → Prop
  | single : DerivesShape [] .single
  | array (n : Nat) (h : 0 < n) : DerivesShape (brackets [.literal n]) (.array n)

inductive DerivesStmt : List Lexeme → Stmt → Prop
  | call (f : String) {args : List (List Lexeme × Expr)}
    (h : ∀ a ∈ args, DerivesExpr .expression a.1 a.2) :
    DerivesStmt (.name f :: parens (listed args) ++ [.symbol .semicolon])
      (.call 0 f (args.map Prod.snd))
  | assign {ts vs : List Lexeme} {target : Target} {value : Expr} (ht : DerivesTarget ts target)
    (hv : DerivesExpr .expression vs value) :
    DerivesStmt (ts ++ .symbol .assign :: vs ++ [.symbol .semicolon]) (.assign 0 target value)
  | ifThen {cs ys : List Lexeme} {cond : Expr} {yes : Stmt} (hc : DerivesExpr .expression cs cond)
    (hy : DerivesStmt ys yes) :
    DerivesStmt (.keyword .if_ :: parens cs ++ ys ++ [.keyword .endif]) (.ifThen 0 cond yes)
  | ifElse {cs ys ns : List Lexeme} {cond : Expr} {yes no : Stmt}
    (hc : DerivesExpr .expression cs cond) (hy : DerivesStmt ys yes) (hn : DerivesStmt ns no) :
    DerivesStmt (.keyword .if_ :: parens cs ++ ys ++ .keyword .else_ :: ns ++ [.keyword .endif])
      (.ifElse 0 cond yes no)
  | loop {cs bs : List Lexeme} {cond : Expr} {body : Stmt} (hc : DerivesExpr .expression cs cond)
    (hb : DerivesStmt bs body) :
    DerivesStmt (.keyword .while_ :: parens cs ++ bs) (.loop 0 cond body)
  | output {vs : List Lexeme} {value : Expr} (hv : DerivesExpr .expression vs value) :
    DerivesStmt (.keyword .output :: parens vs ++ [.symbol .semicolon]) (.output 0 value)
  | input {ts : List Lexeme} {target : Target} (ht : DerivesTarget ts target) :
    DerivesStmt (.keyword .input :: parens ts ++ [.symbol .semicolon]) (.input 0 target)
  | block {body : List (List Lexeme × Stmt)} (h : ∀ s ∈ body, DerivesStmt s.1 s.2) :
    DerivesStmt (.symbol .leftBrace :: joined body ++ [.symbol .rightBrace])
      (.block 0 (body.map Prod.snd))
  | ret {vs : List Lexeme} {value : Expr} (hv : DerivesExpr .expression vs value) :
    DerivesStmt (.keyword .return_ :: vs ++ [.symbol .semicolon]) (.ret 0 value)
  | declare (x : String) {ss : List Lexeme} {shape : Shape} (hs : DerivesShape ss shape) :
    DerivesStmt (.keyword .int :: .name x :: ss ++ [.symbol .semicolon]) (.declare 0 x shape)

inductive DerivesGlobal : List Lexeme → Global → Prop
  | mk (x : String) {ss : List Lexeme} {shape : Shape} (hs : DerivesShape ss shape) :
    DerivesGlobal (.keyword .var :: .keyword .int :: .name x :: ss ++ [.symbol .semicolon])
      ⟨0, x, shape⟩

/-- The lexemes of a parameter, with its tree. -/
def paramPart (x : String) : List Lexeme × Param := ([.keyword .int, .name x], ⟨0, x⟩)

inductive DerivesProcedure : List Lexeme → Procedure → Prop
  | mk (f : String) (params : List String) {bs : List Lexeme} {body : Stmt}
    (hb : DerivesStmt bs body) :
    DerivesProcedure (.keyword .procedure :: .keyword .int :: .name f ::
      parens (listed (params.map paramPart)) ++ bs) ⟨0, f, params.map fun x => ⟨0, x⟩, body⟩

/-- Any number of globals, then at least one procedure. -/
inductive DerivesProgram : List Lexeme → Program → Prop
  | mk {globals : List (List Lexeme × Global)} {procedures : List (List Lexeme × Procedure)}
    (hg : ∀ g ∈ globals, DerivesGlobal g.1 g.2) (hp : ∀ p ∈ procedures, DerivesProcedure p.1 p.2)
    (hne : procedures ≠ []) :
    DerivesProgram (joined globals ++ joined procedures)
      ⟨globals.map Prod.snd, procedures.map Prod.snd⟩

end Grammar

end ProcMips
