import ProcMips.Proofs.Parse.Grammar
import ProcMips.Proofs.Syntax.Unlined

/-! The grammar over tokens, with the lines of the tree. A phrase is a derivation in which each node
carries the line of its own first token, and a binary operation the line of its operator. Without lines
a phrase is a derivation of its lexemes. -/

namespace ProcMips

namespace Grammar

/-- Parts of a list of tokens, with commas between them. -/
inductive Listed : List (List Token) → List Token → Prop
  | nil : Listed [] []
  | single (ts : List Token) : Listed [ts] ts
  | cons {ts us vs : List Token} {parts : List (List Token)} (comma : Line)
    (h : Listed (us :: parts) vs) :
    Listed (ts :: us :: parts) (ts ++ ⟨comma, .symbol .comma⟩ :: vs)

/-- Tokens between parentheses on the lines `o` and `c`. -/
def parensAt (o c : Line) (ts : List Token) : List Token :=
  ⟨o, .symbol .leftParen⟩ :: (ts ++ [⟨c, .symbol .rightParen⟩])

/-- Tokens between brackets on the lines `o` and `c`. -/
def bracketsAt (o c : Line) (ts : List Token) : List Token :=
  ⟨o, .symbol .leftBracket⟩ :: (ts ++ [⟨c, .symbol .rightBracket⟩])

/-- Parentheses are no part of the phrase inside them, and add no node. -/
inductive ExprPhrase : Level → List Token → Expr → Prop
  | true_ (l : Line) : ExprPhrase .factor [⟨l, .keyword .true_⟩] (.bool l true)
  | false_ (l : Line) : ExprPhrase .factor [⟨l, .keyword .false_⟩] (.bool l false)
  | literal (l : Line) (n : Int) : ExprPhrase .factor [⟨l, .literal n⟩] (.int l n)
  | parens (o c : Line) {ts : List Token} {e : Expr} (h : ExprPhrase .expression ts e) :
    ExprPhrase .factor (parensAt o c ts) e
  | not (l o c : Line) {ts : List Token} {e : Expr} (h : ExprPhrase .expression ts e) :
    ExprPhrase .factor (⟨l, .keyword .not⟩ :: parensAt o c ts) (.not l e)
  | call (l o c : Line) (f : String) {args : List (List Token × Expr)} {ts : List Token}
    (hts : Listed (args.map Prod.fst) ts) (h : ∀ a ∈ args, ExprPhrase .expression a.1 a.2) :
    ExprPhrase .factor (⟨l, .name f⟩ :: parensAt o c ts) (.call l f (args.map Prod.snd))
  | element (l o c : Line) (x : String) {ts : List Token} {index : Expr}
    (h : ExprPhrase .expression ts index) :
    ExprPhrase .factor (⟨l, .name x⟩ :: bracketsAt o c ts) (.element l x index)
  | scalar (l : Line) (x : String) : ExprPhrase .factor [⟨l, .name x⟩] (.scalar l x)
  | single {ts : List Token} {e : Expr} (h : ExprPhrase .factor ts e) : ExprPhrase .expression ts e
  | operation (l : Line) (op : BinOp) {ts us : List Token} {left right : Expr}
    (hl : ExprPhrase .factor ts left) (hr : ExprPhrase .expression us right) :
    ExprPhrase .expression (ts ++ ⟨l, op.lexeme⟩ :: us) (.binary l op left right)

/-- A target that starts on the line `l`. -/
inductive TargetPhrase (l : Line) : List Token → Target → Prop
  | scalar (x : String) : TargetPhrase l [⟨l, .name x⟩] (.scalar x)
  | element (o c : Line) (x : String) {ts : List Token} {index : Expr}
    (h : ExprPhrase .expression ts index) :
    TargetPhrase l (⟨l, .name x⟩ :: bracketsAt o c ts) (.element x index)

/-- A size has no line of its own. -/
def ShapePhrase (ts : List Token) (shape : Shape) : Prop := DerivesShape (ts.map Token.lexeme) shape

inductive StmtPhrase : List Token → Stmt → Prop
  | call (l o c e : Line) (f : String) {args : List (List Token × Expr)} {ts : List Token}
    (hts : Listed (args.map Prod.fst) ts) (h : ∀ a ∈ args, ExprPhrase .expression a.1 a.2) :
    StmtPhrase (⟨l, .name f⟩ :: parensAt o c ts ++ [⟨e, .symbol .semicolon⟩])
      (.call l f (args.map Prod.snd))
  | assign (l a e : Line) {ts vs : List Token} {target : Target} {value : Expr}
    (ht : TargetPhrase l ts target) (hv : ExprPhrase .expression vs value) :
    StmtPhrase (ts ++ ⟨a, .symbol .assign⟩ :: vs ++ [⟨e, .symbol .semicolon⟩])
      (.assign l target value)
  | ifThen (l o c e : Line) {cs ys : List Token} {cond : Expr} {yes : Stmt}
    (hc : ExprPhrase .expression cs cond) (hy : StmtPhrase ys yes) :
    StmtPhrase (⟨l, .keyword .if_⟩ :: parensAt o c cs ++ ys ++ [⟨e, .keyword .endif⟩])
      (.ifThen l cond yes)
  | ifElse (l o c m e : Line) {cs ys ns : List Token} {cond : Expr} {yes no : Stmt}
    (hc : ExprPhrase .expression cs cond) (hy : StmtPhrase ys yes) (hn : StmtPhrase ns no) :
    StmtPhrase (⟨l, .keyword .if_⟩ :: parensAt o c cs ++ ys ++ ⟨m, .keyword .else_⟩ :: ns ++
      [⟨e, .keyword .endif⟩]) (.ifElse l cond yes no)
  | loop (l o c : Line) {cs bs : List Token} {cond : Expr} {body : Stmt}
    (hc : ExprPhrase .expression cs cond) (hb : StmtPhrase bs body) :
    StmtPhrase (⟨l, .keyword .while_⟩ :: parensAt o c cs ++ bs) (.loop l cond body)
  | output (l o c e : Line) {vs : List Token} {value : Expr}
    (hv : ExprPhrase .expression vs value) :
    StmtPhrase (⟨l, .keyword .output⟩ :: parensAt o c vs ++ [⟨e, .symbol .semicolon⟩])
      (.output l value)
  | input (l o m c e : Line) {ts : List Token} {target : Target} (ht : TargetPhrase m ts target) :
    StmtPhrase (⟨l, .keyword .input⟩ :: parensAt o c ts ++ [⟨e, .symbol .semicolon⟩])
      (.input l target)
  | block (l c : Line) {body : List (List Token × Stmt)} (h : ∀ s ∈ body, StmtPhrase s.1 s.2) :
    StmtPhrase (⟨l, .symbol .leftBrace⟩ :: body.flatMap Prod.fst ++ [⟨c, .symbol .rightBrace⟩])
      (.block l (body.map Prod.snd))
  | ret (l e : Line) {vs : List Token} {value : Expr} (hv : ExprPhrase .expression vs value) :
    StmtPhrase (⟨l, .keyword .return_⟩ :: vs ++ [⟨e, .symbol .semicolon⟩]) (.ret l value)
  | declare (l m e : Line) (x : String) {ss : List Token} {shape : Shape}
    (hs : ShapePhrase ss shape) :
    StmtPhrase (⟨l, .keyword .int⟩ :: ⟨m, .name x⟩ :: ss ++ [⟨e, .symbol .semicolon⟩])
      (.declare l x shape)

inductive GlobalPhrase : List Token → Global → Prop
  | mk (l i m e : Line) (x : String) {ss : List Token} {shape : Shape} (hs : ShapePhrase ss shape) :
    GlobalPhrase (⟨l, .keyword .var⟩ :: ⟨i, .keyword .int⟩ :: ⟨m, .name x⟩ :: ss ++
      [⟨e, .symbol .semicolon⟩]) ⟨l, x, shape⟩

inductive ParamPhrase : List Token → Param → Prop
  | mk (l m : Line) (x : String) : ParamPhrase [⟨l, .keyword .int⟩, ⟨m, .name x⟩] ⟨l, x⟩

inductive ProcedurePhrase : List Token → Procedure → Prop
  | mk (l i m o c : Line) (f : String) {params : List (List Token × Param)} {ts bs : List Token}
    {body : Stmt} (hts : Listed (params.map Prod.fst) ts) (hp : ∀ q ∈ params, ParamPhrase q.1 q.2)
    (hb : StmtPhrase bs body) :
    ProcedurePhrase (⟨l, .keyword .procedure⟩ :: ⟨i, .keyword .int⟩ :: ⟨m, .name f⟩ ::
      parensAt o c ts ++ bs) ⟨l, f, params.map Prod.snd, body⟩

inductive ProgramPhrase : List Token → Program → Prop
  | mk {globals : List (List Token × Global)} {procedures : List (List Token × Procedure)}
    (hg : ∀ g ∈ globals, GlobalPhrase g.1 g.2) (hp : ∀ p ∈ procedures, ProcedurePhrase p.1 p.2)
    (hne : procedures ≠ []) :
    ProgramPhrase (globals.flatMap Prod.fst ++ procedures.flatMap Prod.fst)
      ⟨globals.map Prod.snd, procedures.map Prod.snd⟩

theorem StmtPhrase.ne_nil {ts : List Token} {s : Stmt} (h : StmtPhrase ts s) : ts ≠ [] := by
  cases h <;> simp

theorem GlobalPhrase.ne_nil {ts : List Token} {g : Global} (h : GlobalPhrase ts g) : ts ≠ [] := by
  cases h
  simp

theorem ProcedurePhrase.ne_nil {ts : List Token} {p : Procedure} (h : ProcedurePhrase ts p) :
    ts ≠ [] := by
  cases h
  simp

@[simp] theorem map_lexeme_parensAt (o c : Line) (ts : List Token) :
    (parensAt o c ts).map Token.lexeme = parens (ts.map Token.lexeme) := by
  simp [parensAt, parens]

@[simp] theorem map_lexeme_bracketsAt (o c : Line) (ts : List Token) :
    (bracketsAt o c ts).map Token.lexeme = brackets (ts.map Token.lexeme) := by
  simp [bracketsAt, brackets]

section

variable {α : Type} (f : α → α)

/-- Parts by their lexemes, with trees without lines. -/
def unlinedParts (parts : List (List Token × α)) : List (List Lexeme × α) :=
  parts.map fun p => (p.1.map Token.lexeme, f p.2)

theorem map_snd_unlinedParts (parts : List (List Token × α)) :
    (unlinedParts f parts).map Prod.snd = (parts.map Prod.snd).map f := by
  simp [unlinedParts]

theorem joined_unlinedParts (parts : List (List Token × α)) :
    joined (unlinedParts f parts) = (parts.flatMap Prod.fst).map Token.lexeme := by
  simp [joined, unlinedParts, List.flatMap_map, List.map_flatMap]

theorem Listed.map_lexeme {parts : List (List Token × α)} {ts : List Token}
    (h : Listed (parts.map Prod.fst) ts) :
    ts.map Token.lexeme = listed (unlinedParts f parts) := by
  induction parts generalizing ts with
  | nil =>
    cases h
    rfl
  | cons p parts ih =>
    cases parts with
    | nil =>
      cases h
      simp [listed, unlinedParts]
    | cons q parts =>
      obtain _ | _ | ⟨comma, h⟩ := h
      rw [unlinedParts, List.map_cons, listed_cons (by simp), List.map_append, List.map_cons, ih h]
      rfl

theorem forall_mem_unlinedParts {D : List Lexeme → α → Prop} {parts : List (List Token × α)}
    (h : ∀ p ∈ parts, D (p.1.map Token.lexeme) (f p.2)) : ∀ p ∈ unlinedParts f parts, D p.1 p.2 :=
  List.forall_mem_map.2 h

end

theorem ExprPhrase.derives {lv : Level} {ts : List Token} {e : Expr} (h : ExprPhrase lv ts e) :
    DerivesExpr lv (ts.map Token.lexeme) e.unlined := by
  induction h with
  | true_ l => exact .true_
  | false_ l => exact .false_
  | literal l n => exact .literal n
  | parens o c _ ih => simpa using DerivesExpr.parens ih
  | not l o c _ ih => simpa [Expr.unlined] using DerivesExpr.not ih
  | call l o c f hts _ ih =>
    have hargs := DerivesExpr.call f (forall_mem_unlinedParts Expr.unlined ih)
    rw [map_snd_unlinedParts, ← hts.map_lexeme] at hargs
    simpa [Expr.unlined, Expr.unlinedAll_eq_map] using hargs
  | element l o c x _ ih => simpa [Expr.unlined] using DerivesExpr.element x ih
  | scalar l x => exact .scalar x
  | single _ ih => exact .single ih
  | operation l op _ _ ihl ihr => simpa [Expr.unlined] using DerivesExpr.operation op ihl ihr

theorem TargetPhrase.derives {l : Line} {ts : List Token} {target : Target}
    (h : TargetPhrase l ts target) : DerivesTarget (ts.map Token.lexeme) target.unlined := by
  cases h with
  | scalar x => exact .scalar x
  | element o c x h => simpa [Target.unlined] using DerivesTarget.element x h.derives

theorem StmtPhrase.derives {ts : List Token} {s : Stmt} (h : StmtPhrase ts s) :
    DerivesStmt (ts.map Token.lexeme) s.unlined := by
  induction h with
  | call l o c e f hts h =>
    have hargs := DerivesStmt.call f (forall_mem_unlinedParts Expr.unlined fun a ha => (h a ha).derives)
    rw [map_snd_unlinedParts, ← hts.map_lexeme] at hargs
    simpa [Stmt.unlined, Expr.unlinedAll_eq_map] using hargs
  | assign l a e ht hv => simpa [Stmt.unlined] using DerivesStmt.assign ht.derives hv.derives
  | ifThen l o c e hc _ ih => simpa [Stmt.unlined] using DerivesStmt.ifThen hc.derives ih
  | ifElse l o c m e hc _ _ ihy ihn =>
    simpa [Stmt.unlined] using DerivesStmt.ifElse hc.derives ihy ihn
  | loop l o c hc _ ih => simpa [Stmt.unlined] using DerivesStmt.loop hc.derives ih
  | output l o c e hv => simpa [Stmt.unlined] using DerivesStmt.output hv.derives
  | input l o m c e ht => simpa [Stmt.unlined] using DerivesStmt.input ht.derives
  | block l c _ ih =>
    have hbody := DerivesStmt.block (forall_mem_unlinedParts Stmt.unlined ih)
    rw [map_snd_unlinedParts, joined_unlinedParts] at hbody
    simpa [Stmt.unlined, Stmt.unlinedAll_eq_map] using hbody
  | ret l e hv => simpa [Stmt.unlined] using DerivesStmt.ret hv.derives
  | declare l m e x hs => simpa [Stmt.unlined] using DerivesStmt.declare x hs

theorem GlobalPhrase.derives {ts : List Token} {g : Global} (h : GlobalPhrase ts g) :
    DerivesGlobal (ts.map Token.lexeme) g.unlined := by
  cases h with
  | mk l i m e x hs => simpa [Global.unlined] using DerivesGlobal.mk x hs

/-- The lexemes of parameters are given by their names. -/
theorem unlinedParts_params {params : List (List Token × Param)}
    (h : ∀ q ∈ params, ParamPhrase q.1 q.2) :
    unlinedParts Param.unlined params = (params.map fun q => q.2.name).map paramPart := by
  rw [unlinedParts, List.map_map]
  refine List.map_congr_left fun q hq => ?_
  obtain ⟨ts, p⟩ := q
  cases h _ hq with
  | mk => rfl

theorem ProcedurePhrase.derives {ts : List Token} {p : Procedure} (h : ProcedurePhrase ts p) :
    DerivesProcedure (ts.map Token.lexeme) p.unlined := by
  cases h with
  | @mk l i m o c f params ts bs body hts hp hb =>
    have hprocedure := DerivesProcedure.mk f (params.map fun q => q.2.name) hb.derives
    rw [← unlinedParts_params hp, ← hts.map_lexeme] at hprocedure
    simpa [Procedure.unlined, Param.unlined, Function.comp_def] using hprocedure

theorem ProgramPhrase.derives {ts : List Token} {p : Program} (h : ProgramPhrase ts p) :
    DerivesProgram (ts.map Token.lexeme) p.unlined := by
  cases h with
  | mk hg hp hne =>
    have hprogram := DerivesProgram.mk
      (forall_mem_unlinedParts Global.unlined fun g hg' => (hg g hg').derives)
      (forall_mem_unlinedParts Procedure.unlined fun p hp' => (hp p hp').derives)
      (by simpa [unlinedParts] using hne)
    rw [map_snd_unlinedParts, map_snd_unlinedParts, joined_unlinedParts, joined_unlinedParts,
      ← List.map_append] at hprogram
    exact hprogram

end Grammar

end ProcMips
