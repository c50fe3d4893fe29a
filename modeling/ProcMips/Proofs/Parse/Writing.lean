import ProcMips.Proofs.Lex.Spelling
import ProcMips.Proofs.Parse.Grammar
import ProcMips.Proofs.Syntax.Induction
import ProcMips.Proofs.Syntax.Unlined

/-! Writing a tree as lexemes. The only parentheses that are not asked for by the grammar stand around a
left operand that is itself an operation. Where names are identifiers, numbers fit and sizes are positive,
what is written derives the tree, and each of its lexemes can be written in turn. -/

namespace ProcMips

open Grammar

def Expr.isBinary : Expr → Bool
  | .binary .. => true
  | _ => false

mutual

def Expr.lexemes : Expr → List Lexeme
  | .int _ n => [.literal n]
  | .bool _ b => [.keyword (if b then .true_ else .false_)]
  | .scalar _ x => [.name x]
  | .element _ x index => .name x :: brackets index.lexemes
  | .call _ f args => .name f :: parens (listed (Expr.parts args))
  | .binary _ op left right =>
    (if left.isBinary then parens left.lexemes else left.lexemes) ++ op.lexeme :: right.lexemes
  | .not _ operand => .keyword .not :: parens operand.lexemes

/-- What each expression is written as, with its tree. -/
def Expr.parts : List Expr → List (List Lexeme × Expr)
  | [] => []
  | e :: es => (e.lexemes, e.unlined) :: Expr.parts es

end

def Target.lexemes : Target → List Lexeme
  | scalar x => [.name x]
  | element x index => .name x :: brackets index.lexemes

def Shape.lexemes : Shape → List Lexeme
  | single => []
  | array n => brackets [.literal n]

mutual

def Stmt.lexemes : Stmt → List Lexeme
  | .declare _ x shape => .keyword .int :: .name x :: shape.lexemes ++ [.symbol .semicolon]
  | .assign _ target value =>
    target.lexemes ++ .symbol .assign :: value.lexemes ++ [.symbol .semicolon]
  | .block _ body => .symbol .leftBrace :: joined (Stmt.parts body) ++ [.symbol .rightBrace]
  | .ifThen _ cond yes =>
    .keyword .if_ :: parens cond.lexemes ++ yes.lexemes ++ [.keyword .endif]
  | .ifElse _ cond yes no =>
    .keyword .if_ :: parens cond.lexemes ++ yes.lexemes ++ .keyword .else_ :: no.lexemes ++
      [.keyword .endif]
  | .loop _ cond body => .keyword .while_ :: parens cond.lexemes ++ body.lexemes
  | .output _ value => .keyword .output :: parens value.lexemes ++ [.symbol .semicolon]
  | .input _ target => .keyword .input :: parens target.lexemes ++ [.symbol .semicolon]
  | .ret _ value => .keyword .return_ :: value.lexemes ++ [.symbol .semicolon]
  | .call _ f args => .name f :: parens (listed (Expr.parts args)) ++ [.symbol .semicolon]

def Stmt.parts : List Stmt → List (List Lexeme × Stmt)
  | [] => []
  | s :: ss => (s.lexemes, s.unlined) :: Stmt.parts ss

end

def Global.lexemes (g : Global) : List Lexeme :=
  .keyword .var :: .keyword .int :: .name g.name :: g.shape.lexemes ++ [.symbol .semicolon]

def Procedure.lexemes (q : Procedure) : List Lexeme :=
  .keyword .procedure :: .keyword .int :: .name q.name ::
    parens (listed (q.params.map fun x => paramPart x.name)) ++ q.body.lexemes

def Program.lexemes (p : Program) : List Lexeme :=
  p.globals.flatMap Global.lexemes ++ p.procedures.flatMap Procedure.lexemes

/-- Names are identifiers and literals are numbers without a sign. -/
inductive Expr.Writable : Expr → Prop
  | int (l : Line) {n : Int} (hn : 0 ≤ n ∧ n ≤ Word.greatest) : Writable (.int l n)
  | bool (l : Line) (b : Bool) : Writable (.bool l b)
  | scalar (l : Line) {x : String} (hx : IsIdentifier x) : Writable (.scalar l x)
  | element (l : Line) {x : String} {index : Expr} (hx : IsIdentifier x) (hi : Writable index) :
    Writable (.element l x index)
  | call (l : Line) {f : String} {args : List Expr} (hf : IsIdentifier f)
    (ha : ∀ a ∈ args, Writable a) : Writable (.call l f args)
  | binary (l : Line) (op : BinOp) {left right : Expr} (hl : Writable left) (hr : Writable right) :
    Writable (.binary l op left right)
  | not (l : Line) {operand : Expr} (h : Writable operand) : Writable (.not l operand)

inductive Target.Writable : Target → Prop
  | scalar {x : String} (hx : IsIdentifier x) : Writable (.scalar x)
  | element {x : String} {index : Expr} (hx : IsIdentifier x) (hi : index.Writable) :
    Writable (.element x index)

/-- The size of an array is positive and a 32-bit integer. -/
inductive Shape.Writable : Shape → Prop
  | single : Writable .single
  | array {n : Nat} (hpos : 0 < n) (hn : (n : Int) ≤ Word.greatest) : Writable (.array n)

inductive Stmt.Writable : Stmt → Prop
  | declare (l : Line) {x : String} {shape : Shape} (hx : IsIdentifier x) (hs : shape.Writable) :
    Writable (.declare l x shape)
  | assign (l : Line) {target : Target} {value : Expr} (ht : target.Writable) (hv : value.Writable) :
    Writable (.assign l target value)
  | block (l : Line) {body : List Stmt} (h : ∀ s ∈ body, Writable s) : Writable (.block l body)
  | ifThen (l : Line) {cond : Expr} {yes : Stmt} (hc : cond.Writable) (hy : Writable yes) :
    Writable (.ifThen l cond yes)
  | ifElse (l : Line) {cond : Expr} {yes no : Stmt} (hc : cond.Writable) (hy : Writable yes)
    (hn : Writable no) : Writable (.ifElse l cond yes no)
  | loop (l : Line) {cond : Expr} {body : Stmt} (hc : cond.Writable) (hb : Writable body) :
    Writable (.loop l cond body)
  | output (l : Line) {value : Expr} (hv : value.Writable) : Writable (.output l value)
  | input (l : Line) {target : Target} (ht : target.Writable) : Writable (.input l target)
  | ret (l : Line) {value : Expr} (hv : value.Writable) : Writable (.ret l value)
  | call (l : Line) {f : String} {args : List Expr} (hf : IsIdentifier f)
    (ha : ∀ a ∈ args, a.Writable) : Writable (.call l f args)

structure Procedure.Writable (q : Procedure) : Prop where
  name : IsIdentifier q.name
  params : ∀ x ∈ q.params, IsIdentifier x.name
  body : q.body.Writable

/-- A program that can be written has a procedure. -/
structure Program.Writable (p : Program) : Prop where
  globals : ∀ g ∈ p.globals, IsIdentifier g.name ∧ g.shape.Writable
  procedures : ∀ q ∈ p.procedures, q.Writable
  nonempty : p.procedures ≠ []

theorem Expr.parts_eq_map (es : List Expr) :
    Expr.parts es = es.map fun e => (e.lexemes, e.unlined) := by
  induction es with
  | nil => rfl
  | cons e es ih => rw [Expr.parts, ih, List.map_cons]

theorem Stmt.parts_eq_map (ss : List Stmt) :
    Stmt.parts ss = ss.map fun s => (s.lexemes, s.unlined) := by
  induction ss with
  | nil => rfl
  | cons s ss ih => rw [Stmt.parts, ih, List.map_cons]

theorem Expr.map_snd_parts (es : List Expr) : (Expr.parts es).map Prod.snd = Expr.unlinedAll es := by
  rw [Expr.parts_eq_map, Expr.unlinedAll_eq_map, List.map_map]
  rfl

theorem Stmt.map_snd_parts (ss : List Stmt) : (Stmt.parts ss).map Prod.snd = Stmt.unlinedAll ss := by
  rw [Stmt.parts_eq_map, Stmt.unlinedAll_eq_map, List.map_map]
  rfl

/-- The level at which an expression is written without parentheses around it. -/
def Expr.level (e : Expr) : Level := if e.isBinary then .expression else .factor

theorem Grammar.DerivesExpr.expression {level : Level} {ls : List Lexeme} {e : Expr}
    (h : DerivesExpr level ls e) : DerivesExpr .expression ls e := by
  cases level with
  | factor => exact .single h
  | expression => exact h

theorem Expr.derives (e : Expr) : DerivesExpr e.level e.lexemes e.unlined := by
  induction e with
  | int _ n => exact .literal n
  | bool _ b =>
    cases b with
    | true => exact .true_
    | false => exact .false_
  | scalar _ x => exact .scalar x
  | element _ x index ih => exact .element x ih.expression
  | call _ f args ih =>
    rw [Expr.unlined, ← Expr.map_snd_parts]
    refine .call f ?_
    intro a ha
    rw [Expr.parts_eq_map, List.mem_map] at ha
    obtain ⟨e, he, rfl⟩ := ha
    exact (ih e he).expression
  | binary _ op left right ihl ihr =>
    refine .operation op ?_ ihr.expression
    split
    next => exact .parens ihl.expression
    next hl =>
      rw [Expr.level, if_neg hl] at ihl
      exact ihl
  | not _ operand ih => exact .not ih.expression

theorem Expr.derives_parts (es : List Expr) :
    ∀ a ∈ Expr.parts es, DerivesExpr .expression a.1 a.2 := by
  intro a ha
  rw [Expr.parts_eq_map, List.mem_map] at ha
  obtain ⟨e, -, rfl⟩ := ha
  exact e.derives.expression

theorem Target.derives (t : Target) : DerivesTarget t.lexemes t.unlined := by
  cases t with
  | scalar x => exact .scalar x
  | element x index => exact .element x index.derives.expression

theorem Shape.Writable.derives {shape : Shape} (h : shape.Writable) :
    DerivesShape shape.lexemes shape := by
  cases h with
  | single => exact .single
  | @array n hpos _ => exact .array n hpos

theorem Stmt.Writable.derives {s : Stmt} (h : s.Writable) : DerivesStmt s.lexemes s.unlined := by
  induction h with
  | @declare _ x _ _ hs => exact .declare x hs.derives
  | @assign _ target value => exact .assign target.derives value.derives.expression
  | block _ _ ih =>
    rw [Stmt.unlined, ← Stmt.map_snd_parts]
    refine .block ?_
    intro a ha
    rw [Stmt.parts_eq_map, List.mem_map] at ha
    obtain ⟨s, hs, rfl⟩ := ha
    exact ih s hs
  | @ifThen _ cond _ _ _ ih => exact .ifThen cond.derives.expression ih
  | @ifElse _ cond _ _ _ _ _ ihy ihn => exact .ifElse cond.derives.expression ihy ihn
  | @loop _ cond _ _ _ ih => exact .loop cond.derives.expression ih
  | @output _ value => exact .output value.derives.expression
  | @input _ target => exact .input target.derives
  | @ret _ value => exact .ret value.derives.expression
  | @call _ f args =>
    rw [Stmt.unlined, ← Expr.map_snd_parts]
    exact .call f (Expr.derives_parts args)

theorem Procedure.Writable.derives {q : Procedure} (h : q.Writable) :
    DerivesProcedure q.lexemes q.unlined := by
  have hq := DerivesProcedure.mk q.name (q.params.map Param.name) h.body.derives
  rw [List.map_map, List.map_map] at hq
  exact hq

/-- What a program is written as derives it. -/
theorem Program.Writable.derives {p : Program} (h : p.Writable) :
    DerivesProgram p.lexemes p.unlined := by
  have hp := @DerivesProgram.mk (p.globals.map fun g => (g.lexemes, g.unlined))
    (p.procedures.map fun q => (q.lexemes, q.unlined)) ?_ ?_ ?_
  · simp only [joined, List.flatMap_map, List.map_map] at hp
    exact hp
  · intro a ha
    obtain ⟨g, hg, rfl⟩ := List.mem_map.1 ha
    exact .mk g.name (h.globals g hg).2.derives
  · intro a ha
    obtain ⟨q, hq, rfl⟩ := List.mem_map.1 ha
    exact (h.procedures q hq).derives
  · simpa using h.nonempty

section Lexemes

@[simp] theorem allWritable_nil : AllWritable [] := List.forall_mem_nil _

@[simp] theorem allWritable_cons {l : Lexeme} {ls : List Lexeme} :
    AllWritable (l :: ls) ↔ l.Writable ∧ AllWritable ls := List.forall_mem_cons

@[simp] theorem allWritable_append {ls ms : List Lexeme} :
    AllWritable (ls ++ ms) ↔ AllWritable ls ∧ AllWritable ms := List.forall_mem_append

@[simp] theorem Lexeme.writable_literal {n : Int} :
    (Lexeme.literal n).Writable ↔ 0 ≤ n ∧ n ≤ Word.greatest := Iff.rfl

@[simp] theorem Lexeme.writable_name {x : String} : (Lexeme.name x).Writable ↔ IsIdentifier x :=
  Iff.rfl

@[simp] theorem Lexeme.writable_keyword (k : Keyword) : (Lexeme.keyword k).Writable := trivial

@[simp] theorem Lexeme.writable_symbol (s : Symbol) : (Lexeme.symbol s).Writable := trivial

@[simp] theorem BinOp.writable_lexeme (op : BinOp) : op.lexeme.Writable := by cases op <;> trivial

@[simp] theorem allWritable_parens {ls : List Lexeme} :
    AllWritable (parens ls) ↔ AllWritable ls := by
  simp [parens]

@[simp] theorem allWritable_brackets {ls : List Lexeme} :
    AllWritable (brackets ls) ↔ AllWritable ls := by
  simp [brackets]

theorem allWritable_joined {α : Type} {parts : List (List Lexeme × α)}
    (h : ∀ a ∈ parts, AllWritable a.1) : AllWritable (joined parts) := by
  intro l hl
  obtain ⟨a, ha, hl⟩ := List.mem_flatMap.1 hl
  exact h a ha l hl

theorem allWritable_listed {α : Type} {parts : List (List Lexeme × α)}
    (h : ∀ a ∈ parts, AllWritable a.1) : AllWritable (listed parts) := by
  induction parts with
  | nil => exact allWritable_nil
  | cons a parts ih =>
    rw [List.forall_mem_cons] at h
    by_cases hne : parts = []
    · subst hne
      simpa [listed] using h.1
    · obtain ⟨ls, x⟩ := a
      rw [listed_cons hne]
      simpa using ⟨h.1, ih h.2⟩

end Lexemes

theorem allWritable_parts {es : List Expr} (h : ∀ e ∈ es, AllWritable e.lexemes) :
    AllWritable (listed (Expr.parts es)) := by
  apply allWritable_listed
  intro a ha
  rw [Expr.parts_eq_map, List.mem_map] at ha
  obtain ⟨e, he, rfl⟩ := ha
  exact h e he

theorem Expr.Writable.lexemes {e : Expr} (h : e.Writable) : AllWritable e.lexemes := by
  induction h with
  | int _ hn => simpa [Expr.lexemes] using hn
  | bool => simp [Expr.lexemes]
  | scalar _ hx => simpa [Expr.lexemes] using hx
  | element _ hx _ ih => simpa [Expr.lexemes] using ⟨hx, ih⟩
  | call _ hf _ ih => simpa [Expr.lexemes] using ⟨hf, allWritable_parts ih⟩
  | binary _ op _ _ ihl ihr =>
    simp only [Expr.lexemes]
    split_ifs <;> simp [ihl, ihr]
  | not _ _ ih => simpa [Expr.lexemes] using ih

theorem Target.Writable.lexemes {t : Target} (h : t.Writable) : AllWritable t.lexemes := by
  cases h with
  | scalar hx => simpa [Target.lexemes] using hx
  | element hx hi => simpa [Target.lexemes] using ⟨hx, hi.lexemes⟩

theorem Shape.Writable.lexemes {shape : Shape} (h : shape.Writable) : AllWritable shape.lexemes := by
  cases h with
  | single => exact allWritable_nil
  | array _ hn => simpa [Shape.lexemes] using hn

theorem Stmt.Writable.lexemes {s : Stmt} (h : s.Writable) : AllWritable s.lexemes := by
  induction h with
  | declare _ hx hs => simpa [Stmt.lexemes] using ⟨hx, hs.lexemes⟩
  | assign _ ht hv => simpa [Stmt.lexemes] using ⟨ht.lexemes, hv.lexemes⟩
  | @block _ body _ ih =>
    have hbody : AllWritable (joined (Stmt.parts body)) := by
      apply allWritable_joined
      intro a ha
      rw [Stmt.parts_eq_map, List.mem_map] at ha
      obtain ⟨s, hs, rfl⟩ := ha
      exact ih s hs
    simpa [Stmt.lexemes] using hbody
  | ifThen _ hc _ ih => simpa [Stmt.lexemes] using ⟨hc.lexemes, ih⟩
  | ifElse _ hc _ _ ihy ihn => simpa [Stmt.lexemes] using ⟨hc.lexemes, ihy, ihn⟩
  | loop _ hc _ ih => simpa [Stmt.lexemes] using ⟨hc.lexemes, ih⟩
  | output _ hv => simpa [Stmt.lexemes] using hv.lexemes
  | input _ ht => simpa [Stmt.lexemes] using ht.lexemes
  | ret _ hv => simpa [Stmt.lexemes] using hv.lexemes
  | call _ hf ha => simpa [Stmt.lexemes] using ⟨hf, allWritable_parts fun e he => (ha e he).lexemes⟩

theorem Procedure.Writable.lexemes {q : Procedure} (h : q.Writable) : AllWritable q.lexemes := by
  have hparams : AllWritable (listed (q.params.map fun x => paramPart x.name)) := by
    apply allWritable_listed
    intro a ha
    obtain ⟨x, hx, rfl⟩ := List.mem_map.1 ha
    simpa [paramPart] using h.params x hx
  simpa [Procedure.lexemes] using ⟨h.name, hparams, h.body.lexemes⟩

theorem Program.Writable.lexemes {p : Program} (h : p.Writable) : AllWritable p.lexemes := by
  rw [Program.lexemes, allWritable_append]
  constructor
  · intro l hl
    obtain ⟨g, hg, hl⟩ := List.mem_flatMap.1 hl
    have hall : AllWritable g.lexemes := by
      simpa [Global.lexemes] using ⟨(h.globals g hg).1, (h.globals g hg).2.lexemes⟩
    exact hall l hl
  · intro l hl
    obtain ⟨q, hq, hl⟩ := List.mem_flatMap.1 hl
    exact (h.procedures q hq).lexemes l hl

end ProcMips
