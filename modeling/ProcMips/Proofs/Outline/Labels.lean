import Mathlib
import ProcMips.Proofs.Lex.Spelling
import ProcMips.Proofs.Syntax.Nodes
import ProcMips.Proofs.Text.Rows
import ProcMips.Syntax.Outline

/-! A node of a program is determined by its label and the nodes below it. The label is the line of the
node and its words; names that are identifiers have no blank in them, and are told from numbers and from
the texts of operators by their characters. -/

namespace ProcMips

/-- The label of a node on `line`. -/
def lined (line : Line) (words : List String) : String := s!"L{line}: " ++ " ".intercalate words

/-- The words of a node, without its parts. -/
def Stmt.words : Stmt → List String
  | declare _ x shape => ["declare", shape.text, x]
  | assign _ target _ => ["assign", target.shapeText, target.name]
  | block .. => ["block"]
  | ifThen .. => ["if-then"]
  | ifElse .. => ["if-then-else"]
  | loop .. => ["while"]
  | output .. => ["output"]
  | input _ target => ["input", target.shapeText, target.name]
  | ret .. => ["return"]
  | call _ f _ => ["call", f]

def Global.words (g : Global) : List String := ["var", g.shape.text, g.name]

def Param.words (x : Param) : List String := ["arg", x.name]

def Procedure.words (q : Procedure) : List String := ["procedure", q.name]

section Outlines

theorem Expr.outlines_eq_map (es : List Expr) : Expr.outlines es = es.map Expr.outline := by
  induction es with
  | nil => rfl
  | cons e es ih => rw [Expr.outlines, ih, List.map_cons]

theorem Stmt.outlines_eq_map (ss : List Stmt) : Stmt.outlines ss = ss.map Stmt.outline := by
  induction ss with
  | nil => rfl
  | cons s ss ih => rw [Stmt.outlines, ih, List.map_cons]

theorem Target.outlines_eq_map (t : Target) : t.outlines = t.exprs.map Expr.outline := by
  cases t <;> rfl

theorem Expr.label_eq (e : Expr) : e.label = lined e.line [e.head] := by
  simp only [label, lined, String.intercalate_singleton, ToString.toString]

theorem Stmt.label_eq (s : Stmt) : s.label = lined s.line s.words := by
  apply String.toList_inj.1
  cases s <;> simp [label, head, words, lined, ToString.toString]

theorem Expr.outline_eq (e : Expr) :
    e.outline = .node (lined e.line [e.head]) (e.children.map Expr.outline) := by
  rw [← label_eq]
  cases e with
  | call l f args => rw [outline, outlines_eq_map, children]
  | _ => rfl

theorem Stmt.outline_eq (s : Stmt) :
    s.outline = .node (lined s.line s.words) (s.exprs.map Expr.outline ++ s.stmts.map Stmt.outline) := by
  rw [← label_eq]
  cases s <;> simp [outline, exprs, stmts, outlines_eq_map, Target.outlines_eq_map,
    Expr.outlines_eq_map, Outline.leaf]

theorem Global.outline_eq (g : Global) : g.outline = .leaf (lined g.line g.words) := by
  refine congrArg Outline.leaf (String.toList_inj.1 ?_)
  simp [lined, words, ToString.toString]

theorem Param.outline_eq (x : Param) : x.outline = .leaf (lined x.line x.words) := by
  refine congrArg Outline.leaf (String.toList_inj.1 ?_)
  simp [lined, words, ToString.toString]

theorem Procedure.outline_eq (q : Procedure) : q.outline =
    .node (lined q.line q.words) (q.params.map Param.outline ++ [q.body.outline]) := by
  refine congrArg (Outline.node · _) (String.toList_inj.1 ?_)
  simp [lined, words, ToString.toString]

end Outlines

section Words

theorem lined_inj {l l' : Line} {ws ws' : List String} (h : lined l ws = lined l' ws') :
    l = l' ∧ " ".intercalate ws = " ".intercalate ws' := by
  have hlist := congrArg String.toList h
  simp only [lined, ToString.toString, String.toList_append, List.append_assoc] at hlist
  have hcolon (n : Nat) : ':' ∉ (toString n).toList := fun hc => absurd (isDigit_of_mem_nat hc) (by decide)
  obtain ⟨hline, hwords⟩ := (append_cons_inj (hcolon l) (hcolon l')).1 (List.append_cancel_left hlist)
  exact ⟨Nat.repr_inj.1 (String.toList_inj.1 hline), String.toList_inj.1 (List.cons.inj hwords).2⟩

theorem lined_words_inj {l l' : Line} {ws ws' : List String} (hws : ∀ w ∈ ws, ' ' ∉ w.toList)
    (hws' : ∀ w ∈ ws', ' ' ∉ w.toList) (hne : ws ≠ []) (hne' : ws' ≠ [])
    (h : lined l ws = lined l' ws') : l = l' ∧ ws = ws' := by
  obtain ⟨hline, htext⟩ := lined_inj h
  exact ⟨hline, join_inj rfl hws hws' hne hne' htext⟩

theorem IsIdentifier.notMem {x : String} {c : Char} (h : IsIdentifier x) (hc : isWordChar c = false) :
    c ∉ x.toList := notMem_of_isWordChar h.chars hc

theorem Shape.text_injective {s s' : Shape} (h : s.text = s'.text) : s = s' := by
  -- The sizes are told apart from one word by the first character, and from each other as numbers.
  have hhead (n : Nat) : (array n).text.toList.head? = some 'a' := by simp [text, ToString.toString]
  cases s with
  | single =>
    cases s' with
    | single => rfl
    | array n => exact absurd (hhead n) (by rw [← h]; decide)
  | array n =>
    cases s' with
    | single => exact absurd (hhead n) (by rw [h]; decide)
    | array n' =>
      have hnumber : Nat.repr n = Nat.repr n' := by simpa [text, ToString.toString] using h
      rw [Nat.repr_injective hnumber]

theorem Shape.blank_notMem_text (s : Shape) : ' ' ∉ s.text.toList := by
  cases s with
  | single => decide
  | array n =>
    intro h
    simp only [text, String.toList_append, List.mem_append] at h
    rcases h with (h | h) | h
    · exact absurd h (by decide)
    · exact absurd (isDigit_of_mem_nat h) (by decide)
    · exact absurd h (by decide)

theorem BinOp.text_injective {a b : BinOp} (h : a.text = b.text) : a = b := by
  cases a <;> cases b <;> first | rfl | exact absurd h (by decide)

/-- A number has no letter and no underscore in it. -/
theorem toString_int_ne {n : Int} {w : String} {c : Char} (hc : isWordStart c = true) (hw : c ∈ w.toList) :
    toString n ≠ w := by
  intro h
  subst h
  rcases isDigit_or_eq_of_mem_int hw with hd | rfl
  · rw [isDigit_eq_false_of_isWordStart hc] at hd
    cases hd
  · cases hc

theorem toString_int_ne_bool (n : Int) (b : Bool) : toString n ≠ toString b := by
  cases b with
  | true => exact toString_int_ne (c := 't') (by decide) (by decide)
  | false => exact toString_int_ne (c := 'f') (by decide) (by decide)

theorem toString_int_ne_name {x : String} (h : IsIdentifier x) (n : Int) : toString n ≠ x := by
  obtain ⟨c, hc, hstart⟩ := h.start
  exact toString_int_ne hstart (List.mem_of_mem_head? hc)

theorem toString_bool_injective {b b' : Bool} (h : toString b = toString b') : b = b' := by
  cases b <;> cases b' <;> first | rfl | exact absurd h (by decide)

theorem toString_bool_ne_name {x : String} (h : IsIdentifier x) (b : Bool) : toString b ≠ x := by
  cases b with
  | true => exact h.notKeyword .true_
  | false => exact h.notKeyword .false_

end Words

/-- The characters that tell an element and a call from other expressions. -/
def isMark (c : Char) : Bool := c == '[' || c == '('

theorem isMark_eq_false_of_isWordChar {c : Char} (h : isWordChar c = true) : isMark c = false := by
  by_contra hm
  simp only [isMark, Bool.not_eq_false, Bool.or_eq_true, beq_iff_eq] at hm
  rcases hm with rfl | rfl <;> cases h

namespace Expr

variable {e e' : Expr}

/-- The text of a node without its marks. -/
def stem : Expr → String
  | int _ n => toString n
  | bool _ b => toString b
  | scalar _ x | element _ x _ | call _ x _ => x
  | binary _ op _ _ => op.text
  | not .. => "not"

def marks : Expr → List Char
  | element .. => ['[', ']']
  | call .. => ['(', ')']
  | _ => []

theorem toList_head (e : Expr) : e.head.toList = e.stem.toList ++ e.marks := by
  cases e <;> simp [head, stem, marks]

theorem isMark_eq_false_of_mem_stem (hn : ∀ x ∈ e.names, IsIdentifier x) {c : Char}
    (hc : c ∈ e.stem.toList) : isMark c = false := by
  have hname {x : String} (hx : x ∈ e.names) (hc : c ∈ x.toList) : isMark c = false :=
    isMark_eq_false_of_isWordChar ((hn x hx).chars c hc)
  cases e with
  | int l n =>
    rcases isDigit_or_eq_of_mem_int hc with hd | rfl
    · exact isMark_eq_false_of_isWordChar (isWordChar_of_isDigit hd)
    · rfl
  | bool l b =>
    have hall : (toString b).toList.all (fun c => !isMark c) = true := by cases b <;> decide
    simpa using List.all_eq_true.1 hall c hc
  | scalar l x => exact hname (x := x) (by simp [names]) hc
  | element l x index => exact hname (x := x) (by simp [names]) hc
  | call l f args => exact hname (x := f) (by simp [names]) hc
  | binary l op left right =>
    have hall : op.text.toList.all (fun c => !isMark c) = true := by cases op <;> decide
    simpa using List.all_eq_true.1 hall c hc
  | not l operand =>
    have hall : "not".toList.all (fun c => !isMark c) = true := by decide
    simpa using List.all_eq_true.1 hall c hc

/-- The text of a node gives its stem and its marks. -/
theorem stem_eq_and_marks_eq (hn : ∀ x ∈ e.names, IsIdentifier x) (hn' : ∀ x ∈ e'.names, IsIdentifier x)
    (h : e.head = e'.head) : e.stem = e'.stem ∧ e.marks = e'.marks := by
  have hdrop {d : Expr} (hd : ∀ x ∈ d.names, IsIdentifier x) :
      d.head.toList.dropWhile (fun c => !isMark c) = d.marks := by
    rw [toList_head, List.dropWhile_append_of_pos fun c hc => by
      simp [isMark_eq_false_of_mem_stem hd hc]]
    cases d <;> rfl
  have hmarks : e.marks = e'.marks := by rw [← hdrop hn, ← hdrop hn', h]
  have hlist := congrArg String.toList h
  rw [toList_head, toList_head, hmarks] at hlist
  exact ⟨String.toList_inj.1 (List.append_cancel_right hlist), hmarks⟩

/-- An expression is determined by its line, its text and the expressions below it. -/
theorem eq_of_parts (hn : ∀ x ∈ e.names, IsIdentifier x) (hn' : ∀ x ∈ e'.names, IsIdentifier x)
    (hline : e.line = e'.line) (hhead : e.head = e'.head) (hbelow : e.children = e'.children) :
    e = e' := by
  obtain ⟨hstem, hmarks⟩ := stem_eq_and_marks_eq hn hn' hhead
  cases e with
  | int l n =>
    cases e' with
    | int l' n' =>
      obtain rfl : l = l' := hline
      rw [Int.repr_injective hstem]
    | bool l' b => exact absurd hstem (toString_int_ne_bool n b)
    | scalar l' x => exact absurd hstem (toString_int_ne_name (hn' x (by simp [names])) n)
    | element | call => cases hmarks
    | binary | not => cases hbelow
  | bool l b =>
    cases e' with
    | int l' n => exact absurd hstem.symm (toString_int_ne_bool n b)
    | bool l' b' =>
      obtain rfl : l = l' := hline
      rw [toString_bool_injective hstem]
    | scalar l' x => exact absurd hstem (toString_bool_ne_name (hn' x (by simp [names])) b)
    | element | call => cases hmarks
    | binary | not => cases hbelow
  | scalar l x =>
    have hx := hn x (by simp [names])
    cases e' with
    | int l' n => exact absurd hstem.symm (toString_int_ne_name hx n)
    | bool l' b => exact absurd hstem.symm (toString_bool_ne_name hx b)
    | scalar l' x' =>
      obtain rfl : l = l' := hline
      obtain rfl : x = x' := hstem
      rfl
    | element | call => cases hmarks
    | binary | not => cases hbelow
  | element l x index =>
    cases e' with
    | element l' x' index' =>
      obtain rfl : l = l' := hline
      obtain rfl : x = x' := hstem
      cases hbelow
      rfl
    | _ => cases hmarks
  | call l f args =>
    cases e' with
    | call l' f' args' =>
      obtain rfl : l = l' := hline
      obtain rfl : f = f' := hstem
      obtain rfl : args = args' := hbelow
      rfl
    | _ => cases hmarks
  | binary l op left right =>
    cases e' with
    | binary l' op' left' right' =>
      obtain rfl : l = l' := hline
      cases hbelow
      rw [BinOp.text_injective hstem]
    | element | call => cases hmarks
    | _ => cases hbelow
  | not l operand =>
    cases e' with
    | not l' operand' =>
      obtain rfl : l = l' := hline
      cases hbelow
      rfl
    | element | call => cases hmarks
    | _ => cases hbelow

end Expr

theorem Target.eq_of_parts {t t' : Target} (hname : t.name = t'.name) (hbelow : t.exprs = t'.exprs) :
    t = t' := by
  cases t with
  | scalar x =>
    cases t' with
    | scalar x' => exact congrArg _ hname
    | element => cases hbelow
  | element x index =>
    cases t' with
    | scalar => cases hbelow
    | element x' index' =>
      obtain rfl : x = x' := hname
      cases hbelow
      rfl

namespace Stmt

variable {s s' : Stmt}

theorem blank_notMem_words (hn : ∀ x ∈ s.names, IsIdentifier x) : ∀ w ∈ s.words, ' ' ∉ w.toList := by
  have hname {x : String} (hx : x ∈ s.names) : ' ' ∉ x.toList := (hn x hx).notMem (by decide)
  have hshape (t : Target) : ' ' ∉ t.shapeText.toList := by cases t <;> simp [Target.shapeText]
  have htarget (t : Target) : t.name ∈ t.names := by cases t <;> simp [Target.name, Target.names]
  cases s with
  | declare l x shape =>
    simpa [words] using ⟨shape.blank_notMem_text, hname (x := x) (by simp [names])⟩
  | assign l t value => simpa [words] using ⟨hshape t, hname (x := t.name) (by simp [names, htarget])⟩
  | input l t => simpa [words] using ⟨hshape t, hname (x := t.name) (by simp [names, htarget])⟩
  | call l f args => simpa [words] using hname (x := f) (by simp [names])
  | _ => simp [words]

/-- What is right below a statement falls into its expressions and its statements. -/
theorem map_parts_inj {α : Type} {f : Expr → α} {g : Stmt → α} (hwords : s.words = s'.words)
    (h : s.exprs.map f ++ s.stmts.map g = s'.exprs.map f ++ s'.stmts.map g) :
    s.exprs.map f = s'.exprs.map f ∧ s.stmts.map g = s'.stmts.map g := by
  cases s <;> cases s' <;> simp_all [words, exprs, stmts]

/-- A statement is determined by its line, its words, and the expressions and statements below it. -/
theorem eq_of_parts (hline : s.line = s'.line) (hwords : s.words = s'.words)
    (hexprs : s.exprs = s'.exprs) (hstmts : s.stmts = s'.stmts) : s = s' := by
  -- Statements of different kinds have different first words.
  cases s <;> cases s' <;> simp_all [words, exprs, stmts, line]
  case declare.declare => exact Shape.text_injective hwords.1
  case assign.assign => exact Target.eq_of_parts hwords.2 hexprs.1
  case input.input => exact Target.eq_of_parts hwords.2 hexprs

end Stmt

end ProcMips
