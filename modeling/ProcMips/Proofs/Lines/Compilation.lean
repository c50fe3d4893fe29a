import ProcMips.Proofs.Lines.Analysis
import ProcMips.Proofs.Lines.Code
import ProcMips.Proofs.Lines.Parsing
import ProcMips.Proofs.Parse.RoundTrip
import ProcMips.Proofs.Pipeline

/-! Where the tokens of a program stand does not influence its compilation. -/

namespace ProcMips

/-- The same lexemes up to the end, or up to the same error. -/
structure Lexed.SameLexemes (r r' : Lexed) : Prop where
  tokens : r.tokens.map Token.lexeme = r'.tokens.map Token.lexeme
  error? : r.error?.map Located.cause = r'.error?.map Located.cause

/-- The same lexemes with other gaps between them. -/
theorem Written.sameLexemes {ls : List Lexeme} {a b : String} (ha : Written ls a.toList)
    (hb : Written ls b.toList) (hls : AllWritable ls) : (tokenize a).SameLexemes (tokenize b) := by
  obtain ⟨hat, hae⟩ := ha.tokens_eq hls .nil 1
  obtain ⟨hbt, hbe⟩ := hb.tokens_eq hls .nil 1
  exact ⟨hat.trans hbt.symm, (congrArg _ hae).trans (congrArg _ hbe.symm)⟩

/-- Texts that differ in one number at most. -/
def SameButNumber (a b : String) : Prop :=
  a = b ∨ ∃ (before after : String) (n m : Nat),
    a = before ++ toString n ++ after ∧ b = before ++ toString m ++ after

theorem Located.sameButNumber_text {κ : Type} (stage : String) (describe : κ → String)
    {e e' : Located κ} (h : e.cause = e'.cause) :
    SameButNumber (stage ++ e.text describe) (stage ++ e'.text describe) := by
  refine .inr ⟨stage ++ "L", ": " ++ describe e.cause, e.line, e'.line, ?_, ?_⟩
  · simp only [text, String.append_assoc]
    rfl
  · simp only [text, h, String.append_assoc]
    rfl

namespace CompileFailure

/-- The same failure of the same stage, on lines that may differ. -/
inductive SameButLine : CompileFailure → CompileFailure → Prop
  | lexer {e e' : Located LexError} (h : e.cause = e'.cause) : SameButLine (.lexer e) (.lexer e')
  | parser {e e' : Located ParseError} (h : e.cause = e'.cause) :
    SameButLine (.parser e) (.parser e')
  | semantic {e e' : Located SemanticError} (h : e.cause = e'.cause) :
    SameButLine (.semantic e) (.semantic e')
  | code (e : CodeError) : SameButLine (.code e) (.code e)

/-- The line is the number in which the messages can differ. -/
theorem SameButLine.message {f f' : CompileFailure} (h : f.SameButLine f') :
    SameButNumber f.message f'.message := by
  cases h with
  | lexer h => exact Located.sameButNumber_text _ _ h
  | parser h => exact Located.sameButNumber_text _ _ h
  | semantic h => exact Located.sameButNumber_text _ _ h
  | code e => exact .inl rfl

end CompileFailure

/-- Tokens that differ in their lines only are read, analyzed and translated alike. -/
theorem stages_blind {ts us : List Token} (h : ts.map Token.lexeme = us.map Token.lexeme) :
    (∃ e e', parse ts = .error e ∧ parse us = .error e' ∧ e.cause = e'.cause) ∨
      ∃ p q, parse ts = .ok p ∧ parse us = .ok q ∧ p.unlined = q.unlined ∧
        ((∃ e e', analyze p = .error (.rejected e) ∧ analyze q = .error (.rejected e') ∧
            e.cause = e'.cause) ∨
          ∃ t, analyze p = .ok t ∧ analyze q = .ok t ∧ p.assembly t = q.assembly t) := by
  refine (parse_blind h).imp_right ?_
  rintro ⟨p, q, hp, hq, hpq⟩
  refine ⟨p, q, hp, hq, hpq, ?_⟩
  have hsame := sameFinding_analyze hpq
  have hreject (f : AnalysisFailure) (hf : analyze p = .error f) :=
    Program.exists_rejected_of_analyze (positive_of_parse hp) hf
  have hreject' (f : AnalysisFailure) (hf : analyze q = .error f) :=
    Program.exists_rejected_of_analyze (positive_of_parse hq) hf
  revert hsame hreject hreject'
  generalize analyze p = x
  generalize analyze q = y
  rintro (t | hunlined) hreject hreject'
  · refine .inr ⟨t, rfl, rfl, ?_⟩
    rw [← Program.assembly_unlined, hpq, Program.assembly_unlined]
  · obtain ⟨e, rfl⟩ := hreject _ rfl
    obtain ⟨e', rfl⟩ := hreject' _ rfl
    obtain ⟨-, hcause⟩ := Located.mk.inj (AnalysisFailure.rejected.inj hunlined)
    exact .inl ⟨e, e', rfl, rfl, hcause⟩

theorem compile_blind {a b : String} (h : (tokenize a).SameLexemes (tokenize b)) :
    (∃ text, compile a = .ok text ∧ compile b = .ok text) ∨
      ∃ f f', compile a = .error f ∧ compile b = .error f' ∧ f.SameButLine f' := by
  obtain ⟨htokens, herror⟩ := h
  cases ha : (tokenize a).error? with
  | some e =>
    rw [ha] at herror
    obtain ⟨e', hb, hcause⟩ := Option.map_eq_some_iff.1 herror.symm
    refine .inr ⟨_, _, compile_of_unread (programOf_of_error ha),
      compile_of_unread (programOf_of_error hb), .lexer hcause.symm⟩
  | none =>
    rw [ha] at herror
    have hb := Option.map_eq_none_iff.1 herror.symm
    rcases stages_blind htokens with ⟨e, e', hp, hq, hcause⟩ | ⟨p, q, hp, hq, -, hstages⟩
    · have hx := programOf_of_tokens ha
      have hy := programOf_of_tokens hb
      rw [hp] at hx
      rw [hq] at hy
      exact .inr ⟨_, _, compile_of_unread hx, compile_of_unread hy, .parser hcause⟩
    · have hx := programOf_eq_ok_iff.2 ⟨ha, hp⟩
      have hy := programOf_eq_ok_iff.2 ⟨hb, hq⟩
      rcases hstages with ⟨e, e', he, he', hcause⟩ | ⟨t, ht, ht', hcode⟩
      · exact .inr ⟨_, _, compile_of_rejected hx he, compile_of_rejected hy he', .semantic hcause⟩
      · rw [compile_of_accepted hx ht, compile_of_accepted hy ht', hcode]
        cases q.assembly t with
        | ok text => exact .inl ⟨text, rfl, rfl⟩
        | error e => exact .inr ⟨_, _, rfl, rfl, .code e⟩

/-- A text compiles to the assembly of a program that it writes. -/
theorem compile_of_written {p : Program} {t : Tables} {text asm : String} (hp : p.Writable)
    (htext : Written p.lexemes text.toList) (ht : analyze p = .ok t)
    (hasm : p.assembly t = .ok asm) : compile text = .ok asm := by
  obtain ⟨htokens, herror⟩ := htext.tokens_eq hp.lexemes .nil 1
  have hderives := hp.derives
  rw [← htokens] at hderives
  obtain ⟨q, hq, hqp⟩ := parse_of_derives hderives
  have hanalyze : analyze q = .ok t := (ht ▸ sameFinding_analyze hqp).eq_ok
  have hassembly : q.assembly t = .ok asm := by
    rw [← Program.assembly_unlined, hqp, Program.assembly_unlined, hasm]
  exact compile_eq_ok_iff.2 ⟨q, t, programOf_eq_ok_iff.2 ⟨herror, hq⟩, hanalyze, hassembly⟩

/-- The lines of tokens influence no stage, and those of a text nothing but the line in a message. -/
theorem compilation_ignores_lines :
    (∀ ts us : List Token, ts.map Token.lexeme = us.map Token.lexeme →
      (∃ e e', parse ts = .error e ∧ parse us = .error e' ∧ e.cause = e'.cause) ∨
        ∃ p q, parse ts = .ok p ∧ parse us = .ok q ∧ p.unlined = q.unlined ∧
          ((∃ e e', analyze p = .error (.rejected e) ∧ analyze q = .error (.rejected e') ∧
              e.cause = e'.cause) ∨
            ∃ t, analyze p = .ok t ∧ analyze q = .ok t ∧ p.assembly t = q.assembly t)) ∧
    ∀ a b : String, (tokenize a).SameLexemes (tokenize b) →
      (∃ text, compile a = .ok text ∧ compile b = .ok text) ∨
        ∃ f f', compile a = .error f ∧ compile b = .error f' ∧ f.SameButLine f' ∧
          SameButNumber f.message f'.message := by
  refine ⟨fun ts us => stages_blind, fun a b h => (compile_blind h).imp_right ?_⟩
  rintro ⟨f, f', hf, hf', hsame⟩
  exact ⟨f, f', hf, hf', hsame, hsame.message⟩

/-- A program with a name that is not declared. -/
def undeclared : Program := ⟨[], [⟨1, "main", [], .ret 1 (.scalar 1 "x")⟩]⟩

def undeclaredLine : String := "procedure int main ( ) return x ;"

def undeclaredLines : String := "procedure int main ( )\nreturn\nx ;"

theorem undeclared_ignores_lines :
    (∃ p q e e', parse (undeclared.lexemes.map (⟨1, ·⟩)) = .ok p ∧
      parse (undeclared.lexemes.mapIdx fun i l => ⟨i + 1, l⟩) = .ok q ∧ p.unlined = q.unlined ∧
      analyze p = .error (.rejected e) ∧ analyze q = .error (.rejected e') ∧ e.cause = e'.cause) ∧
    ((∃ text, compile undeclaredLine = .ok text ∧ compile undeclaredLines = .ok text) ∨
      ∃ f f', compile undeclaredLine = .error f ∧ compile undeclaredLines = .error f' ∧
        f.SameButLine f' ∧ SameButNumber f.message f'.message) := by
  constructor
  · have hparse : (parse (undeclared.lexemes.map (⟨1, ·⟩))).isOk = true := by decide +kernel
    have hreject : ((parse (undeclared.lexemes.map (⟨1, ·⟩))).toOption.map fun p =>
      (analyze p).isOk) = some false := by decide +kernel
    rcases compilation_ignores_lines.1 (undeclared.lexemes.map (⟨1, ·⟩))
      (undeclared.lexemes.mapIdx fun i l => ⟨i + 1, l⟩) (by decide) with
      ⟨e, _, he, -⟩ | ⟨p, q, hp, hq, hpq, ⟨e, e', he, he', hcause⟩ | ⟨t, ht, -⟩⟩
    · rw [he] at hparse
      cases hparse
    · exact ⟨p, q, e, e', hp, hq, hpq, he, he', hcause⟩
    · rw [hp] at hreject
      simp [Except.toOption, ht, Except.isOk, Except.toBool] at hreject
  · have hwritable : undeclared.Writable := by
      refine ⟨List.forall_mem_nil _, List.forall_mem_singleton.2 ⟨by decide, List.forall_mem_nil _,
        .ret 1 (.scalar 1 ?_)⟩, by decide⟩
      decide
    have hblank : Separator [' '] := .mk rfl .nil
    have hnewline : Separator ['\n'] := .mk rfl .nil
    have hline : Written undeclared.lexemes undeclaredLine.toList :=
      .cons _ hblank <| .cons _ hblank <| .cons _ hblank <| .cons _ hblank <| .cons _ hblank <|
        .cons _ hblank <| .cons _ hblank <| .last _
    have hlines : Written undeclared.lexemes undeclaredLines.toList :=
      .cons _ hblank <| .cons _ hblank <| .cons _ hblank <| .cons _ hblank <| .cons _ hnewline <|
        .cons _ hnewline <| .cons _ hblank <| .last _
    exact compilation_ignores_lines.2 _ _ (hline.sameLexemes hlines hwritable.lexemes)

end ProcMips
