import ProcMips.Proofs.Parse.Lockstep

/-! Each rule of the parser decides by what it has seen, given that the parsers for its parts do. So a
program that fails at a token fails over every list that goes as far as that token. -/

namespace ProcMips

open Grammar TokenClass

namespace Parser

section

variable {n : Nat} {expr expr' : Parser Expr}

theorem inStep_argumentList (h : InStep n expr expr') :
    InStep n (argumentList expr) (argumentList expr') := by
  rw [argumentList_eq, argumentList_eq]
  exact inStep_listIn _ h

theorem inStep_identifierOrCall (h : InStep n expr expr') :
    InStep (n + 1) (identifierOrCall expr) (identifierOrCall expr') := by
  refine (inStep_enter _).bind fun _ => inStep_identifier fun l x => (inStep_sees _).bind fun b => ?_
  cases b with
  | true => exact (inStep_argumentList h).bind fun es => inStep_pure _
  | false =>
    refine inStep_accept (fun _ => ?_) (inStep_pure _)
    exact (h.mono (Nat.sub_le n 1)).bind fun index => inStep_expect fun _ => inStep_pure _

theorem inStep_factor (h : InStep n expr expr') : InStep (n + 1) (factor expr) (factor expr') := by
  refine (inStep_enter _).bind fun _ => inStep_line.bind fun l => inStep_next?.bind fun found => ?_
  split
  · exact inStep_advance (inStep_pure _)
  · exact inStep_advance (inStep_pure _)
  · exact inStep_advance (h.bind fun e => inStep_expect fun _ => inStep_pure e)
  · refine inStep_advance (inStep_expect fun _ => ?_)
    exact (h.mono (Nat.sub_le n 1)).bind fun e => inStep_expect fun _ => inStep_pure _
  · exact inStep_advance (inStep_pure _)
  · exact inStep_identifierOrCall h
  · exact inStep_fail _

theorem inStep_operation (h : InStep n expr expr') :
    InStep (n + 1) (operation expr) (operation expr') := by
  refine (inStep_enter _).bind fun _ => (inStep_factor h).bind fun left => ?_
  refine inStep_line.bind fun l => inStep_next?.bind fun found => ?_
  split
  · exact inStep_advance (h.bind fun right => inStep_pure _)
  · exact inStep_pure left

theorem inStep_expression : InStep n expression expression :=
  inStep_bounded (fun i => (sound_expressionAt i).advances) (fun j => (sound_expressionAt j).advances)
    fun _ _ _ _ => inStep_operation

theorem inStep_arraySize : InStep n arraySize arraySize := by
  refine (inStep_enter _).bind fun _ => inStep_accept (fun _ => ?_) (inStep_pure _)
  refine inStep_next?.bind fun found => ?_
  split
  · split_ifs
    · exact inStep_advance (inStep_expect fun _ => inStep_pure _)
    · exact inStep_fail _
  · exact inStep_fail _

theorem inStep_targetOf (x : String) : InStep n (targetOf x) (targetOf x) :=
  (inStep_enter _).bind fun _ => inStep_accept
    (fun _ => inStep_expression.bind fun _ => inStep_expect fun _ => inStep_pure _) (inStep_pure _)

theorem inStep_condition : InStep n condition condition :=
  inStep_expect fun _ => inStep_expression.bind fun e => inStep_expect fun _ => inStep_pure e

theorem inStep_idInstruction : InStep n idInstruction idInstruction := by
  refine (inStep_enter _).bind fun _ => inStep_identifier fun l x => (inStep_sees _).bind fun b => ?_
  cases b with
  | true =>
    exact (inStep_argumentList inStep_expression).bind fun _ =>
      inStep_expect fun _ => inStep_pure _
  | false =>
    refine (inStep_targetOf x).bind fun _ => inStep_accept (fun _ => ?_) ?_
    · exact inStep_expression.bind fun _ => inStep_expect fun _ => inStep_pure _
    · exact inStep_next?.bind fun _ => inStep_fail _

theorem inStep_outputInstruction : InStep n outputInstruction outputInstruction :=
  (inStep_enter _).bind fun _ => inStep_expect fun _ => inStep_condition.bind fun _ =>
    inStep_expect fun _ => inStep_pure _

theorem inStep_inputInstruction : InStep n inputInstruction inputInstruction :=
  (inStep_enter _).bind fun _ => inStep_expect fun _ => inStep_expect fun _ =>
    inStep_identifier fun _ x => (inStep_targetOf x).bind fun _ => inStep_expect fun _ =>
      inStep_expect fun _ => inStep_pure _

theorem inStep_returnInstruction : InStep n returnInstruction returnInstruction :=
  (inStep_enter _).bind fun _ => inStep_expect fun _ => inStep_expression.bind fun _ =>
    inStep_expect fun _ => inStep_pure _

theorem inStep_declaration : InStep n declaration declaration :=
  (inStep_enter _).bind fun _ => inStep_expect fun _ => inStep_identifier fun _ _ =>
    inStep_arraySize.bind fun _ => inStep_expect fun _ => inStep_pure _

end

section

variable {n : Nat} {stmt stmt' : Parser Stmt}

theorem inStep_ifInstruction (h : InStep n stmt stmt') :
    InStep (n + 1) (ifInstruction stmt) (ifInstruction stmt') := by
  refine (inStep_enter _).bind fun _ => inStep_expect fun _ => inStep_condition.bind fun _ => ?_
  refine h.bind fun _ => inStep_accept (fun _ => ?_) ?_
  · exact (h.mono (Nat.sub_le n 1)).bind fun _ => inStep_expect fun _ => inStep_pure _
  · exact inStep_accept (fun _ => inStep_pure _) (inStep_next?.bind fun _ => inStep_fail _)

theorem inStep_whileInstruction (h : InStep n stmt stmt') :
    InStep (n + 1) (whileInstruction stmt) (whileInstruction stmt') :=
  (inStep_enter _).bind fun _ => inStep_expect fun _ => inStep_condition.bind fun _ =>
    h.bind fun _ => inStep_pure _

theorem inStep_blockItem (h : InStep n stmt stmt') :
    InStep n (blockItem stmt) (blockItem stmt') := by
  refine inStep_next?.bind fun found => ?_
  split
  · exact inStep_pure none
  · exact inStep_pure none
  · exact h.bind fun s => inStep_pure (some s)

theorem inStep_block (hstmt : Sound stmt StmtPhrase) (h : InStep n stmt stmt') :
    InStep (n + 1) (block stmt) (block stmt') := by
  refine (inStep_enter _).bind fun _ => inStep_expect fun _ => ?_
  have hitem := (sound_blockItem hstmt).length_lt fun _ _ => StmtPhrase.ne_nil
  exact (inStep_many (inStep_blockItem h) hitem).bind fun _ => inStep_expect fun _ => inStep_pure _

theorem inStep_instruction (hstmt : Sound stmt StmtPhrase) (h : InStep n stmt stmt') :
    InStep (n + 1) (instruction stmt) (instruction stmt') := by
  refine (inStep_enter _).bind fun _ => inStep_next?.bind fun found => ?_
  split
  · exact inStep_idInstruction
  · exact inStep_ifInstruction h
  · exact inStep_whileInstruction h
  · exact inStep_outputInstruction
  · exact inStep_inputInstruction
  · exact inStep_block hstmt h
  · exact inStep_returnInstruction
  · exact inStep_declaration
  · exact inStep_fail _

theorem inStep_statement : InStep n statement statement :=
  inStep_bounded (fun i => (sound_statementAt i).advances) (fun j => (sound_statementAt j).advances)
    fun _ i _ _ => inStep_instruction (sound_statementAt i)

theorem inStep_global? : InStep n global? global? :=
  (inStep_enter _).bind fun _ => inStep_accept (fun _ => inStep_expect fun _ =>
    inStep_identifier fun _ _ => inStep_arraySize.bind fun _ => inStep_expect fun _ =>
      (inStep_note _).bind fun _ => inStep_pure _) (inStep_pure none)

theorem inStep_param : InStep n param param :=
  inStep_expect fun _ => inStep_identifier fun _ _ => inStep_pure _

theorem inStep_parameterList : InStep n parameterList parameterList := by
  rw [parameterList_eq]
  exact inStep_listIn _ inStep_param

theorem inStep_procedure? : InStep n procedure? procedure? :=
  (inStep_enter _).bind fun _ => inStep_accept (fun _ => inStep_expect fun _ =>
    inStep_identifier fun _ _ => inStep_parameterList.bind fun _ =>
      inStep_statement.bind fun _ => (inStep_note _).bind fun _ => inStep_pure _) (inStep_pure none)

theorem inStep_program : InStep n program program := by
  unfold program
  refine inStep_next?.bind fun found => ?_
  split_ifs
  · exact inStep_fail_bind _
  have hglobal := sound_global?.length_lt fun _ _ => GlobalPhrase.ne_nil
  refine (inStep_many inStep_global? hglobal).bind fun globals => ?_
  refine (inStep_sees _).bind fun b => ?_
  split_ifs
  swap
  · exact inStep_next?.bind fun _ => inStep_fail_bind _
  have hprocedure := sound_procedure?.length_lt fun _ _ => ProcedurePhrase.ne_nil
  refine (inStep_many inStep_procedure? hprocedure).bind fun procedures => ?_
  refine inStep_next?.bind fun found => ?_
  split_ifs
  · exact inStep_next?.bind fun _ => inStep_fail_bind _
  · exact inStep_pure _

end

/-- Where a program fails, it fails over every list with the same start up to the next token. -/
theorem error_of_same_start {us xs : List Token} {t : Token} {e : Located ParseError}
    {c : TokenCursor} (h : program (TokenCursor.start (us ++ t :: xs)) = .error e c)
    (hc : c.rest = t :: xs) (ys : List Token) :
    ∃ e' c', program (TokenCursor.start (us ++ t :: ys)) = .error e' c' := by
  have hstart (zs : List Token) : (TokenCursor.start (us ++ t :: zs)).rest = us ++ [t] ++ zs := by
    simp [TokenCursor.start]
  have hruns := inStep_program.run (Nat.le_refl _) (hstart xs) (hstart ys)
  rw [h] at hruns
  generalize program (TokenCursor.start (us ++ t :: ys)) = s at hruns
  cases hruns with
  | error => exact ⟨_, _, rfl⟩
  | past hr _ =>
    have := hr.length_le
    rw [tokensLeft, hc, List.length_cons] at this
    omega

end Parser

end ProcMips
