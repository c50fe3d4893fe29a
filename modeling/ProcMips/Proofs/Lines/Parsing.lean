import ProcMips.Parse.Program
import ProcMips.Proofs.Lines.Reading

/-! Parsing does not look at lines: each rule, given parsers for its parts that do not. -/

namespace ProcMips

namespace Parser

/-- A parser for expressions that does not look at lines. -/
abbrev BlindExpr (expr : Parser Expr) : Prop := Blind Expr.unlined expr

section

variable {expr : Parser Expr}

theorem blind_argumentList (h : BlindExpr expr) :
    Blind (List.map Expr.unlined) (argumentList expr) := by
  refine (blind_enter _).bind_eq fun _ => (blind_expect _).bind fun _ _ _ => ?_
  refine alike_accept (fun _ _ => alike_pure rfl) ?_
  refine (Alike.bounded (blind_commaList h)).bind fun as bs hs => ?_
  exact (blind_expect _).bind fun _ _ _ => alike_pure hs

theorem blind_identifierOrCall (h : BlindExpr expr) : BlindExpr (identifierOrCall expr) := by
  refine (blind_enter _).bind_eq fun _ => alike_identifier fun l l' x => ?_
  refine (blind_sees _).bind_eq fun call => ?_
  split_ifs
  · refine (blind_argumentList h).bind fun as bs hs => alike_pure ?_
    rw [Expr.unlined, Expr.unlined, Expr.unlinedAll_eq_map, Expr.unlinedAll_eq_map, hs]
  · refine alike_accept (fun _ _ => ?_) (alike_pure rfl)
    refine h.bind fun i j hi => (blind_expect _).bind fun _ _ _ => alike_pure ?_
    rw [Expr.unlined, Expr.unlined, hi]

theorem blind_factor (h : BlindExpr expr) : BlindExpr (factor expr) := by
  refine (blind_enter _).bind_eq fun _ => blind_line.bind fun l l' _ => ?_
  refine blind_next?.bind_eq fun next => ?_
  split
  · exact blind_advance.bind_eq fun _ => alike_pure rfl
  · exact blind_advance.bind_eq fun _ => alike_pure rfl
  · refine blind_advance.bind_eq fun _ => h.bind fun a b hab => ?_
    exact (blind_expect _).bind fun _ _ _ => alike_pure hab
  · refine blind_advance.bind_eq fun _ => (blind_expect _).bind fun _ _ _ => ?_
    refine h.bind fun a b hab => (blind_expect _).bind fun _ _ _ => alike_pure ?_
    rw [Expr.unlined, Expr.unlined, hab]
  · exact blind_advance.bind_eq fun _ => alike_pure rfl
  · exact blind_identifierOrCall h
  · exact alike_fail _

theorem blind_operation (h : BlindExpr expr) : BlindExpr (operation expr) := by
  refine (blind_enter _).bind_eq fun _ => (blind_factor h).bind fun a b hab => ?_
  refine blind_line.bind fun l l' _ => blind_next?.bind_eq fun next => ?_
  split
  · refine blind_advance.bind_eq fun _ => h.bind fun a' b' hab' => alike_pure ?_
    rw [Expr.unlined, Expr.unlined, hab, hab']
  · exact alike_pure hab

theorem blind_expressionAt (n : Nat) : BlindExpr (expressionAt n) := by
  induction n with
  | zero => exact blind_next?.bind_eq fun _ => alike_fail _
  | succ n ih => exact blind_operation ih

theorem blind_expression : BlindExpr expression := .bounded blind_expressionAt

end

theorem blind_arraySize : Blind id arraySize := by
  refine (blind_enter _).bind_eq fun _ => alike_accept (fun _ _ => ?_) (alike_pure rfl)
  refine blind_next?.bind_eq fun next => ?_
  split
  · split_ifs
    · exact blind_advance.bind_eq fun _ => (blind_expect _).bind fun _ _ _ => alike_pure rfl
    · exact alike_fail _
  · exact alike_fail _

theorem blind_targetOf (x : String) : Blind Target.unlined (targetOf x) := by
  refine (blind_enter _).bind_eq fun _ => alike_accept (fun _ _ => ?_) (alike_pure rfl)
  refine blind_expression.bind fun i j hi => (blind_expect _).bind fun _ _ _ => alike_pure ?_
  rw [Target.unlined, Target.unlined, hi]

theorem blind_condition : BlindExpr condition :=
  (blind_expect _).bind fun _ _ _ => blind_expression.bind fun _ _ hab =>
    (blind_expect _).bind fun _ _ _ => alike_pure hab

/-- A parser for statements that does not look at lines. -/
abbrev BlindStmt (stmt : Parser Stmt) : Prop := Blind Stmt.unlined stmt

theorem blind_idInstruction : BlindStmt idInstruction := by
  refine (blind_enter _).bind_eq fun _ => alike_identifier fun l l' x => ?_
  refine (blind_sees _).bind_eq fun call => ?_
  split_ifs
  · refine (blind_argumentList blind_expression).bind fun as bs hs => ?_
    refine (blind_expect _).bind fun _ _ _ => alike_pure ?_
    rw [Stmt.unlined, Stmt.unlined, Expr.unlinedAll_eq_map, Expr.unlinedAll_eq_map, hs]
  · refine (blind_targetOf x).bind fun t u ht => alike_accept (fun _ _ => ?_) ?_
    · refine blind_expression.bind fun a b hab => (blind_expect _).bind fun _ _ _ => alike_pure ?_
      rw [Stmt.unlined, Stmt.unlined, ht, hab]
    · exact blind_next?.bind_eq fun _ => alike_fail _

theorem blind_outputInstruction : BlindStmt outputInstruction := by
  refine (blind_enter _).bind_eq fun _ => (blind_expect _).bind fun _ _ _ => ?_
  refine blind_condition.bind fun a b hab => (blind_expect _).bind fun _ _ _ => alike_pure ?_
  rw [Stmt.unlined, Stmt.unlined, hab]

theorem blind_inputInstruction : BlindStmt inputInstruction := by
  refine (blind_enter _).bind_eq fun _ => (blind_expect _).bind fun _ _ _ => ?_
  refine (blind_expect _).bind fun _ _ _ => alike_identifier fun _ _ x => ?_
  refine (blind_targetOf x).bind fun t u ht => (blind_expect _).bind fun _ _ _ => ?_
  refine (blind_expect _).bind fun _ _ _ => alike_pure ?_
  rw [Stmt.unlined, Stmt.unlined, ht]

theorem blind_returnInstruction : BlindStmt returnInstruction := by
  refine (blind_enter _).bind_eq fun _ => (blind_expect _).bind fun _ _ _ => ?_
  refine blind_expression.bind fun a b hab => (blind_expect _).bind fun _ _ _ => alike_pure ?_
  rw [Stmt.unlined, Stmt.unlined, hab]

theorem blind_declaration : BlindStmt declaration := by
  refine (blind_enter _).bind_eq fun _ => (blind_expect _).bind fun _ _ _ => ?_
  refine alike_identifier fun _ _ x => blind_arraySize.bind_eq fun shape => ?_
  exact (blind_expect _).bind fun _ _ _ => alike_pure rfl

section

variable {stmt : Parser Stmt}

theorem blind_ifInstruction (h : BlindStmt stmt) : BlindStmt (ifInstruction stmt) := by
  refine (blind_enter _).bind_eq fun _ => (blind_expect _).bind fun _ _ _ => ?_
  refine blind_condition.bind fun a b hc => h.bind fun s t hy => alike_accept (fun _ _ => ?_) ?_
  · refine h.bind fun s' t' hn => (blind_expect _).bind fun _ _ _ => alike_pure ?_
    rw [Stmt.unlined, Stmt.unlined, hc, hy, hn]
  · refine alike_accept (fun _ _ => alike_pure ?_) (blind_next?.bind_eq fun _ => alike_fail _)
    rw [Stmt.unlined, Stmt.unlined, hc, hy]

theorem blind_whileInstruction (h : BlindStmt stmt) : BlindStmt (whileInstruction stmt) := by
  refine (blind_enter _).bind_eq fun _ => (blind_expect _).bind fun _ _ _ => ?_
  refine blind_condition.bind fun a b hc => h.bind fun s t hb => alike_pure ?_
  rw [Stmt.unlined, Stmt.unlined, hc, hb]

theorem blind_blockItem (h : BlindStmt stmt) : Blind (Option.map Stmt.unlined) (blockItem stmt) := by
  refine blind_next?.bind_eq fun next => ?_
  split
  · exact alike_pure rfl
  · exact alike_pure rfl
  · exact h.bind fun s t hst => alike_pure (congrArg some hst)

theorem blind_block (h : BlindStmt stmt) : BlindStmt (block stmt) := by
  refine (blind_enter _).bind_eq fun _ => (blind_expect _).bind fun _ _ _ => ?_
  refine (Alike.bounded (blind_many (blind_blockItem h))).bind fun ss ts hs => ?_
  refine (blind_expect _).bind fun _ _ _ => alike_pure ?_
  rw [Stmt.unlined, Stmt.unlined, Stmt.unlinedAll_eq_map, Stmt.unlinedAll_eq_map, hs]

theorem blind_instruction (h : BlindStmt stmt) : BlindStmt (instruction stmt) := by
  refine (blind_enter _).bind_eq fun _ => blind_next?.bind_eq fun next => ?_
  split
  · exact blind_idInstruction
  · exact blind_ifInstruction h
  · exact blind_whileInstruction h
  · exact blind_outputInstruction
  · exact blind_inputInstruction
  · exact blind_block h
  · exact blind_returnInstruction
  · exact blind_declaration
  · exact alike_fail _

end

theorem blind_statementAt (n : Nat) : BlindStmt (statementAt n) := by
  induction n with
  | zero => exact blind_next?.bind_eq fun _ => alike_fail _
  | succ n ih => exact blind_instruction ih

theorem blind_statement : BlindStmt statement := .bounded blind_statementAt

theorem blind_global? : Blind (Option.map Global.unlined) global? := by
  refine (blind_enter _).bind_eq fun _ => alike_accept (fun _ _ => ?_) (alike_pure rfl)
  refine (blind_expect _).bind fun _ _ _ => alike_identifier fun _ _ x => ?_
  refine blind_arraySize.bind_eq fun shape => (blind_expect _).bind fun _ _ _ => ?_
  exact (blind_note _).bind_eq fun _ => alike_pure rfl

theorem blind_param : Blind Param.unlined param :=
  (blind_expect _).bind fun _ _ _ => alike_identifier fun _ _ _ => alike_pure rfl

theorem blind_parameterList : Blind (List.map Param.unlined) parameterList := by
  refine (blind_enter _).bind_eq fun _ => (blind_expect _).bind fun _ _ _ => ?_
  refine alike_accept (fun _ _ => alike_pure rfl) ?_
  refine (Alike.bounded (blind_commaList blind_param)).bind fun ps qs hs => ?_
  exact (blind_expect _).bind fun _ _ _ => alike_pure hs

theorem blind_procedure? : Blind (Option.map Procedure.unlined) procedure? := by
  refine (blind_enter _).bind_eq fun _ => alike_accept (fun _ _ => ?_) (alike_pure rfl)
  refine (blind_expect _).bind fun _ _ _ => alike_identifier fun _ _ x => ?_
  refine blind_parameterList.bind fun ps qs hp => blind_statement.bind fun s t hb => ?_
  refine (blind_note _).bind_eq fun _ => alike_pure ?_
  rw [Option.map_some, Option.map_some, Procedure.unlined, Procedure.unlined, hp, hb]

theorem blind_program : Blind Program.unlined program := by
  unfold program
  refine blind_next?.bind_eq fun next => ?_
  split_ifs
  · exact alike_fail_bind _
  refine (Alike.bounded (blind_many blind_global?)).bind fun gs gs' hg => ?_
  refine (blind_sees _).bind_eq fun more => ?_
  split_ifs
  · refine (Alike.bounded (blind_many blind_procedure?)).bind fun ps ps' hp => ?_
    refine blind_next?.bind_eq fun next => ?_
    split_ifs
    · exact blind_next?.bind_eq fun _ => alike_fail_bind _
    · exact alike_pure (by rw [Program.unlined, Program.unlined, hg, hp])
  · exact blind_next?.bind_eq fun _ => alike_fail_bind _

end Parser

/-- Tokens that differ in their lines only are no program for the same cause, or they are programs that
differ in their lines only. -/
theorem parse_blind {ts us : List Token} (h : ts.map Token.lexeme = us.map Token.lexeme) :
    (∃ e e', parse ts = .error e ∧ parse us = .error e' ∧ e.cause = e'.cause) ∨
      ∃ p q, parse ts = .ok p ∧ parse us = .ok q ∧ p.unlined = q.unlined := by
  have hprogram := Parser.blind_program (.start ts) (.start us) h
  unfold parse parseNoting
  revert hprogram
  generalize Parser.program (.start ts) = x
  generalize Parser.program (.start us) = y
  rintro (⟨hp, -⟩ | he)
  · exact .inr ⟨_, _, rfl, rfl, hp⟩
  · exact .inl ⟨_, _, rfl, rfl, he⟩

end ProcMips
