import ProcMips.Proofs.Parse.Soundness

/-! What the grammar derives, the parser accepts, with the tree of the derivation. A rule needs to know
only which lexeme comes next: an expression is followed by no operator and no opening bracket, and what
can start a part is never what can stand behind the last one. -/

namespace ProcMips

open Grammar TokenClass

namespace Grammar

/-- What can follow a factor: nothing that would make it a call or an element. -/
def EndsFactor (ls : List Lexeme) : Prop :=
  ls.head? ≠ some (.symbol .leftParen) ∧ ls.head? ≠ some (.symbol .leftBracket)

/-- What can follow an expression: no operator either. -/
def EndsExpr (ls : List Lexeme) : Prop :=
  EndsFactor ls ∧ ls.head?.bind BinOp.ofLexeme? = none

theorem endsFactor_operator (op : BinOp) (ls : List Lexeme) : EndsFactor (op.lexeme :: ls) := by
  cases op <;> simp [EndsFactor, BinOp.lexeme]

theorem endsExpr_rightParen (ls : List Lexeme) : EndsExpr (.symbol .rightParen :: ls) := by
  simp [EndsExpr, EndsFactor, BinOp.ofLexeme?]

theorem endsExpr_rightBracket (ls : List Lexeme) : EndsExpr (.symbol .rightBracket :: ls) := by
  simp [EndsExpr, EndsFactor, BinOp.ofLexeme?]

theorem endsExpr_semicolon (ls : List Lexeme) : EndsExpr (.symbol .semicolon :: ls) := by
  simp [EndsExpr, EndsFactor, BinOp.ofLexeme?]

theorem endsExpr_comma (ls : List Lexeme) : EndsExpr (.symbol .comma :: ls) := by
  simp [EndsExpr, EndsFactor, BinOp.ofLexeme?]

/-- An expression is not empty, and does not start with a closing parenthesis. -/
theorem DerivesExpr.exists_cons {lv : Level} {ls : List Lexeme} {e : Expr}
    (h : DerivesExpr lv ls e) : ∃ l rest, ls = l :: rest ∧ l ≠ .symbol .rightParen := by
  induction h with
  | single _ ih => exact ih
  | operation op _ _ ih _ =>
    obtain ⟨l, rest, rfl, hl⟩ := ih
    exact ⟨l, _, rfl, hl⟩
  | _ => exact ⟨_, _, rfl, by simp⟩

theorem DerivesTarget.exists_cons {ls : List Lexeme} {target : Target} (h : DerivesTarget ls target) :
    ∃ x rest, ls = .name x :: rest := by
  cases h with
  | scalar x => exact ⟨x, [], rfl⟩
  | element x => exact ⟨x, _, rfl⟩

/-- A statement is not empty, and does not start with a closing brace. -/
theorem DerivesStmt.exists_cons {ls : List Lexeme} {s : Stmt} (h : DerivesStmt ls s) :
    ∃ l rest, ls = l :: rest ∧ l ≠ .symbol .rightBrace := by
  cases h with
  | assign ht _ => cases ht <;> exact ⟨_, _, rfl, by simp⟩
  | _ => exact ⟨_, _, rfl, by simp⟩

theorem length_le_joined {β : Type} {parts : List (List Lexeme × β)}
    (h : ∀ p ∈ parts, p.1 ≠ []) : parts.length ≤ (joined parts).length := by
  induction parts with
  | nil => exact Nat.le_refl 0
  | cons p parts ih =>
    rw [List.forall_mem_cons] at h
    have hp := List.length_pos_of_ne_nil h.1
    have ih := ih h.2
    simp only [joined, List.flatMap_cons, List.length_append, List.length_cons] at ih ⊢
    omega

theorem length_le_listed {β : Type} (parts : List (List Lexeme × β)) :
    parts.length ≤ (listed parts).length + 1 := by
  induction parts with
  | nil => exact Nat.zero_le _
  | cons p parts ih =>
    by_cases hne : parts = []
    · simp [hne]
    · rw [listed_cons hne, List.length_append, List.length_cons, List.length_cons]
      omega

/-- A part of a list with commas is no longer than the list. -/
theorem length_le_of_mem_listed {β : Type} {parts : List (List Lexeme × β)}
    {p : List Lexeme × β} (hp : p ∈ parts) : p.1.length ≤ (listed parts).length := by
  induction parts with
  | nil => cases hp
  | cons q parts ih =>
    by_cases hne : parts = []
    · subst hne
      rw [List.mem_singleton] at hp
      simp [hp, listed]
    · rw [listed_cons hne, List.length_append, List.length_cons]
      rcases List.mem_cons.1 hp with rfl | hp
      · omega
      · have := ih hp
        omega

theorem length_le_of_mem_joined {β : Type} {parts : List (List Lexeme × β)}
    {p : List Lexeme × β} (hp : p ∈ parts) : p.1.length ≤ (joined parts).length := by
  obtain ⟨before, after, rfl⟩ := List.append_of_mem hp
  simp only [joined, List.flatMap_append, List.flatMap_cons, List.length_append]
  omega

end Grammar

namespace Parser

section

variable {α β : Type} {f : α → β} {parts : List (List Lexeme × β)} {after : List Lexeme}

theorem reads_many {item : Parser (Option α)}
    (hitem : ∀ p ∈ parts, ∀ rest, Reads item p.1 rest fun r => ∃ a, r = some a ∧ f a = p.2)
    (hstop : Reads item [] after fun r => r = none) {n : Nat} (hn : parts.length < n) :
    Reads (many item n) (joined parts) after fun as => as.map f = parts.map Prod.snd := by
  induction parts generalizing n with
  | nil =>
    obtain ⟨n, rfl⟩ := Nat.exists_eq_succ_of_ne_zero (Nat.ne_zero_of_lt hn)
    apply hstop.bind_nil
    rintro _ rfl
    exact reads_pure rfl
  | cons p parts ih =>
    obtain ⟨n, rfl⟩ := Nat.exists_eq_succ_of_ne_zero (Nat.ne_zero_of_lt hn)
    rw [List.forall_mem_cons] at hitem
    refine Reads.bind (hitem.1 _) ?_
    rintro _ ⟨a, rfl, ha⟩
    refine Reads.bind_nil (ih hitem.2 (Nat.lt_of_succ_lt_succ hn)) fun as has => reads_pure ?_
    rw [List.map_cons, List.map_cons, ha, has]

theorem reads_commaList {item : Parser α} (hne : parts ≠ [])
    (hitem : ∀ p ∈ parts, ∀ l rest, l = .symbol .comma ∨ l = .symbol .rightParen →
      Reads item p.1 (l :: rest) fun a => f a = p.2) {n : Nat} (hn : parts.length ≤ n) :
    Reads (commaList item n) (listed parts) (.symbol .rightParen :: after) fun as =>
      as.map f = parts.map Prod.snd := by
  induction parts generalizing n with
  | nil => exact absurd rfl hne
  | cons p parts ih =>
    obtain ⟨n, rfl⟩ := Nat.exists_eq_succ_of_ne_zero (Nat.ne_zero_of_lt hn)
    rw [List.forall_mem_cons] at hitem
    by_cases hrest : parts = []
    · subst hrest
      have hp := hitem.1 (.symbol .rightParen) after (.inr rfl)
      rw [show listed [p] = p.1 by simp [listed]]
      refine hp.bind_nil fun a ha => reads_accept_none (only_symbol _) (by simp) (reads_pure ?_)
      rw [List.map_cons, ha]
      rfl
    · rw [listed_cons hrest]
      refine Reads.bind (hitem.1 _ _ (.inl rfl)) fun a ha => reads_accept (only_symbol _) fun _ => ?_
      refine Reads.bind_nil (ih hrest hitem.2 (Nat.le_of_succ_le_succ hn)) fun as has =>
        reads_pure ?_
      rw [List.map_cons, List.map_cons, ha, has]

end

/-- A parser that reads every expression of at most `n` lexemes. -/
def CompleteExpr (n : Nat) (expr : Parser Expr) : Prop :=
  ∀ ls e after, DerivesExpr .expression ls e → ls.length ≤ n → EndsExpr after →
    Reads expr ls after fun e' => e'.unlined = e

section

variable {expr : Parser Expr} {n : Nat} {after : List Lexeme}

theorem reads_argumentList (h : CompleteExpr n expr) {args : List (List Lexeme × Expr)}
    (hargs : ∀ a ∈ args, DerivesExpr .expression a.1 a.2) (hn : (listed args).length ≤ n) :
    Reads (argumentList expr) (parens (listed args)) after fun es =>
      es.map Expr.unlined = args.map Prod.snd := by
  refine (silent_enter _).reads_bind fun _ => reads_expect (only_symbol _) fun _ => ?_
  by_cases hne : args = []
  · subst hne
    exact reads_accept (only_symbol _) fun _ => reads_pure rfl
  · have hhead : (listed args ++ [Lexeme.symbol .rightParen] ++ after).head? ≠
        some (.symbol .rightParen) := by
      obtain ⟨a, args, rfl⟩ := List.exists_cons_of_ne_nil hne
      obtain ⟨l, rest, hl, hother⟩ := (hargs a List.mem_cons_self).exists_cons
      cases args <;> simp [listed, hl, hother]
    refine reads_accept_none (only_symbol _) hhead (Reads.bind
      (Q := fun es => es.map Expr.unlined = args.map Prod.snd) (reads_bounded fun m hm => ?_) ?_)
    · refine reads_commaList hne (fun a ha l rest hl => ?_) (n := m) ?_
      · refine h _ _ _ (hargs a ha) (Nat.le_trans (length_le_of_mem_listed ha) hn) ?_
        rcases hl with rfl | rfl
        · exact endsExpr_comma rest
        · exact endsExpr_rightParen rest
      · have := length_le_listed args
        rw [List.length_append] at hm
        simp only [List.cons_append, List.length_cons] at hm
        omega
    · exact fun es hes => reads_expect (only_symbol _) fun _ => reads_pure hes

theorem reads_factor (h : CompleteExpr n expr) {ls : List Lexeme} {e : Expr}
    (hd : DerivesExpr .factor ls e) (hn : ls.length ≤ n + 1) (hafter : EndsFactor after) :
    Reads (factor expr) ls after fun e' => e'.unlined = e := by
  refine (silent_enter _).reads_bind fun _ => silent_line.reads_bind fun l => reads_next? ?_
  cases hd with
  | true_ | false_ | literal => exact reads_advance (reads_pure rfl)
  | @parens ls e he =>
    have hlen : ls.length ≤ n := by simp [parens] at hn; omega
    refine reads_advance (Reads.bind (h _ _ _ he hlen (endsExpr_rightParen _)) fun e' he' => ?_)
    exact reads_expect (only_symbol _) fun _ => reads_pure he'
  | @not ls e he =>
    have hlen : ls.length ≤ n := by simp [parens] at hn; omega
    refine reads_advance (reads_expect (only_symbol _) fun _ => ?_)
    refine Reads.bind (h _ _ _ he hlen (endsExpr_rightParen _)) fun e' he' => ?_
    exact reads_expect (only_symbol _) fun _ => reads_pure (by rw [Expr.unlined, he'])
  | @call f args hargs =>
    have hlen : (listed args).length ≤ n := by simp [parens] at hn; omega
    refine (silent_enter _).reads_bind fun _ => reads_identifier fun _ => reads_sees ?_
    refine Reads.bind_nil (reads_argumentList h hargs hlen) fun es hes => reads_pure ?_
    rw [Expr.unlined, Expr.unlinedAll_eq_map, hes]
  | @element x ls index he =>
    have hlen : ls.length ≤ n := by simp [brackets] at hn; omega
    refine (silent_enter _).reads_bind fun _ => reads_identifier fun _ => reads_sees ?_
    refine reads_accept (only_symbol _) fun _ => ?_
    refine Reads.bind (h _ _ _ he hlen (endsExpr_rightBracket _)) fun e' he' => ?_
    exact reads_expect (only_symbol _) fun _ => reads_pure (by rw [Expr.unlined, he'])
  | scalar x =>
    have hparen : ((([] : List Lexeme) ++ after).head?.map Lexeme.tokenClass ==
        some (.symbol .leftParen)) = false := by
      rw [beq_eq_false_iff_ne, ne_eq, Option.map_eq_some_iff, List.nil_append]
      rintro ⟨l, hl, hclass⟩
      exact hafter.1 (hl.trans (congrArg some ((only_symbol _ l).1 hclass)))
    refine (silent_enter _).reads_bind fun _ => reads_identifier fun _ => reads_sees ?_
    rw [hparen]
    exact reads_accept_none (only_symbol _) hafter.2 (reads_pure rfl)

theorem completeExpr_operation (h : CompleteExpr n expr) : CompleteExpr (n + 1) (operation expr) := by
  intro ls e after hd hn hafter
  refine (silent_enter _).reads_bind fun _ => ?_
  cases hd with
  | single hd =>
    refine Reads.bind_nil (reads_factor h hd hn hafter.1) fun e' he' => ?_
    refine silent_line.reads_bind fun l => reads_next? ?_
    rw [List.nil_append, hafter.2]
    exact reads_pure he'
  | @operation op ls rs left right hl hr =>
    rw [List.length_append, List.length_cons] at hn
    obtain ⟨m, ms, rfl, -⟩ := hl.exists_cons
    rw [List.length_cons] at hn
    refine Reads.bind (reads_factor h hl (by rw [List.length_cons]; omega)
      (endsFactor_operator op _)) fun left' hleft => ?_
    refine silent_line.reads_bind fun l => reads_next? ?_
    have hop : ((op.lexeme :: rs) ++ after).head?.bind BinOp.ofLexeme? = some op :=
      BinOp.ofLexeme?_eq_some_iff.2 rfl
    rw [hop]
    refine reads_advance (Reads.bind_nil (h _ _ _ hr (by omega) hafter) fun right' hright => ?_)
    exact reads_pure (by rw [Expr.unlined, hleft, hright])

theorem completeExpr_expressionAt (n : Nat) : CompleteExpr n (expressionAt n) := by
  induction n with
  | zero =>
    intro ls e after hd hn
    obtain ⟨l, rest, rfl, -⟩ := hd.exists_cons
    exact absurd hn (Nat.not_succ_le_zero _)
  | succ n ih => exact completeExpr_operation ih

theorem completeExpr_expression (n : Nat) : CompleteExpr n expression := by
  intro ls e after hd _ hafter
  refine reads_bounded fun m hm => completeExpr_expressionAt m ls e after hd ?_ hafter
  rw [List.length_append] at hm
  omega

theorem reads_expression {ls : List Lexeme} {e : Expr} (hd : DerivesExpr .expression ls e)
    (hafter : EndsExpr after) : Reads expression ls after fun e' => e'.unlined = e :=
  completeExpr_expression _ ls e after hd (Nat.le_refl _) hafter

theorem reads_arraySize {ls : List Lexeme} {shape : Shape} (hd : DerivesShape ls shape)
    (hafter : after.head? ≠ some (.symbol .leftBracket)) :
    Reads arraySize ls after fun s => s = shape := by
  refine (silent_enter _).reads_bind fun _ => ?_
  cases hd with
  | single => exact reads_accept_none (only_symbol _) hafter (reads_pure rfl)
  | array n hpos =>
    refine reads_accept (only_symbol _) fun _ => reads_next? ?_
    dsimp only [List.cons_append, List.head?_cons]
    rw [if_pos (Int.natCast_pos.2 hpos)]
    exact reads_advance (reads_expect (only_symbol _) fun _ => reads_pure rfl)

theorem reads_targetOf {x : String} {ls : List Lexeme} {target : Target}
    (hd : DerivesTarget (.name x :: ls) target)
    (hafter : after.head? ≠ some (.symbol .leftBracket)) :
    Reads (targetOf x) ls after fun t => t.unlined = target := by
  refine (silent_enter _).reads_bind fun _ => ?_
  cases hd with
  | scalar => exact reads_accept_none (only_symbol _) hafter (reads_pure rfl)
  | element _ hi =>
    refine reads_accept (only_symbol _) fun _ => ?_
    refine Reads.bind (reads_expression hi (endsExpr_rightBracket _)) fun index hindex => ?_
    exact reads_expect (only_symbol _) fun _ => reads_pure (by rw [Target.unlined, hindex])

theorem reads_condition {ls : List Lexeme} {e : Expr} (hd : DerivesExpr .expression ls e) :
    Reads condition (parens ls) after fun e' => e'.unlined = e := by
  refine reads_expect (only_symbol _) fun _ => ?_
  refine Reads.bind (reads_expression hd (endsExpr_rightParen _)) fun e' he' => ?_
  exact reads_expect (only_symbol _) fun _ => reads_pure he'

/-- A parser that reads every statement of at most `n` lexemes. -/
def CompleteStmt (n : Nat) (stmt : Parser Stmt) : Prop :=
  ∀ ls s after, DerivesStmt ls s → ls.length ≤ n → Reads stmt ls after fun s' => s'.unlined = s

theorem reads_callInstruction (f : String) {args : List (List Lexeme × Expr)}
    (hargs : ∀ a ∈ args, DerivesExpr .expression a.1 a.2) :
    Reads idInstruction (.name f :: parens (listed args) ++ [.symbol .semicolon]) after fun s =>
      s.unlined = .call 0 f (args.map Prod.snd) := by
  refine (silent_enter _).reads_bind fun _ => reads_identifier fun _ => reads_sees ?_
  refine Reads.bind (reads_argumentList (completeExpr_expression _) hargs (Nat.le_refl _))
    fun es hes => ?_
  refine reads_expect (only_symbol _) fun _ => reads_pure ?_
  rw [Stmt.unlined, Expr.unlinedAll_eq_map, hes]

theorem reads_assignment {x : String} {ts vs : List Lexeme} {target : Target} {value : Expr}
    (ht : DerivesTarget (.name x :: ts) target) (hv : DerivesExpr .expression vs value) :
    Reads idInstruction (.name x :: (ts ++ .symbol .assign :: (vs ++ [.symbol .semicolon]))) after
      fun s => s.unlined = .assign 0 target value := by
  refine (silent_enter _).reads_bind fun _ => reads_identifier fun _ => reads_sees ?_
  have hparen : ((ts ++ Lexeme.symbol .assign :: (vs ++ [.symbol .semicolon]) ++ after).head?.map
      Lexeme.tokenClass == some (.symbol .leftParen)) = false := by
    cases ht <;> simp [brackets, Lexeme.tokenClass]
  rw [hparen]
  refine Reads.bind (reads_targetOf ht (by simp)) fun target' htarget => ?_
  refine reads_accept (only_symbol _) fun _ => ?_
  refine Reads.bind (reads_expression hv (endsExpr_semicolon _)) fun value' hvalue => ?_
  refine reads_expect (only_symbol _) fun _ => reads_pure ?_
  rw [Stmt.unlined, htarget, hvalue]

theorem reads_inputInstruction {x : String} {ts : List Lexeme} {target : Target}
    (ht : DerivesTarget (.name x :: ts) target) :
    Reads inputInstruction (.keyword .input :: parens (.name x :: ts) ++ [.symbol .semicolon]) after
      fun s => s.unlined = .input 0 target := by
  simp only [parens, List.cons_append, List.append_assoc]
  refine (silent_enter _).reads_bind fun _ => reads_expect (only_keyword _) fun _ => ?_
  refine reads_expect (only_symbol _) fun _ => reads_identifier fun _ => ?_
  refine Reads.bind (reads_targetOf ht (by simp)) fun target' htarget => ?_
  refine reads_expect (only_symbol _) fun _ => reads_expect (only_symbol _) fun _ => reads_pure ?_
  rw [Stmt.unlined, htarget]

theorem reads_outputInstruction {vs : List Lexeme} {value : Expr}
    (hv : DerivesExpr .expression vs value) :
    Reads outputInstruction (.keyword .output :: parens vs ++ [.symbol .semicolon]) after fun s =>
      s.unlined = .output 0 value := by
  refine (silent_enter _).reads_bind fun _ => reads_expect (only_keyword _) fun _ => ?_
  refine Reads.bind (reads_condition hv) fun value' hvalue => ?_
  exact reads_expect (only_symbol _) fun _ => reads_pure (by rw [Stmt.unlined, hvalue])

theorem reads_returnInstruction {vs : List Lexeme} {value : Expr}
    (hv : DerivesExpr .expression vs value) :
    Reads returnInstruction (.keyword .return_ :: vs ++ [.symbol .semicolon]) after fun s =>
      s.unlined = .ret 0 value := by
  refine (silent_enter _).reads_bind fun _ => reads_expect (only_keyword _) fun _ => ?_
  refine Reads.bind (reads_expression hv (endsExpr_semicolon _)) fun value' hvalue => ?_
  exact reads_expect (only_symbol _) fun _ => reads_pure (by rw [Stmt.unlined, hvalue])

theorem reads_declaration (x : String) {ss : List Lexeme} {shape : Shape} (hs : DerivesShape ss shape) :
    Reads declaration (.keyword .int :: .name x :: ss ++ [.symbol .semicolon]) after fun s =>
      s.unlined = .declare 0 x shape := by
  refine (silent_enter _).reads_bind fun _ => reads_expect (only_keyword _) fun _ => ?_
  refine reads_identifier fun _ => Reads.bind (reads_arraySize hs (by simp)) ?_
  rintro _ rfl
  exact reads_expect (only_symbol _) fun _ => reads_pure rfl

section

variable {stmt : Parser Stmt} (h : CompleteStmt n stmt)

include h

theorem reads_ifThen {cs ys : List Lexeme} {cond : Expr} {yes : Stmt}
    (hc : DerivesExpr .expression cs cond) (hy : DerivesStmt ys yes) (hn : ys.length ≤ n) :
    Reads (ifInstruction stmt) (.keyword .if_ :: parens cs ++ ys ++ [.keyword .endif]) after fun s =>
      s.unlined = .ifThen 0 cond yes := by
  rw [List.append_assoc]
  refine (silent_enter _).reads_bind fun _ => reads_expect (only_keyword _) fun _ => ?_
  refine Reads.bind (reads_condition hc) fun cond' hcond => ?_
  refine Reads.bind (h _ _ _ hy hn) fun yes' hyes => ?_
  refine reads_accept_none (only_keyword _) (by simp) (reads_accept (only_keyword _) fun _ => ?_)
  exact reads_pure (by rw [Stmt.unlined, hcond, hyes])

theorem reads_ifElse {cs ys ns : List Lexeme} {cond : Expr} {yes no : Stmt}
    (hc : DerivesExpr .expression cs cond) (hy : DerivesStmt ys yes) (hno : DerivesStmt ns no)
    (hny : ys.length ≤ n) (hnn : ns.length ≤ n) :
    Reads (ifInstruction stmt)
      (.keyword .if_ :: parens cs ++ ys ++ .keyword .else_ :: ns ++ [.keyword .endif]) after fun s =>
      s.unlined = .ifElse 0 cond yes no := by
  simp only [List.cons_append, List.append_assoc]
  refine (silent_enter _).reads_bind fun _ => reads_expect (only_keyword _) fun _ => ?_
  refine Reads.bind (reads_condition hc) fun cond' hcond => ?_
  refine Reads.bind (h _ _ _ hy hny) fun yes' hyes => ?_
  refine reads_accept (only_keyword _) fun _ => ?_
  refine Reads.bind (h _ _ _ hno hnn) fun no' hno' => ?_
  refine reads_expect (only_keyword _) fun _ => reads_pure ?_
  rw [Stmt.unlined, hcond, hyes, hno']

theorem reads_whileInstruction {cs bs : List Lexeme} {cond : Expr} {body : Stmt}
    (hc : DerivesExpr .expression cs cond) (hb : DerivesStmt bs body) (hn : bs.length ≤ n) :
    Reads (whileInstruction stmt) (.keyword .while_ :: parens cs ++ bs) after fun s =>
      s.unlined = .loop 0 cond body := by
  refine (silent_enter _).reads_bind fun _ => reads_expect (only_keyword _) fun _ => ?_
  refine Reads.bind (reads_condition hc) fun cond' hcond => ?_
  refine Reads.bind_nil (h _ _ _ hb hn) fun body' hbody => ?_
  exact reads_pure (by rw [Stmt.unlined, hcond, hbody])

theorem reads_blockItem {ls : List Lexeme} {s : Stmt} (hd : DerivesStmt ls s) (hn : ls.length ≤ n) :
    Reads (blockItem stmt) ls after fun r => ∃ s', r = some s' ∧ s'.unlined = s := by
  obtain ⟨l, rest, rfl, hl⟩ := hd.exists_cons
  refine reads_next? ?_
  rw [List.cons_append, List.head?_cons]
  split
  · next hnone => cases hnone
  · next hbrace => exact absurd (Option.some.inj hbrace) hl
  · exact Reads.bind_nil (h _ _ _ hd hn) fun s' hs' => reads_pure ⟨s', rfl, hs'⟩

theorem reads_block {body : List (List Lexeme × Stmt)} (hbody : ∀ s ∈ body, DerivesStmt s.1 s.2)
    (hn : (joined body).length ≤ n) :
    Reads (block stmt) (.symbol .leftBrace :: joined body ++ [.symbol .rightBrace]) after fun s =>
      s.unlined = .block 0 (body.map Prod.snd) := by
  refine (silent_enter _).reads_bind fun _ => reads_expect (only_symbol _) fun _ => ?_
  refine Reads.bind (reads_bounded fun m hm => reads_many (f := Stmt.unlined)
    (fun s hs rest => reads_blockItem h (hbody s hs) ?_) ?_ ?_) fun body' hbody' => ?_
  · exact Nat.le_trans (length_le_of_mem_joined hs) hn
  · exact reads_next? (reads_pure rfl)
  · have := length_le_joined fun s hs => by
      obtain ⟨l, rest, hl, -⟩ := (hbody s hs).exists_cons
      exact hl ▸ List.cons_ne_nil l rest
    rw [List.length_append] at hm
    omega
  · refine reads_expect (only_symbol _) fun _ => reads_pure ?_
    rw [Stmt.unlined, Stmt.unlinedAll_eq_map, hbody']

/-- The first lexeme tells which kind of statement follows. -/
theorem completeStmt_instruction : CompleteStmt (n + 1) (instruction stmt) := by
  intro ls s after hd hn
  refine (silent_enter _).reads_bind fun _ => reads_next? ?_
  cases hd with
  | call f hargs => exact reads_callInstruction f hargs
  | assign ht hv =>
    obtain ⟨x, rest, rfl⟩ := ht.exists_cons
    simp only [List.cons_append, List.append_assoc, List.head?_cons]
    exact reads_assignment ht hv
  | ifThen hc hy =>
    simp only [List.length_append, List.length_cons, parens] at hn
    exact reads_ifThen h hc hy (by omega)
  | ifElse hc hy hno =>
    simp only [List.length_append, List.length_cons, parens] at hn
    exact reads_ifElse h hc hy hno (by omega) (by omega)
  | loop hc hb =>
    simp only [List.length_append, List.length_cons, parens] at hn
    exact reads_whileInstruction h hc hb (by omega)
  | output hv => exact reads_outputInstruction hv
  | input ht =>
    obtain ⟨x, rest, rfl⟩ := ht.exists_cons
    exact reads_inputInstruction ht
  | block hbody =>
    simp only [List.length_append, List.length_cons] at hn
    exact reads_block h hbody (by omega)
  | ret hv => exact reads_returnInstruction hv
  | declare x hs => exact reads_declaration x hs

end

theorem completeStmt_statementAt (n : Nat) : CompleteStmt n (statementAt n) := by
  induction n with
  | zero =>
    intro ls s after hd hn
    obtain ⟨l, rest, rfl, -⟩ := hd.exists_cons
    exact absurd hn (Nat.not_succ_le_zero _)
  | succ n ih => exact completeStmt_instruction ih

theorem reads_statement {ls : List Lexeme} {s : Stmt} (hd : DerivesStmt ls s) :
    Reads statement ls after fun s' => s'.unlined = s := by
  refine reads_bounded fun m hm => completeStmt_statementAt m ls s after hd ?_
  rw [List.length_append] at hm
  omega

theorem reads_global? {ls : List Lexeme} {g : Global} (hd : DerivesGlobal ls g) :
    Reads global? ls after fun r => ∃ g', r = some g' ∧ g'.unlined = g := by
  refine (silent_enter _).reads_bind fun _ => ?_
  cases hd with
  | mk x hs =>
    simp only [List.cons_append]
    refine reads_accept (only_keyword _) fun _ => reads_expect (only_keyword _) fun _ => ?_
    refine reads_identifier fun _ => Reads.bind (reads_arraySize hs (by simp)) ?_
    rintro _ rfl
    refine reads_expect (only_symbol _) fun _ => (silent_note _).reads_bind fun _ => ?_
    exact reads_pure ⟨_, rfl, rfl⟩

theorem reads_parameterList (params : List String) :
    Reads parameterList (parens (listed (params.map paramPart))) after fun ps =>
      ps.map Param.unlined = params.map fun x => ⟨0, x⟩ := by
  refine (silent_enter _).reads_bind fun _ => reads_expect (only_symbol _) fun _ => ?_
  cases params with
  | nil => exact reads_accept (only_symbol _) fun _ => reads_pure rfl
  | cons x xs =>
    have hhead : (listed ((x :: xs).map paramPart) ++ [Lexeme.symbol .rightParen] ++ after).head? ≠
        some (.symbol .rightParen) := by
      cases xs <;> simp [listed, paramPart]
    refine reads_accept_none (only_symbol _) hhead (Reads.bind
      (Q := fun ps => ps.map Param.unlined = ((x :: xs).map paramPart).map Prod.snd)
      (reads_bounded fun m hm => ?_) ?_)
    · refine reads_commaList (f := Param.unlined) (by simp) (fun p hp l rest _ => ?_) (n := m) ?_
      · obtain ⟨y, -, rfl⟩ := List.mem_map.1 hp
        exact reads_expect (only_keyword _) fun _ => reads_identifier fun _ => reads_pure rfl
      · have := length_le_listed ((x :: xs).map paramPart)
        rw [List.length_append] at hm
        simp only [List.cons_append, List.length_cons] at hm
        omega
    · refine fun ps hps => reads_expect (only_symbol _) fun _ => reads_pure ?_
      rw [hps, List.map_map]
      rfl

theorem reads_procedure? {ls : List Lexeme} {p : Procedure} (hd : DerivesProcedure ls p) :
    Reads procedure? ls after fun r => ∃ p', r = some p' ∧ p'.unlined = p := by
  refine (silent_enter _).reads_bind fun _ => ?_
  cases hd with
  | mk f params hb =>
    simp only [List.cons_append]
    refine reads_accept (only_keyword _) fun _ => reads_expect (only_keyword _) fun _ => ?_
    refine reads_identifier fun _ => Reads.bind (reads_parameterList params) fun ps hps => ?_
    refine Reads.bind_nil (reads_statement hb) fun body hbody => ?_
    refine (silent_note _).reads_bind fun _ => reads_pure ⟨_, rfl, ?_⟩
    rw [Procedure.unlined, hps, hbody]

/-- A list of procedures that is not empty starts with the word `procedure`. -/
theorem head?_joined_procedures {procedures : List (List Lexeme × Procedure)}
    (hp : ∀ p ∈ procedures, DerivesProcedure p.1 p.2) (hne : procedures ≠ []) :
    (joined procedures).head? = some (.keyword .procedure) := by
  obtain ⟨⟨ls, p⟩, rest, rfl⟩ := List.exists_cons_of_ne_nil hne
  have hd : DerivesProcedure ls p := hp (ls, p) List.mem_cons_self
  cases hd with
  | mk => rfl

theorem reads_program {ls : List Lexeme} {p : Program} (hd : DerivesProgram ls p) :
    Reads program ls [] fun q => q.unlined = p := by
  cases hd with
  | @mk globals procedures hg hp hne =>
    have hhead := head?_joined_procedures hp hne
    obtain ⟨ps, hps⟩ := List.head?_eq_some_iff.1 hhead
    refine reads_next? ?_
    rw [if_neg (by simp [hps])]
    refine Reads.bind (reads_bounded fun m hm => reads_many (f := Global.unlined)
      (fun g hg' rest => reads_global? (hg g hg')) ?_ ?_) fun globals' hglobals => ?_
    · refine (silent_enter _).reads_bind fun _ => ?_
      exact reads_accept_none (only_keyword _) (by simp [hps]) (reads_pure rfl)
    · have := length_le_joined fun g hg' => by
        have hd := hg g hg'
        revert hd
        rcases g with ⟨gs, g⟩
        rintro ⟨⟩
        simp
      rw [List.length_append] at hm
      omega
    apply reads_sees
    rw [List.append_nil, hhead, if_pos (by rfl)]
    refine Reads.bind_nil (reads_bounded fun m hm => reads_many (f := Procedure.unlined)
      (fun p hp' rest => reads_procedure? (hp p hp')) ?_ ?_) fun procedures' hprocedures => ?_
    · refine (silent_enter _).reads_bind fun _ => ?_
      exact reads_accept_none (only_keyword _) (by simp) (reads_pure rfl)
    · have := length_le_joined fun p hp' => by
        have hd := hp p hp'
        revert hd
        rcases p with ⟨ps, p⟩
        rintro ⟨⟩
        simp
      rw [List.length_append] at hm
      omega
    · refine reads_next? (reads_pure ?_)
      rw [Program.unlined, hglobals, hprocedures]

end

end Parser

end ProcMips
