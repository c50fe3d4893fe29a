import ProcMips.Proofs.Parse.Phrases
import ProcMips.Proofs.Parse.Reading

/-! What the parser reads is a phrase, with the lines of its tokens, and what it reads before it fails is
the start of one. Each rule of the parser, given that the parsers for its parts are sound, reads a phrase
of its own. -/

namespace ProcMips

open Grammar TokenClass

theorem BinOp.ofLexeme?_eq_some_iff {l : Lexeme} {op : BinOp} :
    BinOp.ofLexeme? l = some op ↔ l = op.lexeme := by
  constructor
  · intro h
    unfold BinOp.ofLexeme? at h
    split at h <;> cases h <;> rfl
  · rintro rfl
    cases op <;> rfl

/-- The next token, if its lexeme is known. -/
theorem eq_cons_of_head?_lexeme {ts : List Token} {l : Lexeme}
    (h : ts.head?.map Token.lexeme = some l) : ∃ n rest, ts = ⟨n, l⟩ :: rest := by
  obtain ⟨t, ht, rfl⟩ := Option.map_eq_some_iff.1 h
  obtain ⟨rest, rfl⟩ := List.head?_eq_some_iff.1 ht
  exact ⟨t.line, rest, rfl⟩

namespace Parser

section

variable {α : Type} {D : List Token → α → Prop}

/-- Phrases of `D`, one behind the other. -/
def Joins (D : List Token → α → Prop) (ts : List Token) (as : List α) : Prop :=
  ∃ parts : List (List Token × α), (∀ p ∈ parts, D p.1 p.2) ∧ ts = parts.flatMap Prod.fst ∧
    as = parts.map Prod.snd

/-- Phrases of `D` with commas between them. -/
def Lists (D : List Token → α → Prop) (ts : List Token) (as : List α) : Prop :=
  ∃ parts : List (List Token × α), (∀ p ∈ parts, D p.1 p.2) ∧ Listed (parts.map Prod.fst) ts ∧
    as = parts.map Prod.snd

theorem joins_nil : Joins D [] [] := ⟨[], by simp, rfl, rfl⟩

theorem Joins.cons {us vs : List Token} {a : α} {as : List α} (ha : D us a) (h : Joins D vs as) :
    Joins D (us ++ vs) (a :: as) := by
  obtain ⟨parts, hparts, rfl, rfl⟩ := h
  exact ⟨(us, a) :: parts, List.forall_mem_cons.2 ⟨ha, hparts⟩, rfl, rfl⟩

theorem lists_nil : Lists D [] [] := ⟨[], by simp, .nil, rfl⟩

theorem lists_single {us : List Token} {a : α} (ha : D us a) : Lists D us [a] :=
  ⟨[(us, a)], by simpa using ha, .single us, rfl⟩

theorem Lists.cons {us vs : List Token} {a : α} {as : List α} (comma : Line) (ha : D us a)
    (h : Lists D vs as) (hne : as ≠ []) :
    Lists D (us ++ ⟨comma, .symbol .comma⟩ :: vs) (a :: as) := by
  obtain ⟨_ | ⟨p, parts⟩, hparts, hlisted, rfl⟩ := h
  · exact absurd rfl hne
  · exact ⟨(us, a) :: p :: parts, List.forall_mem_cons.2 ⟨ha, hparts⟩, .cons comma hlisted, rfl⟩

theorem sound_many {item : Parser (Option α)}
    (h : Sound item fun us r => r.elim (us = []) (D us)) (n : Nat) :
    Sound (many item n) (Joins D) := by
  induction n with
  | zero => exact fun ts => soundAt_pure joins_nil
  | succ n ih =>
    intro ts
    refine (h ts).bind fun us rest r hr => ?_
    cases r with
    | none =>
      obtain rfl : us = [] := hr
      exact soundAt_pure joins_nil
    | some a =>
      exact (ih rest).map fun vs as has => has.cons hr

/-- A list with commas does not run out of its bound, since every comma is a token. -/
theorem soundAt_commaList {item : Parser α} (h : Sound item D) {n : Nat} {ts : List Token}
    (hn : ts.length < n) : SoundAt (commaList item n) ts fun us as => Lists D us as ∧ as ≠ [] := by
  induction n generalizing ts with
  | zero => exact absurd hn (Nat.not_lt_zero _)
  | succ n ih =>
    refine (h ts).bind_of (fun us a ha => ⟨[], [a], ?_⟩) fun us rest a hts ha => ?_
    · rw [List.append_nil]
      exact ⟨lists_single ha, by simp⟩
    · refine soundAt_accept (only_symbol _) ?_ fun _ => soundAt_pure ?_
      · rintro comma rest' rfl
        have hrest : rest'.length < n := by
          rw [hts, List.length_append, List.length_cons] at hn
          omega
        exact (ih hrest).map fun vs as ⟨has, hne⟩ => ⟨has.cons comma ha hne, by simp⟩
      · rw [List.append_nil]
        exact ⟨lists_single ha, by simp⟩

/-- A phrase of `D` in parentheses. -/
def InParens (D : List Token → α → Prop) (ts : List Token) (a : α) : Prop :=
  ∃ o c us, ts = parensAt o c us ∧ D us a

/-- Items in parentheses, with commas between them. -/
def listIn (r : Rule) (item : Parser α) : Parser (List α) := do
  enter r
  let _ ← expect (.symbol .leftParen)
  match ← accept (.symbol .rightParen) with
  | some _ => return []
  | none =>
    let as ← bounded (commaList item)
    let _ ← expect (.symbol .rightParen)
    return as

theorem sound_listIn (r : Rule) {item : Parser α} (h : Sound item D) :
    Sound (listIn r item) (InParens (Lists D)) := by
  intro ts
  refine (silent_enter _).soundAt_bind fun _ => soundAt_expect (only_symbol _) fun o rest => ?_
  refine soundAt_accept (only_symbol _)
    (fun c _ _ => soundAt_pure ⟨o, c, [], rfl, lists_nil⟩) fun _ => ?_
  refine SoundAt.bind (soundAt_bounded fun n hn => soundAt_commaList h hn) ?_
  rintro us rest' as ⟨has, -⟩
  exact soundAt_expect (only_symbol _) fun c _ => soundAt_pure ⟨o, c, us, rfl, has⟩

end

section

variable {expr : Parser Expr}

theorem argumentList_eq (expr : Parser Expr) : argumentList expr = listIn .argumentList expr := rfl

theorem sound_argumentList (h : Sound expr (ExprPhrase .expression)) :
    Sound (argumentList expr) (InParens (Lists (ExprPhrase .expression))) := by
  rw [argumentList_eq]
  exact sound_listIn _ h

theorem sound_identifierOrCall (h : Sound expr (ExprPhrase .expression)) :
    Sound (identifierOrCall expr) (ExprPhrase .factor) := by
  intro ts
  refine (silent_enter _).soundAt_bind fun _ => soundAt_identifier fun l x rest => ?_
  refine (silent_sees _).soundAt_bind fun b => ?_
  cases b with
  | true =>
    apply (sound_argumentList h rest).map
    rintro _ _ ⟨o, c, us, rfl, args, hargs, hus, rfl⟩
    exact .call l o c x hus hargs
  | false =>
    refine soundAt_accept (only_symbol _) (fun o rest' _ => ?_)
      fun _ => soundAt_pure (.scalar l x)
    refine (h rest').bind fun us _ index hindex => soundAt_expect (only_symbol _) fun c _ => ?_
    exact soundAt_pure (.element l o c x hindex)

theorem sound_factor (h : Sound expr (ExprPhrase .expression)) :
    Sound (factor expr) (ExprPhrase .factor) := by
  intro ts
  refine (silent_enter _).soundAt_bind fun _ => soundAt_line fun l hl => soundAt_next? ?_
  split
  · next hnext =>
    obtain ⟨_, rest, rfl⟩ := eq_cons_of_head?_lexeme hnext
    obtain rfl := hl _ rfl
    exact soundAt_advance (soundAt_pure (.true_ _))
  · next hnext =>
    obtain ⟨_, rest, rfl⟩ := eq_cons_of_head?_lexeme hnext
    obtain rfl := hl _ rfl
    exact soundAt_advance (soundAt_pure (.false_ _))
  · next hnext =>
    obtain ⟨o, rest, rfl⟩ := eq_cons_of_head?_lexeme hnext
    refine soundAt_advance ((h rest).bind fun us _ e he => ?_)
    exact soundAt_expect (only_symbol _) fun c _ => soundAt_pure (.parens o c he)
  · next hnext =>
    obtain ⟨_, rest, rfl⟩ := eq_cons_of_head?_lexeme hnext
    obtain rfl := hl _ rfl
    refine soundAt_advance (soundAt_expect (only_symbol _) fun o rest' => ?_)
    refine (h rest').bind fun us _ e he => soundAt_expect (only_symbol _) fun c _ => ?_
    exact soundAt_pure (.not _ o c he)
  · next n hnext =>
    obtain ⟨_, rest, rfl⟩ := eq_cons_of_head?_lexeme hnext
    obtain rfl := hl _ rfl
    exact soundAt_advance (soundAt_pure (.literal _ n))
  · exact sound_identifierOrCall h ts
  · exact soundAt_fail rfl (by simp) ⟨_, _, .literal 1 1⟩

theorem sound_operation (h : Sound expr (ExprPhrase .expression)) :
    Sound (operation expr) (ExprPhrase .expression) := by
  intro ts
  refine (silent_enter _).soundAt_bind fun _ => (sound_factor h ts).bind fun us rest left hl => ?_
  refine soundAt_line fun l hline => soundAt_next? ?_
  split
  · next op hop =>
    obtain ⟨m, hm, hmop⟩ := Option.bind_eq_some_iff.1 hop
    rw [BinOp.ofLexeme?_eq_some_iff] at hmop
    subst hmop
    obtain ⟨_, rest', rfl⟩ := eq_cons_of_head?_lexeme hm
    obtain rfl := hline _ rfl
    exact soundAt_advance ((h rest').map fun vs right hr => .operation _ op hl hr)
  · apply soundAt_pure
    rw [List.append_nil]
    exact .single hl

theorem sound_expressionAt (n : Nat) : Sound (expressionAt n) (ExprPhrase .expression) := by
  induction n with
  | zero =>
    exact fun ts => soundAt_next? (soundAt_fail rfl (by simp) ⟨_, _, .single (.literal 1 1)⟩)
  | succ n ih => exact sound_operation ih

theorem sound_expression : Sound expression (ExprPhrase .expression) :=
  fun ts => soundAt_bounded fun n _ => sound_expressionAt n ts

end

theorem sound_arraySize : Sound arraySize ShapePhrase := by
  have hsize (o l c : Line) (n : Nat) (hn : 0 < n) :
      ShapePhrase (bracketsAt o c [⟨l, .literal n⟩]) (.array n) := .array n hn
  intro ts
  refine (silent_enter _).soundAt_bind fun _ => soundAt_accept (only_symbol _) (fun o rest _ => ?_)
    fun _ => soundAt_pure .single
  refine soundAt_next? ?_
  split
  · next n hnext =>
    split_ifs with hpos
    · obtain ⟨l, rest', rfl⟩ := eq_cons_of_head?_lexeme hnext
      refine soundAt_advance (soundAt_expect (only_symbol _) fun c _ => soundAt_pure ?_)
      obtain ⟨k, rfl⟩ := Int.eq_ofNat_of_zero_le (a := n) (Int.le_of_lt hpos)
      exact hsize o l c k (by omega)
    · exact soundAt_fail hnext.symm (by simp) ⟨_, _, hsize o 1 1 1 Nat.one_pos⟩
  · exact soundAt_fail rfl (by simp) ⟨_, _, hsize o 1 1 1 Nat.one_pos⟩

theorem soundAt_targetOf (l : Line) (x : String) (ts : List Token) :
    SoundAt (targetOf x) ts fun us => TargetPhrase l (⟨l, .name x⟩ :: us) := by
  refine (silent_enter _).soundAt_bind fun _ => soundAt_accept (only_symbol _) (fun o rest _ => ?_)
    fun _ => soundAt_pure (.scalar x)
  refine (sound_expression rest).bind fun us _ index hindex =>
    soundAt_expect (only_symbol _) fun c _ => soundAt_pure (.element o c x hindex)

theorem sound_condition :
    Sound condition (InParens (ExprPhrase .expression)) := by
  intro ts
  refine soundAt_expect (only_symbol _) fun o rest => ?_
  exact (sound_expression rest).bind fun us _ e he =>
    soundAt_expect (only_symbol _) fun c _ => soundAt_pure ⟨o, c, us, rfl, he⟩

theorem sound_idInstruction : Sound idInstruction StmtPhrase := by
  intro ts
  refine (silent_enter _).soundAt_bind fun _ => soundAt_identifier fun l x rest => ?_
  refine (silent_sees _).soundAt_bind fun b => ?_
  cases b with
  | true =>
    apply (sound_argumentList sound_expression rest).bind
    rintro _ _ _ ⟨o, c, us, rfl, args, hargs, hus, rfl⟩
    exact soundAt_expect (only_symbol _) fun e _ => soundAt_pure (.call l o c e x hus hargs)
  | false =>
    refine (soundAt_targetOf l x rest).bind fun us rest' target ht => ?_
    have hassign {a e : Line} {vs : List Token} {value : Expr}
        (hv : ExprPhrase .expression vs value) : StmtPhrase
        (⟨l, .name x⟩ :: (us ++ ⟨a, .symbol .assign⟩ :: (vs ++ [⟨e, .symbol .semicolon⟩])))
        (.assign l target value) := by
      simpa using StmtPhrase.assign l a e ht hv
    refine soundAt_accept (only_symbol _) (fun a rest'' _ => ?_) fun _ => soundAt_next? ?_
    · exact (sound_expression rest'').bind fun vs _ value hv =>
        soundAt_expect (only_symbol _) fun e _ => soundAt_pure (hassign hv)
    · exact soundAt_fail rfl (by simp) ⟨_, _, hassign (a := 1) (e := 1) (.single (.literal 1 1))⟩

theorem sound_outputInstruction : Sound outputInstruction StmtPhrase := by
  intro ts
  refine (silent_enter _).soundAt_bind fun _ => soundAt_expect (only_keyword _) fun l rest => ?_
  apply (sound_condition rest).bind
  rintro us _ value ⟨o, c, vs, rfl, hv⟩
  exact soundAt_expect (only_symbol _) fun e _ => soundAt_pure (.output l o c e hv)

theorem sound_inputInstruction : Sound inputInstruction StmtPhrase := by
  intro ts
  refine (silent_enter _).soundAt_bind fun _ => soundAt_expect (only_keyword _) fun l _ => ?_
  refine soundAt_expect (only_symbol _) fun o _ => soundAt_identifier fun m x rest => ?_
  refine (soundAt_targetOf m x rest).bind fun us _ target ht => ?_
  refine soundAt_expect (only_symbol _) fun c _ => soundAt_expect (only_symbol _) fun e _ =>
    soundAt_pure ?_
  simpa [parensAt] using StmtPhrase.input l o m c e ht

theorem sound_returnInstruction : Sound returnInstruction StmtPhrase := by
  intro ts
  refine (silent_enter _).soundAt_bind fun _ => soundAt_expect (only_keyword _) fun l rest => ?_
  exact (sound_expression rest).bind fun us _ value hv =>
    soundAt_expect (only_symbol _) fun e _ => soundAt_pure (.ret l e hv)

theorem sound_declaration : Sound declaration StmtPhrase := by
  intro ts
  refine (silent_enter _).soundAt_bind fun _ => soundAt_expect (only_keyword _) fun l _ => ?_
  refine soundAt_identifier fun m x rest => ?_
  exact (sound_arraySize rest).bind fun us _ shape hs =>
    soundAt_expect (only_symbol _) fun e _ => soundAt_pure (.declare l m e x hs)

section

variable {stmt : Parser Stmt}

theorem sound_ifInstruction (h : Sound stmt StmtPhrase) :
    Sound (ifInstruction stmt) StmtPhrase := by
  intro ts
  refine (silent_enter _).soundAt_bind fun _ => soundAt_expect (only_keyword _) fun l rest => ?_
  apply (sound_condition rest).bind
  rintro us rest' cond ⟨o, c, cs, rfl, hc⟩
  refine (h rest').bind fun ys rest'' yes hy => ?_
  have hthen (e : Line) : StmtPhrase (⟨l, .keyword .if_⟩ :: (parensAt o c cs ++ (ys ++
      [⟨e, .keyword .endif⟩]))) (.ifThen l cond yes) := by
    simpa using StmtPhrase.ifThen l o c e hc hy
  refine soundAt_accept (only_keyword _) (fun m rest''' _ => ?_) fun _ => ?_
  · refine (h rest''').bind fun ns _ no hn =>
      soundAt_expect (only_keyword _) fun e _ => soundAt_pure ?_
    simpa using StmtPhrase.ifElse l o c m e hc hy hn
  · exact soundAt_accept (only_keyword _) (fun e _ _ => soundAt_pure (hthen e))
      fun _ => soundAt_next? (soundAt_fail rfl (by simp) ⟨_, _, hthen 1⟩)

theorem sound_whileInstruction (h : Sound stmt StmtPhrase) :
    Sound (whileInstruction stmt) StmtPhrase := by
  intro ts
  refine (silent_enter _).soundAt_bind fun _ => soundAt_expect (only_keyword _) fun l rest => ?_
  apply (sound_condition rest).bind
  rintro us rest' cond ⟨o, c, cs, rfl, hc⟩
  exact (h rest').map fun bs body hb => .loop l o c hc hb

theorem sound_blockItem (h : Sound stmt StmtPhrase) :
    Sound (blockItem stmt) fun us r => r.elim (us = []) (StmtPhrase us) := by
  intro ts
  refine soundAt_next? ?_
  split
  · exact soundAt_pure rfl
  · exact soundAt_pure rfl
  · exact (h ts).map fun us s hs => hs

theorem sound_block (h : Sound stmt StmtPhrase) : Sound (block stmt) StmtPhrase := by
  intro ts
  refine (silent_enter _).soundAt_bind fun _ => soundAt_expect (only_symbol _) fun l rest => ?_
  refine SoundAt.bind (soundAt_bounded fun n _ => sound_many (sound_blockItem h) n rest) ?_
  rintro us _ body ⟨parts, hparts, rfl, rfl⟩
  exact soundAt_expect (only_symbol _) fun c _ => soundAt_pure (.block l c hparts)

/-- A statement as short as they come. -/
theorem stmtPhrase_shortest :
    StmtPhrase [⟨1, .keyword .int⟩, ⟨1, .name "x"⟩, ⟨1, .symbol .semicolon⟩]
      (.declare 1 "x" .single) :=
  @StmtPhrase.declare 1 1 1 "x" [] .single .single

theorem sound_instruction (h : Sound stmt StmtPhrase) : Sound (instruction stmt) StmtPhrase := by
  intro ts
  refine (silent_enter _).soundAt_bind fun _ => soundAt_next? ?_
  split
  · exact sound_idInstruction ts
  · exact sound_ifInstruction h ts
  · exact sound_whileInstruction h ts
  · exact sound_outputInstruction ts
  · exact sound_inputInstruction ts
  · exact sound_block h ts
  · exact sound_returnInstruction ts
  · exact sound_declaration ts
  · exact soundAt_fail rfl (by simp) ⟨_, _, stmtPhrase_shortest⟩

end

theorem sound_statementAt (n : Nat) : Sound (statementAt n) StmtPhrase := by
  induction n with
  | zero =>
    exact fun ts => soundAt_next? (soundAt_fail rfl (by simp) ⟨_, _, stmtPhrase_shortest⟩)
  | succ n ih => exact sound_instruction ih

theorem sound_statement : Sound statement StmtPhrase :=
  fun ts => soundAt_bounded fun n _ => sound_statementAt n ts

theorem sound_global? : Sound global? fun us r => r.elim (us = []) (GlobalPhrase us) := by
  intro ts
  refine (silent_enter _).soundAt_bind fun _ => soundAt_accept (only_keyword _) (fun l _ _ => ?_)
    fun _ => soundAt_pure rfl
  refine soundAt_expect (only_keyword _) fun i _ => soundAt_identifier fun m x rest => ?_
  refine (sound_arraySize rest).bind fun us _ shape hs => ?_
  refine soundAt_expect (only_symbol _) fun e _ => (silent_note _).soundAt_bind fun _ => ?_
  exact soundAt_pure (.mk l i m e x hs)

theorem sound_param : Sound param ParamPhrase := by
  intro ts
  refine soundAt_expect (only_keyword _) fun l _ => soundAt_identifier fun m x _ => ?_
  exact soundAt_pure (.mk l m x)

theorem parameterList_eq : parameterList = listIn .parameterList param := rfl

theorem sound_parameterList : Sound parameterList (InParens (Lists ParamPhrase)) := by
  rw [parameterList_eq]
  exact sound_listIn _ sound_param

/-- The word `procedure` is not left standing. -/
theorem soundAt_procedure? (ts : List Token) :
    SoundAt procedure? ts fun us r =>
      r.elim (us = [] ∧ ts.head?.map Token.lexeme ≠ some (.keyword .procedure))
        (ProcedurePhrase us) := by
  refine (silent_enter _).soundAt_bind fun _ => soundAt_accept (only_keyword _) (fun l _ _ => ?_)
    fun hnone => soundAt_pure ⟨rfl, hnone⟩
  refine soundAt_expect (only_keyword _) fun i _ => soundAt_identifier fun m f rest => ?_
  apply (sound_parameterList rest).bind
  rintro us rest' _ ⟨o, c, vs, rfl, params, hparams, hvs, rfl⟩
  refine (sound_statement rest').bind fun bs _ body hb => ?_
  refine (silent_note _).soundAt_bind fun _ => soundAt_pure ?_
  rw [List.append_nil]
  exact .mk l i m o c f hvs hparams hb

theorem sound_procedure? : Sound procedure? fun us r => r.elim (us = []) (ProcedurePhrase us) := by
  refine fun ts => (soundAt_procedure? ts).mono fun us r h => ?_
  cases r with
  | none => exact h.1
  | some p => exact h

/-- A procedure that stands first is read. -/
theorem soundAt_many_procedure? {ts : List Token}
    (hts : ts.head?.map Token.lexeme = some (.keyword .procedure)) {n : Nat} (hn : 0 < n) :
    SoundAt (many procedure? n) ts fun us ps => Joins ProcedurePhrase us ps ∧ ps ≠ [] := by
  obtain ⟨n, rfl⟩ := Nat.exists_eq_succ_of_ne_zero (Nat.ne_zero_of_lt hn)
  refine (soundAt_procedure? ts).bind_of (fun us r hr => ?_) fun us rest r _ hr => ?_
  · cases r with
    | none => exact absurd hts hr.2
    | some p => exact ⟨[], [p], joins_nil.cons hr, by simp⟩
  · cases r with
    | none => exact absurd hts hr.2
    | some p =>
      exact (sound_many sound_procedure? n rest).map fun vs ps hps => ⟨hps.cons hr, by simp⟩

/-- A procedure as short as they come. -/
theorem joins_shortest : Joins ProcedurePhrase
    (⟨1, .keyword .procedure⟩ :: ⟨1, .keyword .int⟩ :: ⟨1, .name "main"⟩ :: parensAt 1 1 [] ++
      [⟨1, .keyword .int⟩, ⟨1, .name "x"⟩, ⟨1, .symbol .semicolon⟩] ++ [])
    [⟨1, "main", [], .declare 1 "x" .single⟩] :=
  joins_nil.cons (@ProcedurePhrase.mk 1 1 1 1 1 "main" [] [] _ _ .nil (by simp) stmtPhrase_shortest)

theorem programPhrase_of_joins {us vs : List Token} {globals : List Global}
    {procedures : List Procedure} (hg : Joins GlobalPhrase us globals)
    (hp : Joins ProcedurePhrase vs procedures) (hne : procedures ≠ []) :
    ProgramPhrase (us ++ vs) ⟨globals, procedures⟩ := by
  obtain ⟨gs, hgs, rfl, rfl⟩ := hg
  obtain ⟨ps, hps, rfl, rfl⟩ := hp
  exact .mk hgs hps fun h => hne (by rw [h, List.map_nil])

theorem soundAt_program {ts : List Token} (hts : ts ≠ []) : SoundAt program ts ProgramPhrase := by
  have hmissing {us : List Token} {globals : List Global} (hg : Joins GlobalPhrase us globals) :
      ∃ vs p, ProgramPhrase (us ++ vs) p :=
    ⟨_, _, programPhrase_of_joins hg joins_shortest (by simp)⟩
  unfold program
  refine soundAt_next? ?_
  split_ifs with hend
  · simp [hts] at hend
  refine SoundAt.bind_of (soundAt_bounded fun n _ => sound_many sound_global? n ts)
    (fun us gs hg => hmissing hg) ?_
  rintro us rest globals - hg
  apply soundAt_sees
  split_ifs with hsees
  swap
  · exact soundAt_next? (soundAt_fail_bind rfl (by simp) (hmissing hg))
  have hprocedure : rest.head?.map Token.lexeme = some (.keyword .procedure) := by
    obtain ⟨t, ht, hclass⟩ := Option.map_eq_some_iff.1 (beq_iff_eq.1 hsees)
    rw [ht, Option.map_some, (only_keyword _ t.lexeme).1 hclass]
  refine SoundAt.bind_of (soundAt_bounded fun n hn =>
    soundAt_many_procedure? hprocedure (Nat.zero_lt_of_lt hn))
    (fun vs ps hps => ⟨[], ⟨globals, ps⟩, ?_⟩) fun vs rest' ps _ ⟨hps, hne⟩ => soundAt_next? ?_
  · rw [List.append_nil]
    exact programPhrase_of_joins hg hps.1 hps.2
  split_ifs
  · refine soundAt_next? (soundAt_fail_bind rfl (by simp) ⟨[], ⟨globals, ps⟩, ?_⟩)
    rw [List.append_nil]
    exact programPhrase_of_joins hg hps hne
  · apply soundAt_pure
    rw [List.append_nil]
    exact programPhrase_of_joins hg hps hne

/-- Nothing is left behind a program. -/
theorem rest_of_program {c c' : TokenCursor} {p : Program} (h : program c = .ok p c') :
    c'.rest = [] := by
  unfold program at h
  obtain ⟨_, _, ⟨⟩, h⟩ := step_bind_eq_ok.1 h
  split_ifs at h
  · cases h
  obtain ⟨globals, c₁, -, h⟩ := step_bind_eq_ok.1 h
  obtain ⟨_, _, ⟨⟩, h⟩ := step_bind_eq_ok.1 h
  split_ifs at h
  swap
  · cases h
  obtain ⟨procedures, c₂, -, h⟩ := step_bind_eq_ok.1 h
  obtain ⟨_, _, ⟨⟩, h⟩ := step_bind_eq_ok.1 h
  split_ifs at h with hmore
  · cases h
  cases h
  simpa [TokenCursor.next?] using hmore

theorem phrase_of_program {ts : List Token} {p : Program} {c : TokenCursor}
    (h : program (TokenCursor.start ts) = .ok p c) : ProgramPhrase ts p := by
  have hts : ts ≠ [] := by
    rintro rfl
    cases h
  have hphrase := soundAt_program hts (TokenCursor.start ts) rfl
  rw [h] at hphrase
  cases hphrase with
  | ok hrest _ hp =>
    rw [rest_of_program h, List.append_nil] at hrest
    rw [show ts = _ from hrest]
    exact hp

end Parser

end ProcMips
