import ProcMips.Proofs.Parse.Reading
import ProcMips.Proofs.Syntax.Unlined

/-! Parsers do not look at lines. On cursors in front of the same lexemes a parser gives results that
differ in their lines only, or it fails for the same cause; in between it decides by lexemes alone. -/

namespace ProcMips

namespace Parser

variable {α β γ δ : Type}

/-- Outcomes that agree on what `f` keeps of a result, or on the cause of failure. -/
inductive SameOutcome (f : α → γ) :
    EStateM.Result (Located ParseError) TokenCursor α →
      EStateM.Result (Located ParseError) TokenCursor α → Prop
  | ok {a b : α} {c d : TokenCursor} (h : f a = f b) (hc : c.lexemes = d.lexemes) :
    SameOutcome f (.ok a c) (.ok b d)
  | error {e e' : Located ParseError} {c d : TokenCursor} (h : e.cause = e'.cause) :
    SameOutcome f (.error e c) (.error e' d)

/-- `p` and `q` do the same on the same lexemes, as far as `f` keeps their results. -/
def Alike (f : α → γ) (p q : Parser α) : Prop :=
  ∀ c d : TokenCursor, c.lexemes = d.lexemes → SameOutcome f (p c) (q d)

/-- What `f` keeps of the results of `p` does not depend on lines, nor does the rest of what `p` does. -/
abbrev Blind (f : α → γ) (p : Parser α) : Prop := Alike f p p

/-- What is kept of a line. -/
def noLine (_ : Line) : Unit := ()

section

variable {f : α → γ} {g : β → δ} {p q : Parser α}

theorem alike_pure {a b : α} (h : f a = f b) : Alike f (pure a) (pure b) :=
  fun _ _ hc => .ok h hc

theorem alike_fail (e : ParseError) : Blind f (fail e) := fun _ _ _ => .error rfl

theorem alike_fail_bind (e : ParseError) {k k' : α → Parser β} :
    Alike g (fail e >>= k) (fail e >>= k') := fun _ _ _ => .error rfl

theorem Alike.bind {k k' : α → Parser β} (hp : Alike f p q)
    (hk : ∀ a b, f a = f b → Alike g (k a) (k' b)) : Alike g (p >>= k) (q >>= k') := by
  intro c d hc
  have hpq := hp c d hc
  change SameOutcome g (EStateM.bind p k c) (EStateM.bind q k' d)
  unfold EStateM.bind
  revert hpq
  generalize p c = x
  generalize q d = y
  rintro (⟨h, hc⟩ | h)
  · exact hk _ _ h _ _ hc
  · exact .error h

/-- Results of which everything is kept. -/
theorem Alike.bind_eq {k k' : α → Parser β} (hp : Alike id p q) (hk : ∀ a, Alike g (k a) (k' a)) :
    Alike g (p >>= k) (q >>= k') := by
  refine hp.bind fun a b h => ?_
  obtain rfl : a = b := h
  exact hk a

theorem blind_enter (r : Rule) : Blind id (enter r) := by
  rintro ⟨_ | ⟨t, ts⟩, l, ns⟩ ⟨_ | ⟨u, us⟩, m, ms⟩ hc
  · exact .ok rfl rfl
  · cases hc
  · cases hc
  · exact .ok rfl hc

theorem blind_note (n : ParseNote) : Blind id (note n) := fun _ _ hc => .ok rfl hc

theorem blind_line : Blind noLine line := fun _ _ hc => .ok rfl hc

theorem blind_next? : Blind id next? := by
  intro c d hc
  refine .ok ?_ hc
  rw [TokenCursor.next?_eq, TokenCursor.next?_eq, hc]

theorem blind_sees (k : TokenClass) : Blind id (sees k) := by
  intro c d hc
  refine .ok ?_ hc
  rw [TokenCursor.next?_eq, TokenCursor.next?_eq, hc]

theorem blind_advance : Blind id advance := by
  intro c d hc
  refine .ok rfl ?_
  simp only [TokenCursor.lexemes, List.map_tail] at hc ⊢
  rw [hc]

/-- The next tokens of two cursors in front of the same lexemes. -/
theorem TokenCursor.same_cases {c d : TokenCursor} (hc : c.lexemes = d.lexemes) :
    (c.rest = [] ∧ d.rest = []) ∨ ∃ l m x ts us, c.rest = ⟨l, x⟩ :: ts ∧ d.rest = ⟨m, x⟩ :: us ∧
      ts.map Token.lexeme = us.map Token.lexeme := by
  cases hrest : c.rest with
  | nil =>
    rw [TokenCursor.lexemes, hrest] at hc
    exact .inl ⟨rfl, List.map_eq_nil_iff.1 hc.symm⟩
  | cons t ts =>
    rw [TokenCursor.lexemes, hrest] at hc
    obtain ⟨m, us, hus, hmap⟩ := TokenCursor.lexemes_eq_cons hc.symm
    exact .inr ⟨t.line, m, t.lexeme, ts, us, rfl, hus, hmap.symm⟩

theorem blind_accept (k : TokenClass) : Blind Option.isSome (accept k) := by
  intro c d hc
  unfold accept
  rcases TokenCursor.same_cases hc with ⟨hn, hn'⟩ | ⟨l, m, x, ts, us, ht, hu, hts⟩
  · rw [hn, hn']
    exact .ok rfl hc
  · rw [ht, hu]
    dsimp only
    split_ifs
    · exact .ok rfl hts
    · exact .ok rfl hc

theorem alike_accept {k : TokenClass} {m m' : Option Line → Parser β}
    (hsome : ∀ l l', Alike g (m (some l)) (m' (some l'))) (hnone : Alike g (m none) (m' none)) :
    Alike g (accept k >>= m) (accept k >>= m') := by
  refine (blind_accept k).bind fun r r' hr => ?_
  cases r with
  | none =>
    obtain rfl : r' = none := by simpa using hr.symm
    exact hnone
  | some l =>
    obtain ⟨l', rfl⟩ := Option.isSome_iff_exists.1 hr.symm
    exact hsome l l'

theorem blind_expect (k : TokenClass) : Blind noLine (expect k) := by
  intro c d hc
  unfold expect
  rcases TokenCursor.same_cases hc with ⟨hn, hn'⟩ | ⟨l, m, x, ts, us, ht, hu, hts⟩
  · rw [hn, hn']
    exact .error rfl
  · rw [ht, hu]
    dsimp only
    split_ifs
    · exact .ok rfl hts
    · exact .error rfl

theorem blind_identifier : Blind Prod.snd identifier := by
  intro c d hc
  have hnext : c.next? = d.next? := by rw [TokenCursor.next?_eq, TokenCursor.next?_eq, hc]
  unfold identifier
  rcases TokenCursor.same_cases hc with ⟨hn, hn'⟩ | ⟨l, m, x, ts, us, ht, hu, hts⟩
  · rw [hn, hn']
    exact .error (by rw [hnext])
  · rw [ht, hu]
    cases x with
    | name x => exact .ok rfl hts
    | _ => exact .error (by rw [hnext])

theorem alike_identifier {m m' : Line × String → Parser β}
    (h : ∀ l l' x, Alike g (m (l, x)) (m' (l', x))) :
    Alike g (identifier >>= m) (identifier >>= m') := by
  refine blind_identifier.bind fun ⟨l, x⟩ ⟨l', x'⟩ hx => ?_
  obtain rfl : x = x' := hx
  exact h l l' x

theorem Alike.bounded {p q : Nat → Parser α} (h : ∀ n, Alike f (p n) (q n)) :
    Alike f (bounded p) (bounded q) := by
  intro c d hc
  have hlength : c.rest.length = d.rest.length := by
    simpa [TokenCursor.lexemes] using congrArg List.length hc
  unfold Parser.bounded
  rw [hlength]
  exact h _ c d hc

theorem blind_many {item : Parser (Option α)} (h : Blind (Option.map f) item) (n : Nat) :
    Blind (List.map f) (many item n) := by
  induction n with
  | zero => exact alike_pure rfl
  | succ n ih =>
    refine h.bind fun r r' hr => ?_
    cases r with
    | none =>
      obtain rfl : r' = none := by simpa using hr.symm
      exact alike_pure rfl
    | some a =>
      obtain ⟨b, rfl, hab⟩ : ∃ b, r' = some b ∧ f b = f a := by simpa using hr.symm
      exact ih.bind fun as bs hs => alike_pure (by rw [List.map_cons, List.map_cons, hab, hs])

theorem blind_commaList {item : Parser α} (h : Blind f item) (n : Nat) :
    Blind (List.map f) (commaList item n) := by
  induction n with
  | zero => exact alike_pure rfl
  | succ n ih =>
    refine h.bind fun a b hab => alike_accept (fun l l' => ?_) ?_
    · exact ih.bind fun as bs hs => alike_pure (by rw [List.map_cons, List.map_cons, hab, hs])
    · exact alike_pure (by simp [hab])

end

end Parser

end ProcMips
