import ProcMips.Proofs.Parse.Soundness

/-! Two runs over lists of tokens with a common start. `InStep` says that they do the same until both
are behind that start: they go on with the same result, or they both fail. Bounds on the tokens that are
left differ between the two, and are never reached inside the start. -/

namespace ProcMips

open Grammar TokenClass

namespace Parser

variable {α β : Type}

/-- The tokens that a run leaves, also where it fails. -/
def tokensLeft : EStateM.Result (Located ParseError) TokenCursor α → List Token
  | .ok _ c => c.rest
  | .error _ c => c.rest

/-- `p` leaves an end of what it finds. -/
def Advances (p : Parser α) : Prop := ∀ c, tokensLeft (p c) <:+ c.rest

/-- Outcomes in front of `us ++ xs` and of `us ++ ys`: the same result with some of `us` left, two
failures, or nothing of `us` left in either run. -/
inductive Together (us xs ys : List Token) :
    EStateM.Result (Located ParseError) TokenCursor α →
      EStateM.Result (Located ParseError) TokenCursor α → Prop
  | ok {vs : List Token} {a : α} {c d : TokenCursor} (hne : vs ≠ []) (hvs : vs <:+ us)
    (hc : c.rest = vs ++ xs) (hd : d.rest = vs ++ ys) : Together us xs ys (.ok a c) (.ok a d)
  | error {e e' : Located ParseError} {c d : TokenCursor} :
    Together us xs ys (.error e c) (.error e' d)
  | past {r s : EStateM.Result (Located ParseError) TokenCursor α} (hr : tokensLeft r <:+ xs)
    (hs : tokensLeft s <:+ ys) : Together us xs ys r s

/-- `p` and `q` do the same inside a common start of at most `n` tokens, and never go back. -/
structure InStep (n : Nat) (p q : Parser α) : Prop where
  left : Advances p
  right : Advances q
  together : ∀ us xs ys c d, us ≠ [] → us.length ≤ n → c.rest = us ++ xs → d.rest = us ++ ys →
    Together us xs ys (p c) (q d)

theorem Follows.tokensLeft_suffix {D : List Token → α → Prop} {c : TokenCursor}
    {r : EStateM.Result (Located ParseError) TokenCursor α} (h : Follows D c r) :
    tokensLeft r <:+ c.rest := by
  cases h with
  | ok hrest _ _ => exact ⟨_, hrest.symm⟩
  | error hrest _ _ _ => exact ⟨_, hrest.symm⟩

theorem Sound.advances {D : List Token → α → Prop} {p : Parser α} (h : Sound p D) : Advances p :=
  fun c => (h c.rest c rfl).tokensLeft_suffix

theorem Silent.advances {p : Parser α} (h : Silent p) : Advances p := by
  intro c
  obtain ⟨a, c', hrun, hrest, -⟩ := h c
  rw [hrun]
  exact ⟨[], hrest⟩

/-- An item that is read takes at least one token. -/
theorem Sound.length_lt {D : List Token → α → Prop} {item : Parser (Option α)}
    (h : Sound item fun us r => r.elim (us = []) (D us)) (hD : ∀ us a, D us a → us ≠ [])
    (c : TokenCursor) (a : α) (c' : TokenCursor) (hrun : item c = .ok (some a) c') :
    c'.rest.length < c.rest.length := by
  have hitem := h c.rest c rfl
  rw [hrun] at hitem
  cases hitem with
  | ok hrest _ ha =>
    have := List.length_pos_of_ne_nil (hD _ _ ha)
    rw [hrest, List.length_append]
    omega

theorem advances_pure (a : α) : Advances (pure a) := fun _ => List.suffix_rfl

theorem Advances.bind {p : Parser α} {f : α → Parser β} (hp : Advances p)
    (hf : ∀ a, Advances (f a)) : Advances (p >>= f) := by
  intro c
  have hc := hp c
  change tokensLeft (EStateM.bind p f c) <:+ c.rest
  unfold EStateM.bind
  generalize p c = r at hc
  cases r with
  | ok a c' => exact (hf a c').trans hc
  | error e c' => exact hc

theorem advances_advance : Advances advance := fun c => List.tail_suffix c.rest

theorem advances_accept (cls : TokenClass) : Advances (accept cls) := by
  intro c
  unfold accept
  split
  · next t ts hrest =>
    split_ifs
    · exact hrest ▸ List.suffix_cons t ts
    · exact List.suffix_rfl
  · exact List.suffix_rfl

theorem advances_expect (cls : TokenClass) : Advances (expect cls) := by
  intro c
  unfold expect
  split
  · next t ts hrest =>
    split_ifs
    · exact hrest ▸ List.suffix_cons t ts
    · exact List.suffix_rfl
  · exact List.suffix_rfl

theorem advances_identifier : Advances identifier := by
  intro c
  unfold identifier
  split
  · next l x ts hrest => exact hrest ▸ List.suffix_cons _ ts
  · exact List.suffix_rfl

theorem Advances.many {item : Parser (Option α)} (h : Advances item) (i : Nat) :
    Advances (many item i) := by
  induction i with
  | zero => exact advances_pure []
  | succ i ih =>
    refine h.bind fun r => ?_
    cases r with
    | none => exact advances_pure []
    | some a => exact ih.bind fun as => advances_pure (a :: as)

theorem Advances.commaList {item : Parser α} (h : Advances item) (i : Nat) :
    Advances (commaList item i) := by
  induction i with
  | zero => exact advances_pure []
  | succ i ih =>
    refine h.bind fun a => (advances_accept _).bind fun r => ?_
    cases r with
    | none => exact advances_pure [a]
    | some _ => exact ih.bind fun as => advances_pure (a :: as)

theorem Together.mono {us vs xs ys : List Token}
    {r s : EStateM.Result (Located ParseError) TokenCursor α} (h : Together vs xs ys r s)
    (hvs : vs <:+ us) : Together us xs ys r s := by
  cases h with
  | ok hne hws hc hd => exact .ok hne (hws.trans hvs) hc hd
  | error => exact .error
  | past hr hs => exact .past hr hs

section

variable {n k i j : Nat} {p q : Parser α} {f g : α → Parser β}

/-- Without a start of at least one token there is nothing to compare. -/
theorem inStep_zero (hp : Advances p) (hq : Advances q) : InStep 0 p q :=
  ⟨hp, hq, fun _ _ _ _ _ hne hlength _ _ => absurd (List.eq_nil_of_length_eq_zero
    (Nat.le_zero.1 hlength)) hne⟩

theorem InStep.mono (h : InStep n p q) (hk : k ≤ n) : InStep k p q :=
  ⟨h.left, h.right, fun us xs ys c d hne hlength =>
    h.together us xs ys c d hne (Nat.le_trans hlength hk)⟩

/-- Behind the start the runs only have to go on. -/
theorem InStep.run {us xs ys : List Token} {c d : TokenCursor} (h : InStep n p q)
    (hlength : us.length ≤ n) (hc : c.rest = us ++ xs) (hd : d.rest = us ++ ys) :
    Together us xs ys (p c) (q d) := by
  by_cases hne : us = []
  · subst hne
    have hp := h.left c
    have hq := h.right d
    rw [hc] at hp
    rw [hd] at hq
    exact .past hp hq
  · exact h.together us xs ys c d hne hlength hc hd

/-- A token of the start has been read. -/
theorem InStep.run_tail {t : Token} {us xs ys : List Token} {c d : TokenCursor}
    (h : InStep (n - 1) p q) (hlength : (t :: us).length ≤ n) (hc : c.rest = us ++ xs)
    (hd : d.rest = us ++ ys) : Together (t :: us) xs ys (p c) (q d) :=
  (h.run (Nat.le_sub_one_of_lt hlength) hc hd).mono (List.suffix_cons t us)

theorem inStep_pure (a : α) : InStep n (pure a) (pure a) :=
  ⟨advances_pure a, advances_pure a, fun _ _ _ _ _ hne _ hc hd => .ok hne List.suffix_rfl hc hd⟩

theorem inStep_fail (e : ParseError) : InStep n (fail e : Parser α) (fail e) :=
  ⟨fun _ => List.suffix_rfl, fun _ => List.suffix_rfl, fun _ _ _ _ _ _ _ _ _ => .error⟩

theorem inStep_fail_bind (e : ParseError) : InStep n (fail e >>= f) (fail e >>= g) :=
  ⟨fun _ => List.suffix_rfl, fun _ => List.suffix_rfl, fun _ _ _ _ _ _ _ _ _ => .error⟩

/-- Where the first part has read a token, what follows it needs less of the start. -/
theorem InStep.bind_of (hp : InStep n p q) (hf : ∀ a, Advances (f a)) (hg : ∀ a, Advances (g a))
    (h : ∀ c a c', p c = .ok a c' → InStep n (f a) (g a) ∨
      c'.rest.length < c.rest.length ∧ InStep (n - 1) (f a) (g a)) :
    InStep n (p >>= f) (q >>= g) := by
  refine ⟨hp.left.bind hf, hp.right.bind hg, fun us xs ys c d hne hlength hc hd => ?_⟩
  have hpq := hp.together us xs ys c d hne hlength hc hd
  have hnext := h c
  change Together us xs ys (EStateM.bind p f c) (EStateM.bind q g d)
  unfold EStateM.bind
  generalize p c = r at hpq hnext
  generalize q d = s at hpq
  cases hpq with
  | ok hne' hvs hc' hd' =>
    refine Together.mono ?_ hvs
    obtain hfg | ⟨hless, hfg⟩ := hnext _ _ rfl
    · exact hfg.run (Nat.le_trans hvs.length_le hlength) hc' hd'
    -- the token that was read is one of `us`, so what is left of `us` is shorter
    · rw [hc, hc', List.length_append, List.length_append] at hless
      exact hfg.run (by omega) hc' hd'
  | error => exact .error
  | past hr hs =>
    -- the runs may differ from here on, but neither goes back into the start
    refine .past ?_ ?_
    · cases r with
      | ok a c' => exact (hf a c').trans hr
      | error e c' => exact hr
    · cases s with
      | ok a d' => exact (hg a d').trans hs
      | error e d' => exact hs

theorem InStep.bind (hp : InStep n p q) (hf : ∀ a, InStep n (f a) (g a)) :
    InStep n (p >>= f) (q >>= g) :=
  hp.bind_of (fun a => (hf a).left) (fun a => (hf a).right) fun _ a _ _ => .inl (hf a)

/-- A look at the next token. -/
theorem inStep_look {v : Token → α} (hp : Silent p)
    (hv : ∀ t ts c, c.rest = t :: ts → ∃ c', p c = .ok (v t) c') : InStep n p p := by
  refine ⟨hp.advances, hp.advances, fun us xs ys c d hne _ hc hd => ?_⟩
  obtain ⟨t, us, rfl⟩ := List.exists_cons_of_ne_nil hne
  obtain ⟨c₁, hc₁⟩ := hv t _ c hc
  obtain ⟨d₁, hd₁⟩ := hv t _ d hd
  obtain ⟨a, c₂, hrun, hrest, -⟩ := hp c
  obtain ⟨b, d₂, hrun', hrest', -⟩ := hp d
  rw [hc₁] at hrun
  rw [hd₁] at hrun'
  cases hrun
  cases hrun'
  rw [hc₁, hd₁]
  exact .ok hne List.suffix_rfl (hrest.trans hc) (hrest'.trans hd)

theorem inStep_enter (r : Rule) : InStep n (enter r) (enter r) := by
  refine inStep_look (v := fun _ => ()) (silent_enter r) fun t ts c hc => ⟨c.note (.entered r t), ?_⟩
  rw [enter, hc]

theorem inStep_note (x : ParseNote) : InStep n (note x) (note x) :=
  inStep_look (v := fun _ => ()) (silent_note x) fun _ _ c _ => ⟨c.note x, rfl⟩

theorem inStep_line : InStep n line line := by
  refine inStep_look (v := Token.line) silent_line fun t ts c hc => ⟨c, ?_⟩
  rw [line, TokenCursor.line, hc]

theorem inStep_next? : InStep n next? next? := by
  refine inStep_look (v := fun t => some t.lexeme) silent_next? fun t ts c hc => ⟨c, ?_⟩
  rw [next?, TokenCursor.next?, hc, List.head?_cons, Option.map_some]

theorem inStep_sees (cls : TokenClass) : InStep n (sees cls) (sees cls) := by
  refine inStep_look (v := fun t => some t.lexeme.tokenClass == some cls) (silent_sees cls)
    fun t ts c hc => ⟨c, ?_⟩
  rw [sees, TokenCursor.next?, hc, List.head?_cons, Option.map_some, Option.map_some]

/-- A parser that takes the next token, leaves it or fails there, in front of a rest. -/
theorem inStep_bind_of_next (hp : Advances p) (hf : ∀ a, Advances (f a)) (hg : ∀ a, Advances (g a))
    (h : ∀ t, (∃ a, (∀ c ts, c.rest = t :: ts → p c = .ok a { c with rest := ts }) ∧
        InStep (n - 1) (f a) (g a)) ∨
      (∃ a, (∀ c ts, c.rest = t :: ts → p c = .ok a c) ∧ InStep n (f a) (g a)) ∨
      ∀ c ts, c.rest = t :: ts → ∃ e, p c = .error e c) : InStep n (p >>= f) (p >>= g) := by
  refine ⟨hp.bind hf, hp.bind hg, fun us xs ys c d hne hlength hc hd => ?_⟩
  change Together us xs ys (EStateM.bind p f c) (EStateM.bind p g d)
  unfold EStateM.bind
  obtain ⟨t, us, rfl⟩ := List.exists_cons_of_ne_nil hne
  obtain ⟨a, hrun, hfg⟩ | ⟨a, hrun, hfg⟩ | hrun := h t
  · rw [hrun c _ hc, hrun d _ hd]
    exact hfg.run_tail hlength rfl rfl
  · rw [hrun c _ hc, hrun d _ hd]
    exact hfg.run hlength hc hd
  · obtain ⟨e, he⟩ := hrun c _ hc
    obtain ⟨e', he'⟩ := hrun d _ hd
    rw [he, he']
    exact .error

theorem inStep_advance {f g : Unit → Parser β} (h : InStep (n - 1) (f ()) (g ())) :
    InStep n (advance >>= f) (advance >>= g) := by
  refine inStep_bind_of_next advances_advance (fun _ => h.left) (fun _ => h.right) fun t => .inl ?_
  refine ⟨(), fun c ts hc => ?_, h⟩
  rw [advance, hc, List.tail_cons]

theorem inStep_accept {cls : TokenClass} {f g : Option Line → Parser β}
    (hsome : ∀ l, InStep (n - 1) (f (some l)) (g (some l))) (hnone : InStep n (f none) (g none)) :
    InStep n (accept cls >>= f) (accept cls >>= g) := by
  refine inStep_bind_of_next (advances_accept cls) ?_ ?_ fun t => ?_
  · rintro (_ | l)
    exacts [hnone.left, (hsome l).left]
  · rintro (_ | l)
    exacts [hnone.right, (hsome l).right]
  · by_cases ht : t.lexeme.tokenClass = cls
    · refine .inl ⟨some t.line, fun c ts hc => ?_, hsome t.line⟩
      rw [accept, hc]
      exact if_pos ht
    · refine .inr (.inl ⟨none, fun c ts hc => ?_, hnone⟩)
      rw [accept, hc]
      exact if_neg ht

theorem inStep_expect {cls : TokenClass} {f g : Line → Parser β}
    (h : ∀ l, InStep (n - 1) (f l) (g l)) : InStep n (expect cls >>= f) (expect cls >>= g) := by
  refine inStep_bind_of_next (advances_expect cls) (fun l => (h l).left) (fun l => (h l).right)
    fun t => ?_
  by_cases ht : t.lexeme.tokenClass = cls
  · refine .inl ⟨t.line, fun c ts hc => ?_, h t.line⟩
    rw [expect, hc]
    exact if_pos ht
  · refine .inr (.inr fun c ts hc => ⟨⟨t.line, .expected [cls] (some t.lexeme)⟩, ?_⟩)
    rw [expect, hc]
    exact if_neg ht

theorem inStep_identifier {f g : Line × String → Parser β}
    (h : ∀ l x, InStep (n - 1) (f (l, x)) (g (l, x))) :
    InStep n (identifier >>= f) (identifier >>= g) := by
  refine inStep_bind_of_next advances_identifier (fun r => (h r.1 r.2).left)
    (fun r => (h r.1 r.2).right) fun t => ?_
  obtain ⟨l, m⟩ := t
  cases m with
  | name x =>
    refine .inl ⟨(l, x), fun c ts hc => ?_, h l x⟩
    rw [identifier, hc]
  | _ =>
    refine .inr (.inr fun c ts hc => ⟨⟨c.line, .expected [.identifier] c.next?⟩, ?_⟩)
    rw [identifier, hc]

/-- The bounds of the two runs differ, and both are larger than the start. One more token of the start
asks for one more of each bound. -/
theorem inStep_bounded {p q : Nat → Parser α} (hp : ∀ i, Advances (p i)) (hq : ∀ j, Advances (q j))
    (hstep : ∀ k i j, k < n → InStep k (p i) (q j) → InStep (k + 1) (p (i + 1)) (q (j + 1))) :
    InStep n (bounded p) (bounded q) := by
  -- by induction on the length of the start, which is below both bounds
  have hbounds {k i j : Nat} (hk : k ≤ n) (hi : k ≤ i) (hj : k ≤ j) : InStep k (p i) (q j) := by
    induction k generalizing i j with
    | zero => exact inStep_zero (hp i) (hq j)
    | succ k ih =>
      obtain ⟨i, rfl⟩ := Nat.exists_eq_succ_of_ne_zero (Nat.ne_zero_of_lt hi)
      obtain ⟨j, rfl⟩ := Nat.exists_eq_succ_of_ne_zero (Nat.ne_zero_of_lt hj)
      exact hstep k i j hk (ih (Nat.le_of_succ_le hk) (Nat.le_of_succ_le_succ hi)
        (Nat.le_of_succ_le_succ hj))
  refine ⟨fun c => hp _ c, fun d => hq _ d, fun us xs ys c d hne hlength hc hd => ?_⟩
  refine (hbounds hlength ?_ ?_).together us xs ys c d hne (Nat.le_refl _) hc hd
  · rw [hc, List.length_append]
    omega
  · rw [hd, List.length_append]
    omega

/-- Each item takes a token. -/
theorem inStep_many {item item' : Parser (Option α)} (h : InStep n item item')
    (hitem : ∀ c a c', item c = .ok (some a) c' → c'.rest.length < c.rest.length) :
    InStep n (bounded (many item)) (bounded (many item')) := by
  refine inStep_bounded h.left.many h.right.many fun k i j hk ih => ?_
  have hrest (a : α) : InStep k (many item i >>= fun as => pure (a :: as))
      (many item' j >>= fun as => pure (a :: as)) := ih.bind fun as => inStep_pure (a :: as)
  refine (h.mono hk).bind_of ?_ ?_ fun c r c' hrun => ?_
  · rintro (_ | a)
    exacts [advances_pure [], (hrest a).left]
  · rintro (_ | a)
    exacts [advances_pure [], (hrest a).right]
  · cases r with
    | none => exact .inl (inStep_pure [])
    | some a => exact .inr ⟨hitem c a c' hrun, hrest a⟩

/-- Each comma takes a token. -/
theorem inStep_commaList {item item' : Parser α} (h : InStep n item item') :
    InStep n (bounded (commaList item)) (bounded (commaList item')) := by
  refine inStep_bounded h.left.commaList h.right.commaList fun k i j hk ih => ?_
  refine (h.mono hk).bind fun a => inStep_accept (fun _ => ?_) (inStep_pure [a])
  exact ih.bind fun as => inStep_pure (a :: as)

theorem inStep_listIn (r : Rule) {item item' : Parser α} (h : InStep n item item') :
    InStep n (listIn r item) (listIn r item') := by
  refine (inStep_enter r).bind fun _ => inStep_expect fun _ => ?_
  refine inStep_accept (fun _ => inStep_pure []) ?_
  exact (inStep_commaList (h.mono (Nat.sub_le n 1))).bind fun as =>
    inStep_expect fun _ => inStep_pure as

end

end Parser

end ProcMips
