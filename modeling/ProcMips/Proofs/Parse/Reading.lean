import ProcMips.Parse.Program
import ProcMips.Proofs.Parse.Grammar
import ProcMips.Proofs.Sequencing

/-! What a parser reads. `SoundAt` speaks of the tokens in front of it: if it succeeds it has read one
of its phrases, and if it fails it has read what one of them starts with. `Reads` speaks of lexemes
only, and says that it succeeds and what it leaves. Both pass through sequencing, and each primitive
parser has one law for each of them. -/

namespace ProcMips

/-- What an error says stands in place of what was wanted. -/
def ParseError.found? : ParseError → Option Lexeme
  | emptyProgram => none
  | expected _ found
  | expectedVarOrProcedure found
  | expectedProcedure found
  | expectedInstruction found
  | expectedExpression found
  | expectedAssignOrCall found
  | expectedElseOrEndif found
  | expectedArraySize found => found
  | invalidArraySize size => some (.literal size)

/-- Whether `l` is the only lexeme of the class `k`. -/
def TokenClass.Only (k : TokenClass) (l : Lexeme) : Prop := ∀ m : Lexeme, m.tokenClass = k ↔ m = l

theorem TokenClass.only_symbol (s : Symbol) : TokenClass.Only (.symbol s) (.symbol s) := by
  intro m
  cases m <;> simp [Lexeme.tokenClass]

theorem TokenClass.only_keyword (k : Keyword) : TokenClass.Only (.keyword k) (.keyword k) := by
  intro m
  cases m <;> simp [Lexeme.tokenClass]

def TokenCursor.lexemes (c : TokenCursor) : List Lexeme := c.rest.map Token.lexeme

theorem TokenCursor.next?_eq (c : TokenCursor) : c.next? = c.lexemes.head? := by
  rw [next?, lexemes, List.head?_map]

theorem TokenCursor.lexemes_eq_cons {c : TokenCursor} {l : Lexeme} {ls : List Lexeme}
    (h : c.lexemes = l :: ls) :
    ∃ line rest, c.rest = ⟨line, l⟩ :: rest ∧ rest.map Token.lexeme = ls := by
  obtain ⟨t, rest, hrest, rfl, rfl⟩ := List.map_eq_cons_iff.1 h
  exact ⟨t.line, rest, hrest, rfl⟩

/-- An error about the next token of `c`, or about the end. -/
structure PointsAt (e : Located ParseError) (c : TokenCursor) : Prop where
  line : e.line = c.line
  found : e.cause.found? = c.next?
  started : e.cause ≠ .emptyProgram

theorem pointsAt_expected (k : TokenClass) (c : TokenCursor) :
    PointsAt ⟨c.line, .expected [k] c.next?⟩ c := ⟨rfl, rfl, by simp⟩

namespace Parser

variable {α β : Type}

/-- From `c` a phrase of `D` is read, or the start of one, and the error is about what follows. -/
inductive Follows (D : List Token → α → Prop) (c : TokenCursor) :
    EStateM.Result (Located ParseError) TokenCursor α → Prop
  | ok {us : List Token} {a : α} {c' : TokenCursor} (hrest : c.rest = us ++ c'.rest)
    (hlast : c'.lastLine = c.lastLine) (h : D us a) : Follows D c (.ok a c')
  | error {us vs : List Token} {a : α} {e : Located ParseError} {c' : TokenCursor}
    (hrest : c.rest = us ++ c'.rest) (hlast : c'.lastLine = c.lastLine) (h : D (us ++ vs) a)
    (he : PointsAt e c') : Follows D c (.error e c')

/-- What `p` reads in front of `ts` is a phrase of `D`, or the start of one. -/
def SoundAt (p : Parser α) (ts : List Token) (D : List Token → α → Prop) : Prop :=
  ∀ c, c.rest = ts → Follows D c (p c)

/-- What `p` reads anywhere is a phrase of `D`, or the start of one. -/
def Sound (p : Parser α) (D : List Token → α → Prop) : Prop := ∀ ts, SoundAt p ts D

/-- `p` succeeds on `ls` in front of `after`, reads just `ls`, and its result satisfies `P`. -/
def Reads (p : Parser α) (ls after : List Lexeme) (P : α → Prop) : Prop :=
  ∀ c, c.lexemes = ls ++ after → ∃ a c', p c = .ok a c' ∧ c'.lexemes = after ∧ P a

/-- `p` succeeds everywhere and reads nothing. -/
def Silent (p : Parser α) : Prop :=
  ∀ c, ∃ a c', p c = .ok a c' ∧ c'.rest = c.rest ∧ c'.lastLine = c.lastLine

theorem silent_enter (r : Rule) : Silent (enter r) := by
  rintro ⟨_ | ⟨t, ts⟩, l, ns⟩
  · exact ⟨(), _, rfl, rfl, rfl⟩
  · exact ⟨(), _, rfl, rfl, rfl⟩

theorem silent_line : Silent line := fun c => ⟨c.line, c, rfl, rfl, rfl⟩

theorem silent_next? : Silent next? := fun c => ⟨c.next?, c, rfl, rfl, rfl⟩

theorem silent_sees (k : TokenClass) : Silent (sees k) := fun c => ⟨_, c, rfl, rfl, rfl⟩

theorem silent_note (n : ParseNote) : Silent (note n) := fun c => ⟨(), c.note n, rfl, rfl, rfl⟩

section

variable {p : Parser α} {f : α → Parser β} {ts : List Token} {D : List Token → β → Prop}

/-- There is a phrase: the one that is read at the end, or the one that is missing there. -/
theorem SoundAt.exists_phrase {q : Parser β} (h : SoundAt q [] D) : ∃ us b, D us b := by
  have hend := h ⟨[], 1, []⟩ rfl
  generalize q ⟨[], 1, []⟩ = r at hend
  cases hend with
  | ok _ _ h => exact ⟨_, _, h⟩
  | error _ _ h _ => exact ⟨_, _, h⟩

/-- What follows something that has been read, as part of the whole. -/
theorem Follows.append {c c' : TokenCursor} {us : List Token}
    {r : EStateM.Result (Located ParseError) TokenCursor β}
    (h : Follows (fun vs => D (us ++ vs)) c' r) (hrest : c.rest = us ++ c'.rest)
    (hlast : c'.lastLine = c.lastLine) : Follows D c r := by
  cases h with
  | ok hrest' hlast' h =>
    refine .ok ?_ (hlast'.trans hlast) h
    rw [hrest, hrest', List.append_assoc]
  | error hrest' hlast' h he =>
    rw [← List.append_assoc] at h
    refine .error ?_ (hlast'.trans hlast) h he
    rw [hrest, hrest', List.append_assoc]

/-- What follows a token that has been read. -/
theorem Follows.cons {c c' : TokenCursor} {t : Token}
    {r : EStateM.Result (Located ParseError) TokenCursor β}
    (h : Follows (fun vs => D (t :: vs)) c' r) (hrest : c.rest = t :: c'.rest)
    (hlast : c'.lastLine = c.lastLine) : Follows D c r := by
  have hone : Follows (fun vs => D ([t] ++ vs)) c' r := h
  exact hone.append hrest hlast

/-- Nothing is read, and the next token is at fault. -/
theorem Follows.stuck {c : TokenCursor} {e : Located ParseError} (h : ∃ us b, D us b)
    (he : PointsAt e c) : Follows D c (.error e c) := by
  obtain ⟨us, b, h⟩ := h
  rw [← List.nil_append us] at h
  exact .error rfl rfl h he

theorem soundAt_pure {a : β} (h : D [] a) : SoundAt (pure a) ts D := fun _ _ => .ok rfl rfl h

theorem soundAt_fail {e : ParseError} (hfound : e.found? = ts.head?.map Token.lexeme)
    (hstarted : e ≠ .emptyProgram) (h : ∃ us b, D us b) : SoundAt (fail e) ts D := by
  rintro c rfl
  exact .stuck h ⟨rfl, hfound, hstarted⟩

theorem soundAt_fail_bind {e : ParseError} (hfound : e.found? = ts.head?.map Token.lexeme)
    (hstarted : e ≠ .emptyProgram) (h : ∃ us b, D us b) : SoundAt (fail e >>= f) ts D := by
  rintro c rfl
  exact .stuck h ⟨rfl, hfound, hstarted⟩

/-- A phrase of `p` goes on to a phrase of the whole, also where it was not read in full. -/
theorem SoundAt.bind_of {E : List Token → α → Prop} (hp : SoundAt p ts E)
    (hall : ∀ us a, E us a → ∃ vs b, D (us ++ vs) b)
    (hf : ∀ us rest a, ts = us ++ rest → E us a → SoundAt (f a) rest fun vs => D (us ++ vs)) :
    SoundAt (p >>= f) ts D := by
  rintro c rfl
  have hc := hp c rfl
  change Follows D c (EStateM.bind p f c)
  unfold EStateM.bind
  generalize p c = r at hc
  cases hc with
  | ok hrest hlast h => exact (hf _ _ _ hrest h _ rfl).append hrest hlast
  | error hrest hlast h he =>
    obtain ⟨vs, b, h⟩ := hall _ _ h
    rw [List.append_assoc] at h
    exact .error hrest hlast h he

theorem SoundAt.bind {E : List Token → α → Prop} (hp : SoundAt p ts E)
    (hf : ∀ us rest a, E us a → SoundAt (f a) rest fun vs => D (us ++ vs)) :
    SoundAt (p >>= f) ts D :=
  hp.bind_of (fun us a h => (hf us [] a h).exists_phrase) fun us rest a _ h => hf us rest a h

theorem SoundAt.mono {E : List Token → β → Prop} {q : Parser β} (hq : SoundAt q ts E)
    (h : ∀ us a, E us a → D us a) : SoundAt q ts D := by
  intro c hc
  have hrun := hq c hc
  generalize q c = r at hrun
  cases hrun with
  | ok hrest hlast hE => exact .ok hrest hlast (h _ _ hE)
  | error hrest hlast hE he => exact .error hrest hlast (h _ _ hE) he

/-- A phrase of `p`, with something made of its result. -/
theorem SoundAt.map {E : List Token → α → Prop} {g : α → β} (hp : SoundAt p ts E)
    (h : ∀ us a, E us a → D us (g a)) : SoundAt (p >>= fun a => pure (g a)) ts D := by
  refine hp.bind fun us _ a ha => soundAt_pure ?_
  rw [List.append_nil]
  exact h us a ha

theorem Silent.soundAt_bind (hp : Silent p) (hf : ∀ a, SoundAt (f a) ts D) :
    SoundAt (p >>= f) ts D := by
  rintro c rfl
  obtain ⟨a, c', ha, hrest, hlast⟩ := hp c
  change Follows D c (EStateM.bind p f c)
  rw [EStateM.bind, ha]
  have hnone : Follows (fun vs => D ([] ++ vs)) c' (f a c') := hf a c' hrest
  exact hnone.append hrest.symm hlast

/-- A line that is asked for is the line of the next token. -/
theorem soundAt_line {f : Line → Parser β}
    (hf : ∀ l, (∀ t ∈ ts.head?, t.line = l) → SoundAt (f l) ts D) : SoundAt (line >>= f) ts D := by
  rintro c rfl
  refine hf c.line (fun t ht => ?_) c rfl
  obtain ⟨rest, hrest⟩ := List.head?_eq_some_iff.1 ht
  rw [TokenCursor.line, hrest]

theorem soundAt_next? {f : Option Lexeme → Parser β}
    (hf : SoundAt (f (ts.head?.map Token.lexeme)) ts D) : SoundAt (next? >>= f) ts D := by
  rintro c rfl
  exact hf c rfl

theorem soundAt_sees {k : TokenClass} {f : Bool → Parser β}
    (hf : SoundAt (f (ts.head?.map (Lexeme.tokenClass ∘ Token.lexeme) == some k)) ts D) :
    SoundAt (sees k >>= f) ts D := by
  rintro c rfl
  rw [← Option.map_map] at hf
  exact hf c rfl

theorem soundAt_advance {t : Token} {f : Unit → Parser β}
    (hf : SoundAt (f ()) ts fun us => D (t :: us)) : SoundAt (advance >>= f) (t :: ts) D := by
  intro c hc
  have htail : c.rest.tail = ts := by rw [hc, List.tail_cons]
  exact (hf { c with rest := c.rest.tail } htail).cons (by rw [hc, List.tail_cons]) rfl

theorem soundAt_accept {k : TokenClass} {l : Lexeme} (hk : k.Only l) {f : Option Line → Parser β}
    (hsome : ∀ n rest, ts = ⟨n, l⟩ :: rest → SoundAt (f (some n)) rest fun us => D (⟨n, l⟩ :: us))
    (hnone : ts.head?.map Token.lexeme ≠ some l → SoundAt (f none) ts D) :
    SoundAt (accept k >>= f) ts D := by
  rintro c rfl
  change Follows D c (EStateM.bind (accept k) f c)
  unfold EStateM.bind accept
  cases hrest : c.rest with
  | nil => exact hnone (by simp [hrest]) c rfl
  | cons t rest =>
    dsimp only
    split_ifs with ht
    · obtain rfl := (hk t.lexeme).1 ht
      exact (hsome t.line rest hrest { c with rest } rfl).cons hrest rfl
    · refine hnone ?_ c rfl
      rw [hrest, List.head?_cons, Option.map_some, ne_eq, Option.some.injEq, ← hk]
      exact ht

theorem soundAt_expect {k : TokenClass} {l : Lexeme} (hk : k.Only l) {f : Line → Parser β}
    (hf : ∀ n rest, SoundAt (f n) rest fun us => D (⟨n, l⟩ :: us)) :
    SoundAt (expect k >>= f) ts D := by
  rintro c rfl
  have hmissing : ∃ us b, D us b := by
    obtain ⟨us, b, h⟩ := (hf 1 []).exists_phrase
    exact ⟨_, b, h⟩
  change Follows D c (EStateM.bind (expect k) f c)
  unfold EStateM.bind expect
  cases hrest : c.rest with
  | nil =>
    have hpoints := pointsAt_expected k c
    rw [TokenCursor.line, TokenCursor.next?, hrest] at hpoints
    exact .stuck hmissing hpoints
  | cons t rest =>
    dsimp only
    split_ifs with ht
    · obtain rfl := (hk t.lexeme).1 ht
      exact (hf t.line rest { c with rest } rfl).cons hrest rfl
    · have hpoints := pointsAt_expected k c
      rw [TokenCursor.line, TokenCursor.next?, hrest] at hpoints
      exact .stuck hmissing hpoints

theorem soundAt_identifier {f : Line × String → Parser β}
    (hf : ∀ n x rest, SoundAt (f (n, x)) rest fun us => D (⟨n, .name x⟩ :: us)) :
    SoundAt (identifier >>= f) ts D := by
  rintro c rfl
  have hmissing : ∃ us b, D us b := by
    obtain ⟨us, b, h⟩ := (hf 1 "x" []).exists_phrase
    exact ⟨_, b, h⟩
  change Follows D c (EStateM.bind identifier f c)
  unfold EStateM.bind identifier
  split
  · next heq =>
    split at heq
    · next n x rest hrest =>
      cases heq
      exact (hf n x rest { c with rest } rfl).cons hrest rfl
    · cases heq
  · next heq =>
    split at heq
    · cases heq
    · cases heq
      exact .stuck hmissing (pointsAt_expected .identifier c)

theorem soundAt_bounded {p : Nat → Parser β} (h : ∀ n, ts.length < n → SoundAt (p n) ts D) :
    SoundAt (bounded p) ts D := by
  rintro c rfl
  exact h (c.rest.length + 1) (Nat.lt_succ_self _) c rfl

end

section

variable {p : Parser α} {f : α → Parser β} {ls ms after : List Lexeme} {P : β → Prop}

theorem reads_pure {a : β} (h : P a) : Reads (pure a) [] after P := fun c hc => ⟨a, c, rfl, hc, h⟩

theorem Reads.bind {Q : α → Prop} (hp : Reads p ls (ms ++ after) Q)
    (hf : ∀ a, Q a → Reads (f a) ms after P) : Reads (p >>= f) (ls ++ ms) after P := by
  intro c hc
  rw [List.append_assoc] at hc
  obtain ⟨a, c', ha, hc', hQ⟩ := hp c hc
  obtain ⟨b, c'', hb, hc'', hP⟩ := hf a hQ c' hc'
  exact ⟨b, c'', step_bind_eq_ok.2 ⟨a, c', ha, hb⟩, hc'', hP⟩

theorem Reads.bind_nil {Q : α → Prop} (hp : Reads p ls after Q)
    (hf : ∀ a, Q a → Reads (f a) [] after P) : Reads (p >>= f) ls after P := by
  rw [← List.append_nil ls]
  exact Reads.bind hp hf

theorem Silent.reads_bind (hp : Silent p) (hf : ∀ a, Reads (f a) ls after P) :
    Reads (p >>= f) ls after P := by
  intro c hc
  obtain ⟨a, c', ha, hsame, -⟩ := hp c
  obtain ⟨b, c'', hb, hc'', hP⟩ := hf a c' (by rw [TokenCursor.lexemes, hsame]; exact hc)
  exact ⟨b, c'', step_bind_eq_ok.2 ⟨a, c', ha, hb⟩, hc'', hP⟩

theorem reads_next? {f : Option Lexeme → Parser β}
    (hf : Reads (f (ls ++ after).head?) ls after P) : Reads (next? >>= f) ls after P := by
  intro c hc
  obtain ⟨b, c', hb, hc', hP⟩ := hf c hc
  refine ⟨b, c', step_bind_eq_ok.2 ⟨_, c, rfl, ?_⟩, hc', hP⟩
  rwa [TokenCursor.next?_eq, hc]

theorem reads_sees {k : TokenClass} {f : Bool → Parser β}
    (hf : Reads (f ((ls ++ after).head?.map Lexeme.tokenClass == some k)) ls after P) :
    Reads (sees k >>= f) ls after P := by
  intro c hc
  obtain ⟨b, c', hb, hc', hP⟩ := hf c hc
  refine ⟨b, c', step_bind_eq_ok.2 ⟨_, c, rfl, ?_⟩, hc', hP⟩
  rwa [TokenCursor.next?_eq, hc]

theorem reads_advance {l : Lexeme} {f : Unit → Parser β} (hf : Reads (f ()) ls after P) :
    Reads (advance >>= f) (l :: ls) after P := by
  intro c hc
  obtain ⟨line, rest, hrest, hls⟩ := TokenCursor.lexemes_eq_cons hc
  obtain ⟨b, c', hb, hc', hP⟩ := hf { c with rest := c.rest.tail }
    (by rw [TokenCursor.lexemes, hrest]; exact hls)
  exact ⟨b, c', step_bind_eq_ok.2 ⟨(), _, rfl, hb⟩, hc', hP⟩

theorem reads_accept {k : TokenClass} {l : Lexeme} (hk : k.Only l) {f : Option Line → Parser β}
    (hf : ∀ n, Reads (f (some n)) ls after P) : Reads (accept k >>= f) (l :: ls) after P := by
  intro c hc
  obtain ⟨line, rest, hrest, hls⟩ := TokenCursor.lexemes_eq_cons hc
  obtain ⟨b, c', hb, hc', hP⟩ := hf line { c with rest } hls
  refine ⟨b, c', step_bind_eq_ok.2 ⟨some line, { c with rest }, ?_, hb⟩, hc', hP⟩
  rw [accept, hrest]
  exact if_pos ((hk l).2 rfl)

/-- Nothing is accepted in front of another lexeme. -/
theorem reads_accept_none {k : TokenClass} {l : Lexeme} (hk : k.Only l)
    {f : Option Line → Parser β} (hl : (ls ++ after).head? ≠ some l)
    (hf : Reads (f none) ls after P) : Reads (accept k >>= f) ls after P := by
  intro c hc
  obtain ⟨b, c', hb, hc', hP⟩ := hf c hc
  refine ⟨b, c', step_bind_eq_ok.2 ⟨none, c, ?_, hb⟩, hc', hP⟩
  rw [← hc, ← TokenCursor.next?_eq, TokenCursor.next?] at hl
  unfold accept
  cases hrest : c.rest with
  | nil => rfl
  | cons t ts =>
    rw [hrest] at hl
    exact if_neg fun ht => hl (congrArg some ((hk t.lexeme).1 ht))

theorem reads_expect {k : TokenClass} {l : Lexeme} (hk : k.Only l) {f : Line → Parser β}
    (hf : ∀ n, Reads (f n) ls after P) : Reads (expect k >>= f) (l :: ls) after P := by
  intro c hc
  obtain ⟨line, rest, hrest, hls⟩ := TokenCursor.lexemes_eq_cons hc
  obtain ⟨b, c', hb, hc', hP⟩ := hf line { c with rest } hls
  refine ⟨b, c', step_bind_eq_ok.2 ⟨line, { c with rest }, ?_, hb⟩, hc', hP⟩
  rw [expect, hrest]
  exact if_pos ((hk l).2 rfl)

theorem reads_identifier {x : String} {f : Line × String → Parser β}
    (hf : ∀ n, Reads (f (n, x)) ls after P) :
    Reads (identifier >>= f) (.name x :: ls) after P := by
  intro c hc
  obtain ⟨line, rest, hrest, hls⟩ := TokenCursor.lexemes_eq_cons hc
  obtain ⟨b, c', hb, hc', hP⟩ := hf line { c with rest } hls
  refine ⟨b, c', step_bind_eq_ok.2 ⟨(line, x), { c with rest }, ?_, hb⟩, hc', hP⟩
  rw [identifier, hrest]

theorem reads_bounded {p : Nat → Parser β}
    (h : ∀ n, (ls ++ after).length < n → Reads (p n) ls after P) :
    Reads (bounded p) ls after P := by
  intro c hc
  refine h (c.rest.length + 1) ?_ c hc
  rw [← hc, TokenCursor.lexemes, List.length_map]
  exact Nat.lt_succ_self _

end

end Parser

end ProcMips
