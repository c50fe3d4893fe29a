import ProcMips.Proofs.Machine.Execution

/-! One processor follows another. If words and states of the two are related, and a run keeps to the limits
within which the relation holds, then the other processor makes the same run, step for step. -/

namespace ProcMips.Mips

/-- How states and words of `Q` stand for those of `P`, within limits. -/
structure Simulation {σ W τ V : Type} (P : Processor σ W) (Q : Processor τ V) (L : Limits σ W) where
  Related : σ → τ → Prop
  Means : W → V → Prop
  regs : ∀ {c d}, Related c d → ∀ r, Means (P.regs c r) (Q.regs d r)
  set : ∀ {c d v w}, Related c d → Means v w → ∀ r, Related (P.set c r v) (Q.set d r w)
  word : ∀ n, Means (P.word n) (Q.word n)
  apply : ∀ {o a b a' b' v}, L.Combines o a b → Means a a' → Means b b' → P.apply o a b = some v →
    ∃ v', Q.apply o a' b' = some v' ∧ Means v v'
  isTrue : ∀ {v w}, L.Tests v → Means v w → Q.isTrue w = P.isTrue v
  target : ∀ {v w n}, L.Returns v → Means v w → P.target v = some n → Q.target w = some n
  load : ∀ {c d a v}, Related c d → L.Accesses c a → P.load c a = some v →
    ∃ v', Q.load d a = some v' ∧ Means v v'
  store : ∀ {c d a v w c'}, Related c d → L.Accesses c a → Means v w → P.store c a v = some c' →
    ∃ d', Q.store d a w = some d' ∧ Related c' d'
  syscall : ∀ {c d c'}, Related c d → L.Serves c → P.syscall c = some c' →
    ∃ d', Q.syscall d = some d' ∧ Related c' d'

namespace Simulation

variable {σ W τ V : Type} {P : Processor σ W} {Q : Processor τ V} {L : Limits σ W}
  (S : Simulation P Q L) {code : List Instr} {c c' : σ} {d : τ} {m m₁ e : Machine σ}
  {m' m₁' : Machine τ}

/-- The two machines are at the same place, in states that are related. -/
structure Agree (m : Machine σ) (m' : Machine τ) : Prop where
  pc : m'.pc = m.pc
  core : S.Related m.core m'.core

theorem effect {i : Instr} (h : S.Related c d) (hi : L.Allows P c i) (he : P.effect i c = some c') :
    ∃ d', Q.effect i d = some d' ∧ S.Related c' d' := by
  have combined {o : Op} {a b : W} {a' b' : V} (r : Register) (hab : L.Combines o a b)
      (ha : S.Means a a') (hb : S.Means b b') (he : (P.apply o a b).map (P.set c r) = some c') :
      ∃ d', (Q.apply o a' b').map (Q.set d r) = some d' ∧ S.Related c' d' := by
    obtain ⟨v, hv, rfl⟩ := Option.map_eq_some_iff.1 he
    obtain ⟨w, hw, hvw⟩ := S.apply hab ha hb hv
    exact ⟨_, by rw [hw, Option.map_some], S.set h hvw r⟩
  cases i with
  | label l =>
    cases he
    exact ⟨d, rfl, h⟩
  | li r n =>
    cases he
    exact ⟨_, rfl, S.set h (S.word n) r⟩
  | move r s =>
    cases he
    exact ⟨_, rfl, S.set h (S.regs h s) r⟩
  | lw r a =>
    obtain ⟨v, hv, rfl⟩ := Option.map_eq_some_iff.1 he
    obtain ⟨w, hw, hvw⟩ := S.load h hi hv
    exact ⟨_, by rw [Processor.effect, hw, Option.map_some], S.set h hvw r⟩
  | sw r a => exact S.store h hi (S.regs h r) he
  | op o r x y => exact combined r hi (S.regs h x) (S.regs h y) he
  | addi r x n | subi r x n => exact combined r hi (S.regs h x) (S.word n) he
  | syscall => exact S.syscall h hi he
  | _ => cases he

theorem jump {l : String} {entry : String → Option Nat} (h : S.Related m.core m'.core)
    (hm : m.jump entry l = some m₁) : ∃ m₁', m'.jump entry l = some m₁' ∧ S.Agree m₁ m₁' := by
  obtain ⟨pc, hpc, rfl⟩ := Option.map_eq_some_iff.1 hm
  exact ⟨⟨pc, m'.core⟩, by rw [Machine.jump, hpc, Option.map_some], rfl, h⟩

/-- A step within the limits is made by the other processor too. -/
theorem step (h : S.Agree m m') (hfit : ∀ i, code[m.pc]? = some i → L.Allows P m.core i)
    (hm : P.step code m = some m₁) : ∃ m₁', Q.step code m' = some m₁' ∧ S.Agree m₁ m₁' := by
  obtain ⟨_, c⟩ := m
  obtain ⟨pc, d⟩ := m'
  obtain ⟨rfl, hcd⟩ := h
  dsimp only at hcd hfit
  cases hi : code[pc]? with
  | none =>
    simp only [Processor.step, Processor.stepBy, hi] at hm
    cases hm
  | some i =>
    have hallowed := hfit i hi
    cases i with
    | j l =>
      simp only [Processor.step, Processor.stepBy, hi] at hm ⊢
      exact S.jump hcd hm
    | jal l =>
      simp only [Processor.step, Processor.stepBy, hi] at hm ⊢
      exact S.jump (S.set hcd (S.word _) .ra) hm
    | jr r =>
      simp only [Processor.step, Processor.stepBy, hi] at hm ⊢
      obtain ⟨n, hn, rfl⟩ := Option.map_eq_some_iff.1 hm
      exact ⟨⟨n, d⟩, by rw [S.target hallowed (S.regs hcd r) hn, Option.map_some], rfl, hcd⟩
    -- a test has the same outcome on both sides
    | beqz r l =>
      simp only [Processor.step, Processor.stepBy, hi, S.isTrue hallowed (S.regs hcd r)] at hm ⊢
      split_ifs at hm ⊢ with hr
      · cases hm
        exact ⟨⟨pc + 1, d⟩, rfl, rfl, hcd⟩
      · exact S.jump hcd hm
    | bnez r l =>
      simp only [Processor.step, Processor.stepBy, hi, S.isTrue hallowed (S.regs hcd r)] at hm ⊢
      split_ifs at hm ⊢ with hr
      · exact S.jump hcd hm
      · cases hm
        exact ⟨⟨pc + 1, d⟩, rfl, rfl, hcd⟩
    | _ =>
      simp only [Processor.step, Processor.stepBy, hi] at hm ⊢
      obtain ⟨c', hc', rfl⟩ := Option.map_eq_some_iff.1 hm
      obtain ⟨d', hd', hcd'⟩ := S.effect hcd hallowed hc'
      exact ⟨⟨pc + 1, d'⟩, by rw [hd', Option.map_some], rfl, hcd'⟩

/-- A run within the limits is a run of the other processor. -/
theorem reaches (h : S.Agree m m') (hfit : L.Fits P code m) (hm : P.Reaches code m m₁) :
    ∃ m₁', Q.Reaches code m' m₁' ∧ S.Agree m₁ m₁' := by
  induction hm with
  | refl => exact ⟨m', .refl, h⟩
  | tail hm hstep ih =>
    obtain ⟨m₂, hm₂, hagree⟩ := ih
    obtain ⟨m₃, hm₃, hagree⟩ := S.step hagree (hfit _ hm) hstep
    exact ⟨m₃, hm₂.tail hm₃, hagree⟩

/-- And if that run leaves the code, then the other processor makes no other run. -/
theorem reaches_back (h : S.Agree m m') (hfit : L.Fits P code m) (hend : P.Reaches code m e)
    (hleaves : code[e.pc]? = none) (hm : Q.Reaches code m' m₁') :
    ∃ m₁, P.Reaches code m m₁ ∧ S.Agree m₁ m₁' := by
  induction hm with
  | refl => exact ⟨m, .refl, h⟩
  | tail _ hstep ih =>
    obtain ⟨m₁, hm₁, hagree⟩ := ih
    cases hnext : P.step code m₁ with
    | some m₂ =>
      obtain ⟨m₂', hm₂', hagree⟩ := S.step hagree (hfit _ hm₁) hnext
      cases hstep.symm.trans hm₂'
      exact ⟨m₂, hm₁.tail hnext, hagree⟩
    | none =>
      -- where the run stops it has left the code, for both
      obtain rfl := hend.eq_of_stops hm₁ (Processor.step_eq_none hleaves) hnext
      rw [Processor.step_eq_none (hagree.pc ▸ hleaves)] at hstep
      cases hstep

end Simulation

namespace Limits

variable {σ W : Type} (L : Limits σ W) (P : Processor σ W) (code : List Instr)
  [∀ c i, Decidable (L.Allows P c i)]

/-- Whether a run stops in fewer than `n` steps and keeps to the limits. -/
def checks : Nat → Machine σ → Bool
  | 0, _ => false
  | n + 1, m => (code[m.pc]?.all fun i => L.Allows P m.core i) &&
      match P.step code m with
      | some m' => checks n m'
      | none => true

variable {L P code}

theorem fits_of_checks {n : Nat} {m : Machine σ} (h : L.checks P code n m = true) :
    L.Fits P code m := by
  induction n generalizing m with
  | zero => cases h
  | succ n ih =>
    rw [checks, Bool.and_eq_true] at h
    obtain ⟨hfirst, hrest⟩ := h
    intro m' hm'
    rcases hm'.cases_head with rfl | ⟨next, hstep, hm'⟩
    · intro i hi
      rw [hi] at hfirst
      exact of_decide_eq_true hfirst
    · rw [hstep] at hrest
      exact ih hrest m' hm'

end Limits

end ProcMips.Mips
