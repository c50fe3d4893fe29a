import Mathlib.Data.List.Nodup
import ProcMips.Proofs.Semantics.Processor

/-! Running code that stands somewhere in a program. Code without jumps runs through, with the effects
of its instructions in turn; pieces of code that stand one behind the other run one after the other;
and a label that stands once is where a jump to it leads. -/

namespace ProcMips.Mips

/-- `c` stands in `code` from `pc` on. -/
def CodeAt (code : List Instr) : Nat → List Instr → Prop
  | _, [] => True
  | pc, i :: c => code[pc]? = some i ∧ CodeAt code (pc + 1) c

theorem codeAt_append {code c d : List Instr} {pc : Nat} :
    CodeAt code pc (c ++ d) ↔ CodeAt code pc c ∧ CodeAt code (pc + c.length) d := by
  induction c generalizing pc with
  | nil => simp [CodeAt]
  | cons i c ih =>
    rw [List.cons_append, CodeAt, CodeAt, ih, and_assoc, List.length_cons]
    rw [show pc + 1 + c.length = pc + (c.length + 1) by omega]

theorem codeAt_of_split (pre c post : List Instr) : CodeAt (pre ++ c ++ post) pre.length c := by
  induction c generalizing pre with
  | nil => trivial
  | cons i c ih =>
    refine ⟨by simp, ?_⟩
    have := ih (pre ++ [i])
    simpa using this

variable {code c d : List Instr}

/-- The labels that stand in code, in order. -/
def labelsOf (c : List Instr) : List String :=
  c.filterMap fun
    | .label l => some l
    | _ => none

theorem labelsOf_append (c d : List Instr) : labelsOf (c ++ d) = labelsOf c ++ labelsOf d :=
  List.filterMap_append

theorem mem_labelsOf {l : String} : l ∈ labelsOf c ↔ .label l ∈ c := by
  unfold labelsOf
  rw [List.mem_filterMap]
  constructor
  · rintro ⟨i, hi, h⟩
    split at h
    · cases h
      exact hi
    · cases h
  · exact fun h => ⟨_, h, rfl⟩

/-- Each label stands once, so that a jump leads to where it stands. -/
theorem resolve_eq_some (hu : (labelsOf code).Nodup) {l : String} {n : Nat}
    (h : code[n]? = some (.label l)) : resolve code l = some n := by
  obtain ⟨hlt, hn⟩ := List.getElem?_eq_some_iff.1 h
  unfold resolve
  rw [List.findIdx?_eq_some_iff_getElem]
  refine ⟨hlt, by simp [hn], fun j hj => ?_⟩
  rw [decide_eq_true_eq]
  intro heq
  -- two places with this label split the code so that it has the label twice
  have hsplit : code = code.take n ++ .label l :: code.drop (n + 1) := by
    rw [← hn, List.getElem_cons_drop, List.take_append_drop]
  rw [hsplit, labelsOf_append] at hu
  refine List.disjoint_of_nodup_append hu (a := l) (mem_labelsOf.2 ?_) (mem_labelsOf.2 (by simp))
  rw [← heq]
  exact List.mem_take_iff_getElem.2 ⟨j, by omega, rfl⟩

section

variable {σ W : Type} {P : Processor σ W} {code k k' : List Instr} {p n : Nat} {c c' : σ} {l : String}

theorem effects_cons {i : Instr} : P.effects (i :: k) c = (P.effect i c).bind (P.effects k) := rfl

theorem effects_append : P.effects (k ++ k') c = (P.effects k c).bind (P.effects k') :=
  List.foldlM_append

theorem Processor.Reaches.trans {m m' m'' : Machine σ} (h : P.Reaches code m m') (h' : P.Reaches code m' m'') :
    P.Reaches code m m'' := Relation.ReflTransGen.trans h h'

theorem Processor.Reaches.of_step {m m' : Machine σ} (h : P.step code m = some m') : P.Reaches code m m' :=
  Relation.ReflTransGen.single h

theorem Processor.step_eq_none {m : Machine σ} (h : code[m.pc]? = none) : P.step code m = none := by
  unfold step stepBy
  rw [h]

theorem Processor.Reaches.eq_of_step_eq_none {m m' : Machine σ} (h : P.Reaches code m m')
    (hstop : P.step code m = none) : m = m' := by
  rcases h.cases_head with heq | ⟨_, hstep, -⟩
  · exact heq
  · cases hstop.symm.trans hstep

/-- A run stops in one state only. -/
theorem Processor.Reaches.eq_of_stops {m m' m'' : Machine σ} (h' : P.Reaches code m m')
    (h'' : P.Reaches code m m'') (hstop' : P.step code m' = none) (hstop'' : P.step code m'' = none) :
    m' = m'' := by
  have hunique : Relator.RightUnique fun a b : Machine σ => P.step code a = some b :=
    fun _ _ _ hb hc => Option.some.inj (hb.symm.trans hc)
  rcases Relation.ReflTransGen.total_of_right_unique hunique h' h'' with h | h
  · exact Processor.Reaches.eq_of_step_eq_none h hstop'
  · exact (Processor.Reaches.eq_of_step_eq_none h hstop'').symm

theorem step_of_effect {i : Instr} (hi : code[p]? = some i) (he : P.effect i c = some c') :
    P.step code ⟨p, c⟩ = some ⟨p + 1, c'⟩ := by
  unfold Processor.step Processor.stepBy
  dsimp only
  rw [hi]
  cases i with
  | j | jal | jr | beqz | bnez => cases he
  | _ =>
    dsimp only
    rw [he]
    rfl

theorem reaches_of_effects (hat : CodeAt code p k) (he : P.effects k c = some c') :
    P.Reaches code ⟨p, c⟩ ⟨p + k.length, c'⟩ := by
  induction k generalizing p c with
  | nil =>
    cases he
    exact Relation.ReflTransGen.refl
  | cons i k ih =>
    rw [effects_cons, Option.bind_eq_some_iff] at he
    obtain ⟨mid, hi, hrest⟩ := he
    have hrest := ih hat.2 hrest
    rw [List.length_cons, show p + (k.length + 1) = p + 1 + k.length by omega]
    exact .trans (.of_step (step_of_effect hat.1 hi)) hrest

theorem reaches_j (hi : code[p]? = some (.j l)) (hl : resolve code l = some n) :
    P.Reaches code ⟨p, c⟩ ⟨n, c⟩ := by
  apply Processor.Reaches.of_step
  simp only [Processor.step, Processor.stepBy, hi, Machine.jump, hl, Option.map_some]

theorem reaches_jal (hi : code[p]? = some (.jal l)) (hl : resolve code l = some n) :
    P.Reaches code ⟨p, c⟩ ⟨n, P.set c .ra (P.word (p + 1))⟩ := by
  apply Processor.Reaches.of_step
  simp only [Processor.step, Processor.stepBy, hi, Machine.jump, hl, Option.map_some]

theorem reaches_jr {r : Register} (hi : code[p]? = some (.jr r))
    (hr : P.target (P.regs c r) = some n) : P.Reaches code ⟨p, c⟩ ⟨n, c⟩ := by
  apply Processor.Reaches.of_step
  simp only [Processor.step, Processor.stepBy, hi, hr, Option.map_some]

/-- A branch is taken if the register has the truth value that it asks for. -/
theorem reaches_branch {d : Bool} {r : Register}
    (hi : code[p]? = some (if d then .bnez r l else .beqz r l)) (hl : resolve code l = some n) :
    P.Reaches code ⟨p, c⟩ ⟨if P.isTrue (P.regs c r) = d then n else p + 1, c⟩ := by
  apply Processor.Reaches.of_step
  cases d with
  | true | false =>
    simp only [Bool.false_eq_true, if_true, if_false] at hi
    simp only [Processor.step, Processor.stepBy, hi, Machine.jump, hl, Option.map_some]
    cases P.isTrue (P.regs c r) <;> rfl

end

end ProcMips.Mips
