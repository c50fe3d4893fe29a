import Mathlib.Algebra.BigOperators.Group.List.Basic
import Mathlib.Algebra.Ring.Int.Defs
import ProcMips.Proofs.Machine.Flat

/-! The scratch area of code: the words from the stack pointer down to its deepest push. There code leaves
the words that it pushes, and all that lies outside stays as it was, also if the area wraps around the end
of memory, as long as it does not meet itself. -/

namespace ProcMips.Mips

namespace Instr

/-- The bytes by which an instruction lowers the stack pointer. -/
def lowers (i : Instr) : Int :=
  match i.stackEffect with
  | .ok n => -n
  | .error _ => 0

end Instr

/-- The bytes by which code as a whole lowers the stack pointer. -/
def lowered (k : List Instr) : Int := (k.map Instr.lowers).sum

/-- The bytes by which code lowers the stack pointer at its deepest push. -/
def deepest : List Instr → Int
  | [] => 0
  | i :: k => max 0 (i.lowers + deepest k)

theorem lowered_append (k k' : List Instr) : lowered (k ++ k') = lowered k + lowered k' := by
  rw [lowered, List.map_append, List.sum_append, lowered, lowered]

theorem lowered_cons (i : Instr) (k : List Instr) : lowered (i :: k) = i.lowers + lowered k := by
  rw [lowered, List.map_cons, List.sum_cons, lowered]

theorem deepest_nonneg (k : List Instr) : 0 ≤ deepest k := by
  cases k with
  | nil => exact Int.le_refl 0
  | cons i k => exact Int.le_max_left _ _

theorem lowered_le_deepest (k : List Instr) : lowered k ≤ deepest k := by
  induction k with
  | nil => exact Int.le_refl 0
  | cons i k ih =>
    rw [lowered_cons, deepest]
    omega

theorem deepest_append (k k' : List Instr) :
    deepest (k ++ k') = max (deepest k) (lowered k + deepest k') := by
  induction k with
  | nil =>
    have := deepest_nonneg k'
    rw [List.nil_append, lowered, List.map_nil, List.sum_nil, deepest]
    omega
  | cons i k ih =>
    rw [List.cons_append, deepest, deepest, ih, lowered_cons]
    omega

namespace Flat

/-- The byte at `a` is among the `n` bytes that end with the word at `sp`. -/
def InScratch (sp : BitVec 32) (n : Int) (a : BitVec 32) : Prop := ((sp + 3 - a).toNat : Int) < n

/-- No byte of the word at `a` is among the `n` bytes that end with the word at `sp`. -/
def Clear (sp : BitVec 32) (n : Int) (a : BitVec 32) : Prop :=
  ∀ b : BitVec 32, (b - a).toNat < 4 → ¬ InScratch sp n b

/-- `n` words below an address. -/
def below (sp : BitVec 32) (n : Nat) : BitVec 32 := sp - BitVec.ofNat 32 (4 * n)

section

variable {sp a : BitVec 32} {n n' : Int} {j : Nat}

theorem InScratch.of_below (h : InScratch (below sp j) n' a) (hn : 4 * j + n' ≤ n) :
    InScratch sp n a := by
  unfold InScratch below at *
  bv_omega

theorem Clear.below (h : Clear sp n a) (hn : 4 * j + n' ≤ n) : Clear (below sp j) n' a :=
  fun b hb hs => h b hb (hs.of_below hn)

theorem clear_of_le (h : n ≤ (sp - a).toNat) (h' : (sp - a).toNat ≤ 4294967292) : Clear sp n a := by
  intro b hb hs
  unfold InScratch at hs
  bv_omega

/-- Words that were pushed are clear of what is pushed behind them. -/
theorem clear_below {i : Nat} (hi : i < j) (hn : 4 * j + n' ≤ 4294967296) :
    Clear (Flat.below sp j) n' (Flat.below sp i) := by
  intro b hb hs
  unfold InScratch Flat.below at *
  bv_omega

theorem below_zero : below sp 0 = sp := by
  unfold below
  bv_omega

theorem below_below (i j : Nat) : below (below sp i) j = below sp (i + j) := by
  unfold below
  bv_omega

end

/-- The registers in which expressions are computed. -/
def temporaries : List Register := [.t0, .t1, .t4, .s0]

/-- Nothing has changed but temporaries. -/
structure SameButTemporaries (c c' : State) : Prop where
  regs : ∀ r ∉ temporaries, c'.regs r = c.regs r
  mem : c'.mem = c.mem

theorem SameButTemporaries.refl (c : State) : SameButTemporaries c c := ⟨fun _ _ => rfl, rfl⟩

theorem SameButTemporaries.trans {c c' c'' : State} (h : SameButTemporaries c c')
    (h' : SameButTemporaries c' c'') : SameButTemporaries c c'' :=
  ⟨fun r hr => (h'.regs r hr).trans (h.regs r hr), h'.mem.trans h.mem⟩

theorem sameButTemporaries_set {r : Register} (c : State) (v : BitVec 32) (hr : r ∈ temporaries) :
    SameButTemporaries c (c.set r v) := by
  refine ⟨fun q hq => ?_, rfl⟩
  rw [State.set_regs, if_neg (ne_of_mem_of_not_mem hr hq).symm]

namespace State

def push (c : State) (r : Register) : State :=
  (c.set .sp (c.regs .sp - 4)).store (c.regs .sp) (c.regs r)

def pop (c : State) (r : Register) : State :=
  (c.set r (c.load (c.regs .sp + 4))).set .sp (c.regs .sp + 4)

end State

variable {code : List Instr} {data : String → BitVec 32} {c c' : State}

theorem effects_pushReg {r : Register} (hr : r ≠ .sp) :
    (State.processor data).effects (pushReg r) c = some (c.push r) :=
  (State.memory data).effects_pushReg hr trivial

theorem effects_popReg {r : Register} (hr : r ≠ .sp) :
    (State.processor data).effects (popReg r) c = some (c.pop r) :=
  (State.memory data).effects_popReg hr trivial

/-- From `c` at `p` the machine gets to `c'` at `q`, with the words `ns` on the stack of `c` from its
stack pointer down. Nothing else has changed but temporaries and the `n` bytes of scratch. -/
structure Leaves (code : List Instr) (data : String → BitVec 32) (p q : Nat) (c : State)
    (ns : List (BitVec 32)) (n : Int) (c' : State) : Prop where
  reaches : Machine.Reaches code data ⟨p, c⟩ ⟨q, c'⟩
  sp : c'.regs .sp = below (c.regs .sp) ns.length
  held : ∀ i v, ns[i]? = some v → c'.load (below (c.regs .sp) i) = v
  regs : ∀ r ∉ temporaries, r ≠ .sp → c'.regs r = c.regs r
  mem : ∀ a, ¬ InScratch (c.regs .sp) n a → c'.mem a = c.mem a

namespace Leaves

variable {p q : Nat} {ns ms : List (BitVec 32)} {n n' : Int} {c₁ c₂ : State}

theorem refl : Leaves code data p p c [] n c :=
  ⟨.refl, below_zero.symm, by simp, fun _ _ _ => rfl, fun _ _ => rfl⟩

theorem ends {q' : Nat} (h : Leaves code data p q c ns n c₁) (hq : q' = q) :
    Leaves code data p q' c ns n c₁ := hq ▸ h

/-- A word that is clear of the scratch is still there. -/
theorem load_eq {a : BitVec 32} (h : Leaves code data p q c ns n c₁) (ha : Clear (c.regs .sp) n a) :
    c₁.load a = c.load a :=
  State.load_congr fun b hb => h.mem b (ha b hb)

theorem trans {q' : Nat} (h : Leaves code data p q c ns n c₁)
    (h' : Leaves code data q q' c₁ ms n' c₂) (hn : 4 * ns.length + n' ≤ n) (hsize : n ≤ 4294967296) :
    Leaves code data p q' c (ns ++ ms) n c₂ := by
  refine ⟨h.reaches.trans h'.reaches, ?_, fun i v hi => ?_, fun r hr hsp => ?_, fun a ha => ?_⟩
  · rw [h'.sp, h.sp, below_below, List.length_append]
  · rcases Nat.lt_or_ge i ns.length with hlt | hge
    · rw [List.getElem?_append_left hlt] at hi
      have hclear : Clear (c₁.regs .sp) n' (below (c.regs .sp) i) := by
        rw [h.sp]
        exact clear_below hlt (by omega)
      rw [h'.load_eq hclear]
      exact h.held i v hi
    · rw [List.getElem?_append_right hge] at hi
      have := h'.held (i - ns.length) v hi
      rwa [h.sp, below_below, Nat.add_sub_cancel' hge] at this
  · rw [h'.regs r hr hsp, h.regs r hr hsp]
  · have hdeeper : ¬ InScratch (c₁.regs .sp) n' a := by
      rw [h.sp]
      exact fun hs => ha (hs.of_below hn)
    rw [h'.mem a hdeeper, h.mem a ha]

/-- Behind code that changes only temporaries. -/
theorem steps {q' : Nat} (h : Leaves code data p q c ns n c₁)
    (hr : Machine.Reaches code data ⟨q, c₁⟩ ⟨q', c₂⟩) (hs : SameButTemporaries c₁ c₂) :
    Leaves code data p q' c ns n c₂ := by
  refine ⟨h.reaches.trans hr, ?_, fun i v hi => ?_, fun r hr hsp => ?_, fun a ha => ?_⟩
  · rw [hs.regs _ (by decide), h.sp]
  · rw [State.load, hs.mem]
    exact h.held i v hi
  · rw [hs.regs r hr, h.regs r hr hsp]
  · rw [hs.mem, h.mem a ha]

theorem push_one {r : Register} (hat : CodeAt code p (pushReg r)) (hr : r ≠ .sp) :
    Leaves code data p (p + 2) c [c.regs r] 4 (c.push r) := by
  refine ⟨reaches_of_effects hat (effects_pushReg hr), ?_, fun i v hi => ?_, fun q _ hq => ?_,
    fun a ha => ?_⟩
  · rw [State.push, State.store_regs, State.set_regs, if_pos rfl]
    rfl
  · obtain ⟨rfl, rfl⟩ : i = 0 ∧ c.regs r = v := by
      cases i with
      | zero => exact ⟨rfl, Option.some.inj hi⟩
      | succ i => simp at hi
    rw [below_zero, State.push, State.load_store]
  · rw [State.push, State.store_regs, State.set_regs, if_neg hq]
  · rw [State.push, State.mem_store_of_le, State.set_mem]
    unfold InScratch at ha
    bv_omega

theorem push {r : Register} (h : Leaves code data p q c ns n c₁) (hat : CodeAt code q (pushReg r))
    (hr : r ≠ .sp) (hn : 4 * ns.length + 4 ≤ n) (hsize : n ≤ 4294967296) :
    Leaves code data p (q + 2) c (ns ++ [c₁.regs r]) n (c₁.push r) :=
  h.trans (push_one hat hr) hn hsize

/-- The word that was pushed last is popped. -/
theorem pop {v : BitVec 32} {r : Register} (h : Leaves code data p q c (ns ++ [v]) n c₁)
    (hat : CodeAt code q (popReg r)) (hr : r ∈ temporaries) :
    Leaves code data p (q + 2) c ns n (c₁.pop r) ∧ (c₁.pop r).regs r = v := by
  have hsp : r ≠ .sp := ne_of_mem_of_not_mem hr (by decide)
  have htop : c₁.regs .sp + 4 = below (c.regs .sp) ns.length := by
    rw [h.sp, List.length_append, List.length_singleton]
    unfold below
    bv_omega
  have hheld (i : Nat) (w : BitVec 32) (hi : ns[i]? = some w) : (ns ++ [v])[i]? = some w := by
    rw [List.getElem?_append_left (List.getElem?_eq_some_iff.1 hi).1, hi]
  refine ⟨⟨h.reaches.trans (reaches_of_effects hat (effects_popReg hsp)), ?_,
    fun i w hi => h.held i w (hheld i w hi), fun q hq hq' => ?_, h.mem⟩, ?_⟩
  · rw [State.pop, State.set_regs, if_pos rfl, htop]
  · rw [State.pop, State.set_regs, if_neg hq', State.set_regs,
      if_neg (ne_of_mem_of_not_mem hr hq).symm]
    exact h.regs q hq hq'
  · rw [State.pop, State.set_regs, if_neg hsp, State.set_regs, if_pos rfl, htop]
    exact h.held _ v (by simp)

end Leaves

end Flat

end ProcMips.Mips
