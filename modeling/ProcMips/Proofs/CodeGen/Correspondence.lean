import ProcMips.Proofs.CodeGen.Labels
import ProcMips.Proofs.Frame.Finishing
import ProcMips.Proofs.Machine.Stack
import ProcMips.Proofs.Semantics.Steps

/-! When a core holds what a program has computed: every assigned cell is in the memory of its variable,
a block of data for a global and a slot of the frame for a local. Reading and assigning a variable of
the program are reading and storing at the place of the cell. -/

namespace ProcMips

open Mips

namespace Var

def cells : Var → List (Option Int)
  | single cell => [cell]
  | array cells => cells

theorem cells_ofShape (cell : Option Int) (shape : Shape) :
    (ofShape cell shape).cells = List.replicate shape.words cell := by
  cases shape <;> rfl

theorem get?_eq_some {v : Var} {index : Option Int} {n : Int} (h : v.get? index = some n) :
    ∃ k : Nat, index.getD 0 = k ∧ v.cells[k]? = some (some n) := by
  cases v with
  | single cell =>
    cases index with
    | some i => cases h
    | none => exact ⟨0, rfl, congrArg some h⟩
  | array cells =>
    cases index with
    | none => cases h
    | some i =>
      simp only [get?, Option.ite_none_right_eq_some, Option.join_eq_some_iff] at h
      exact ⟨i.toNat, (Int.toNat_of_nonneg h.1).symm, h.2⟩

theorem set?_eq_some {v v' : Var} {index : Option Int} {n : Int} (h : v.set? index n = some v') :
    ∃ k : Nat, index.getD 0 = k ∧ k < v.cells.length ∧ v'.cells = v.cells.set k (some n) := by
  cases v with
  | single cell =>
    cases index with
    | some i => cases h
    | none =>
      cases h
      exact ⟨0, rfl, Nat.one_pos, rfl⟩
  | array cells =>
    cases index with
    | none => cases h
    | some i =>
      simp only [set?, Option.ite_none_right_eq_some, Option.some.injEq] at h
      obtain ⟨⟨hi, hlt⟩, rfl⟩ := h
      exact ⟨i.toNat, (Int.toNat_of_nonneg hi).symm, hlt, rfl⟩

/-- The assigned cells are those that `read` gives. -/
def HeldBy (v : Var) (read : Nat → Int) : Prop :=
  ∀ (i : Nat) (n : Int), v.cells[i]? = some (some n) → read i = n

/-- After a cell is assigned and stored, the variable is held again. -/
theorem HeldBy.set {v v' : Var} {read read' : Nat → Int} {k : Nat} {n : Int} (h : v.HeldBy read)
    (hv : v'.cells = v.cells.set k (some n)) (hk : read' k = n)
    (hother : ∀ i, i ≠ k → i < v.cells.length → read' i = read i) : v'.HeldBy read' := by
  intro i m hi
  rw [hv] at hi
  have hlt : i < v.cells.length := by
    have := (List.getElem?_eq_some_iff.1 hi).1
    rwa [List.length_set] at this
  by_cases hik : i = k
  · subst hik
    rw [List.getElem?_set_self hlt] at hi
    cases hi
    exact hk
  · rw [List.getElem?_set_ne (Ne.symm hik)] at hi
    rw [hother i hik hlt]
    exact h i m hi

end Var

theorem globalLabel_injective {x y : String} (h : globalLabel x = globalLabel y) : x = y := by
  have hlist := congrArg String.toList h
  simp only [globalLabel, String.toList_append, List.append_cancel_right_eq] at hlist
  exact String.toList_injective hlist

/-- The globals are in their blocks, and the console is where the program is. -/
structure World.Matches (code : List Instr) (t : Tables) (w : World) (c : Core) : Prop where
  globals : ∀ x v, w.globals x = some v → t.isGlobal x = true ∧
    .word (globalLabel x) v.cells.length ∈ code ∧
    v.HeldBy fun i => c.mem (.data (globalLabel x) (4 * i))
  reads : c.reads = w.reads
  printed : c.printed = unlines (w.output.map toString)

theorem World.Matches.congr {code : List Instr} {t : Tables} {w : World} {c c' : Core}
    (h : w.Matches code t c) (hs : c.SameWorld c') : w.Matches code t c' := by
  refine ⟨fun x v hx => ?_, hs.reads.trans h.reads, hs.printed.trans h.printed⟩
  obtain ⟨hglobal, hword, hheld⟩ := h.globals x v hx
  refine ⟨hglobal, hword, fun i n hi => ?_⟩
  dsimp only
  rw [hs.mem]
  exact hheld i n hi

/-- The locals are in their slots, above `base`. -/
def Env.StoredIn (s : Storage) (base : Int) (locals : Env) (c : Core) : Prop :=
  ∀ x v, locals x = some v → s.tables.isGlobal x = false ∧ ∃ slot, s.frame.slot? x = some slot ∧
    4 * (v.cells.length : Int) ≤ slot.size ∧
    v.HeldBy fun i => c.mem (.stack (base + slot.offset + 4 * i))

/-- A core in the middle of a procedure whose frame is at `base`, with whatever operands on the
stack below. -/
structure Ready (code : List Instr) (s : Storage) (base : Int) (σ : RunState) (c : Core) : Prop where
  base_aligned : 4 ∣ base
  aligned : 4 ∣ c.regs .sp
  below : c.regs .sp ≤ base
  fp : c.regs .fp = base
  locals : σ.locals.StoredIn s base c
  world : σ.world.Matches code s.tables c

/-- The place of a cell of a variable. -/
def Storage.cell (s : Storage) (base : Int) (x : String) (i : Int) : Location :=
  if s.tables.isGlobal x then .data (globalLabel x) (4 * i)
  else .stack (base + (s.frame.offset? x).getD 0 + 4 * i)

section

variable {code : List Instr} {inputs : List Int} {s : Storage} {base size : Int} {σ σ' : RunState}
  {c c' : Core}

theorem Env.StoredIn.of_above {locals : Env} (hf : s.frame.Laid size)
    (h : locals.StoredIn s base c)
    (habove : ∀ a, base < a → c'.mem (.stack a) = c.mem (.stack a)) :
    locals.StoredIn s base c' := by
  intro x v hx
  obtain ⟨hlocal, slot, hslot, hsize, hheld⟩ := h x v hx
  refine ⟨hlocal, slot, hslot, hsize, fun i n hi => ?_⟩
  have := (hf.inside x slot hslot).1
  dsimp only
  rw [habove _ (by omega)]
  exact hheld i n hi

/-- Words on the operand stack do not touch the frame. -/
theorem Ready.pushes {ns : List Int} {w : World} (hf : s.frame.Laid size)
    (h : Ready code s base σ c) (hp : c.Pushes ns c') (hw : w.Matches code s.tables c') :
    Ready code s base { σ with world := w } c' := by
  have hbelow := h.below
  refine ⟨h.base_aligned, hp.aligned h.aligned, ?_, hp.fp.trans h.fp, ?_, hw⟩
  · rw [hp.sp]
    omega
  · exact h.locals.of_above hf fun a ha => hp.above a (by omega)

theorem Storage.cell_global {x : String} (hx : s.tables.isGlobal x = true) (i : Int) :
    s.cell base x i = .data (globalLabel x) (4 * i) := if_pos hx

theorem Storage.cell_local {x : String} {slot : Slot} (hx : s.tables.isGlobal x = false)
    (hslot : s.frame.slot? x = some slot) (i : Int) :
    s.cell base x i = .stack (base + slot.offset + 4 * i) := by
  rw [cell, if_neg (by simp [hx]), Frame.offset?, hslot]
  rfl

theorem accessible_data {l : String} {n k : Nat} (h : .word l n ∈ code) (hk : k < n) :
    Location.accessible code (.data l (4 * k)) = true := by
  rw [Location.accessible, decide_eq_true_eq, List.any_eq_true]
  refine ⟨⟨k, rfl⟩, .word l n, h, ?_⟩
  rw [decide_eq_true_eq]
  exact ⟨rfl, by omega, by omega⟩

/-- The cells of a global and of a local are words that can be accessed. -/
theorem Ready.accessible_cell {x : String} {v : Var} {k : Nat} (hf : s.frame.Laid size)
    (h : Ready code s base σ c) (hv : (σ.locals x).or (σ.world.globals x) = some v)
    (hk : k < v.cells.length) : (s.cell base x k).accessible code = true := by
  have hbase := h.base_aligned
  rcases Option.or_eq_some_iff.1 hv with hx | ⟨-, hx⟩
  · obtain ⟨hlocal, slot, hslot, -, -⟩ := h.locals x v hx
    rw [s.cell_local hlocal hslot]
    have := hf.aligned x slot hslot
    exact accessible_stack (by omega)
  · obtain ⟨hglobal, hword, -⟩ := h.world.globals x v hx
    rw [s.cell_global hglobal]
    exact accessible_data hword hk

theorem Ready.mem_cell {x : String} {v : Var} {k : Nat} {n : Int} (h : Ready code s base σ c)
    (hv : (σ.locals x).or (σ.world.globals x) = some v) (hk : v.cells[k]? = some (some n)) :
    c.mem (s.cell base x k) = n := by
  rcases Option.or_eq_some_iff.1 hv with hx | ⟨-, hx⟩
  · obtain ⟨hlocal, slot, hslot, -, hheld⟩ := h.locals x v hx
    rw [s.cell_local hlocal hslot]
    exact hheld k n hk
  · obtain ⟨hglobal, -, hheld⟩ := h.world.globals x v hx
    rw [s.cell_global hglobal]
    exact hheld k n hk

/-- Reading a variable reads the word at the place of the cell. -/
theorem Ready.read {x : String} {index : Option Int} {n : Int} {w : World}
    (hf : s.frame.Laid size) (h : Ready code s base σ c)
    (hread : Eval.read σ.locals x index σ.world = some (n, w)) :
    w = σ.world ∧ (s.cell base x (index.getD 0)).accessible code = true ∧
      c.mem (s.cell base x (index.getD 0)) = n := by
  unfold Eval.read at hread
  obtain ⟨m, hm, heq⟩ := Option.map_eq_some_iff.1 hread
  obtain ⟨v, hv, hget⟩ := Option.bind_eq_some_iff.1 hm
  obtain ⟨k, hk, hcell⟩ := Var.get?_eq_some hget
  cases heq
  rw [hk]
  exact ⟨rfl, h.accessible_cell hf hv (List.getElem?_eq_some_iff.1 hcell).1, h.mem_cell hv hcell⟩

/-- A store to a slot keeps the other slots. -/
theorem Env.StoredIn.store {locals : Env} {x : String} {slot : Slot} {v v' : Var} {k : Nat}
    {n : Int} (hf : s.frame.Laid size) (h : locals.StoredIn s base c) (hx : locals x = some v)
    (hslot : s.frame.slot? x = some slot) (hk : k < v.cells.length)
    (hv : v'.cells = v.cells.set k (some n)) :
    Env.StoredIn s base (Function.update locals x (some v'))
      (c.store (.stack (base + slot.offset + 4 * k)) n) := by
  obtain ⟨hlocal, slot', hslot', hsize, hheld⟩ := h x v hx
  obtain rfl : slot = slot' := Option.some.inj (hslot.symm.trans hslot')
  intro y u hy
  rw [Function.update_apply] at hy
  split_ifs at hy with hyx
  · subst hyx
    cases hy
    refine ⟨hlocal, slot, hslot, by rw [hv, List.length_set]; exact hsize, ?_⟩
    refine hheld.set hv (by simp) fun i hik _ => ?_
    have hne : base + slot.offset + 4 * (i : Int) ≠ base + slot.offset + 4 * k := by omega
    simp [hne]
  · obtain ⟨hlocaly, sloty, hsloty, hsizey, hheldy⟩ := h y u hy
    refine ⟨hlocaly, sloty, hsloty, hsizey, fun i m hi => ?_⟩
    have hlt := (List.getElem?_eq_some_iff.1 hi).1
    have hne : base + sloty.offset + 4 * (i : Int) ≠ base + slot.offset + 4 * k := by
      rcases hf.disjoint y x sloty slot hyx hsloty hslot with h | h <;> omega
    dsimp only
    rw [Core.store_mem, if_neg (by simpa using hne)]
    exact hheldy i m hi

/-- A store to a block keeps the other blocks. -/
theorem World.Matches.store {t : Tables} {w : World} {x : String} {v v' : Var} {k : Nat} {n : Int}
    (h : w.Matches code t c) (hx : w.globals x = some v)
    (hv : v'.cells = v.cells.set k (some n)) :
    World.Matches code t { w with globals := Function.update w.globals x (some v') }
      (c.store (.data (globalLabel x) (4 * k)) n) := by
  obtain ⟨hglobal, hword, hheld⟩ := h.globals x v hx
  refine ⟨fun y u hy => ?_, h.reads, h.printed⟩
  dsimp only at hy
  rw [Function.update_apply] at hy
  split_ifs at hy with hyx
  · subst hyx
    cases hy
    refine ⟨hglobal, by rw [hv, List.length_set]; exact hword, ?_⟩
    refine hheld.set hv (by simp) fun i hik _ => ?_
    have hne : 4 * (i : Int) ≠ 4 * k := by omega
    simp [hne]
  · obtain ⟨hglobaly, hwordy, hheldy⟩ := h.globals y u hy
    refine ⟨hglobaly, hwordy, fun i m hi => ?_⟩
    have hne : globalLabel y ≠ globalLabel x := fun h => hyx (globalLabel_injective h)
    simp only [Core.store_mem, Location.data.injEq, hne, false_and, if_false]
    exact hheldy i m hi

/-- Assigning a variable stores a word at the place of the cell, outside the save area of the
frame and what lies above the frame. -/
theorem Ready.assign {x : String} {index : Option Int} {n : Int} (hf : s.frame.Laid size)
    (h : Ready code s base σ c) (ha : Exec.assign x index n σ = some ((), σ')) :
    (s.cell base x (index.getD 0)).accessible code = true ∧
      Ready code s base σ' (c.store (s.cell base x (index.getD 0)) n) ∧
      ∀ a, a ≤ base + 40 ∨ base + 40 + size < a →
        (c.store (s.cell base x (index.getD 0)) n).mem (.stack a) = c.mem (.stack a) := by
  obtain ⟨v, v', hset, hx⟩ := Exec.assign_eq_some ha
  obtain ⟨k, hk, hlt, hcells⟩ := Var.set?_eq_some hset
  rw [hk]
  have hbase := h.base_aligned
  rcases hx with ⟨hx, rfl⟩ | ⟨hnone, hx, rfl⟩
  · have hv : (σ.locals x).or (σ.world.globals x) = some v := by simp [hx]
    refine ⟨h.accessible_cell hf hv hlt, ?_⟩
    obtain ⟨hlocal, slot, hslot, hsize, -⟩ := h.locals x v hx
    have hinside := hf.inside x slot hslot
    rw [s.cell_local hlocal hslot]
    refine ⟨⟨h.base_aligned, h.aligned, h.below, h.fp, h.locals.store hf hx hslot hlt hcells, ?_⟩,
      fun a ha => ?_⟩
    · exact h.world.congr (Core.sameWorld_store c _ n)
    · have hne : a ≠ base + slot.offset + 4 * (k : Int) := by omega
      rw [Core.store_mem, if_neg (by simpa using hne)]
  · have hv : (σ.locals x).or (σ.world.globals x) = some v := by simp [hnone, hx]
    refine ⟨h.accessible_cell hf hv hlt, ?_⟩
    rw [s.cell_global (h.world.globals x v hx).1]
    refine ⟨⟨h.base_aligned, h.aligned, h.below, h.fp, ?_, h.world.store hx hcells⟩, fun a _ => ?_⟩
    · exact h.locals.of_above hf fun a _ => by simp
    · simp

theorem place_scalarAddress {x : String} {a : Address} {n m : Nat} (hfp : c.regs .fp = base)
    (h : s.scalarAddress x n = .ok (a, m)) : a.place c = s.cell base x 0 := by
  rw [Storage.scalarAddress_eq_ok] at h
  obtain ⟨h, -⟩ := h
  unfold Storage.cell
  split_ifs at h ⊢
  · subst h
    rfl
  · obtain ⟨o, ho, rfl⟩ := h
    simp [Address.place, hfp, ho]

variable (code inputs) in
/-- The code that turns the index in `$t0` into an address. -/
theorem effects_elementAddress {x : String} {scratch : Register} {k : List Instr} {a : Address}
    {n m : Nat} (hscratch : scratch = .t1 ∨ scratch = .t2) (hfp : c.regs .fp = base)
    (h : s.elementAddress x scratch n = .ok ((k, a), m)) :
    ∃ c', (Core.processor code inputs).effects k c = some c' ∧ a.place c' = s.cell base x (c.regs .t0) ∧
      c.SameExcept [.t0, .t4, scratch] c' := by
  rw [Storage.elementAddress_eq_ok] at h
  obtain ⟨h, -⟩ := h
  have hsp : scratch ≠ .t0 := by rcases hscratch with rfl | rfl <;> simp
  have hfp' : scratch ≠ .fp := by rcases hscratch with rfl | rfl <;> simp
  let scaled := (c.set scratch wordSize).set .t0 (c.regs .t0 * wordSize)
  have hscaled : (Core.processor code inputs).effects (Storage.scaled scratch) c = some scaled := by
    simp [Storage.scaled, Processor.effects, Processor.effect, Core.processor, Op.apply, scaled, hsp.symm]
  have hsame : c.SameExcept [.t0, .t4, scratch] scaled :=
    (Core.sameExcept_set c _ (by simp)).trans (Core.sameExcept_set _ _ (by simp))
  unfold Storage.cell
  split_ifs at h ⊢
  · obtain ⟨rfl, rfl⟩ := h
    refine ⟨scaled, hscaled, ?_, hsame⟩
    simp [Address.place, scaled, wordSize, Int.mul_comm]
  · obtain ⟨o, ho, rfl, rfl⟩ := h
    refine ⟨((scaled.set .t4 o).set .t4 (o + c.regs .t0 * wordSize)).set .t4
      (o + c.regs .t0 * wordSize + base), ?_, ?_, ?_⟩
    · rw [effects_append, hscaled]
      simp [Processor.effects, Processor.effect, Core.processor, Op.apply, scaled, hfp, hfp'.symm]
    · simp only [Address.place, Core.set_regs, if_true, ho, Option.getD_some, wordSize]
      congr 1
      omega
    · exact ((hsame.trans (Core.sameExcept_set _ _ (by simp))).trans
        (Core.sameExcept_set _ _ (by simp))).trans (Core.sameExcept_set _ _ (by simp))

end

end ProcMips
