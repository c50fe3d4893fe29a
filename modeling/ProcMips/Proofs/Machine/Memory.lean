import ProcMips.Mips.Sequence
import ProcMips.Proofs.Machine.Execution

/-! The sequences that work on the stack, for a processor whose words are read and written at addresses.
Pushes and pops are single words. Saving puts each register that a procedure keeps into a word of its own,
and restoring takes the registers from these words. -/

namespace ProcMips.Mips

/-- How a processor reads and writes the words that operands with an offset stand for. Not every address
need be usable, and what is written at one address is not seen at addresses apart from it. -/
structure Processor.Memory {σ W : Type} [Add W] [Sub W] (P : Processor σ W) where
  read : σ → W → W
  write : σ → W → W → σ
  Usable : W → Prop
  Apart : W → W → Prop
  apply_sub : ∀ a b, P.apply .sub a b = some (a - b)
  apply_add : ∀ a b, P.apply .add a b = some (a + b)
  sub_add_cancel : ∀ a b : W, a - b + b = a
  load_offset : ∀ c n r, Usable (P.regs c r + P.word n) →
    P.load c (.offset n r) = some (read c (P.regs c r + P.word n))
  store_offset : ∀ c n r v, Usable (P.regs c r + P.word n) →
    P.store c (.offset n r) v = some (write c (P.regs c r + P.word n) v)
  regs_set : ∀ c r v q, P.regs (P.set c r v) q = if q = r then v else P.regs c q
  read_set : ∀ c r v a, read (P.set c r v) a = read c a
  regs_write : ∀ c a v, P.regs (write c a v) = P.regs c
  read_write : ∀ c a v, read (write c a v) a = v
  read_write_of_apart : ∀ c a b v, Apart a b → read (write c b v) a = read c a
  apart_add : ∀ a b c, Apart a b → Apart (c + a) (c + b)

/-- The registers that a procedure keeps for its caller, from the highest word of the save area down. -/
def kept : List Register := .ra :: Register.saved ++ [.fp]

/-- The kept registers with their places in the save area. -/
def keptPlaces : List (Register × Int) := kept.mapIdx fun i r => (r, saveArea - wordSize * i)

/-- Stores registers at offsets from the stack pointer. -/
def storesOf (places : List (Register × Int)) : List Instr :=
  places.map fun (r, n) => .sw r (.offset n .sp)

def loadsOf (places : List (Register × Int)) : List Instr :=
  places.map fun (r, n) => .lw r (.offset n .sp)

theorem saveRegisters_eq :
    saveRegisters = .subi .sp .sp saveArea :: storesOf keptPlaces := rfl

theorem restoreRegisters_eq :
    restoreRegisters = loadsOf keptPlaces.reverse ++ [.addi .sp .sp saveArea] := rfl

theorem map_fst_keptPlaces : keptPlaces.map Prod.fst = kept := rfl

theorem sp_notMem_kept : .sp ∉ kept := by decide

theorem nodup_kept : kept.Nodup := by decide

theorem mem_keptPlaces {r : Register} {i : Nat} (h : kept[i]? = some r) :
    (r, saveArea - wordSize * i) ∈ keptPlaces := by
  obtain ⟨hi, hr⟩ := List.getElem?_eq_some_iff.1 h
  rw [keptPlaces, List.mem_mapIdx]
  exact ⟨i, hi, by rw [hr]⟩

namespace Processor.Memory

variable {σ W : Type} [Add W] [Sub W] {P : Processor σ W} (M : P.Memory)
  {places : List (Register × Int)} {c : σ} {r : Register}

def push (c : σ) (r : Register) : σ :=
  M.write (P.set c .sp (P.regs c .sp - P.word wordSize)) (P.regs c .sp) (P.regs c r)

def pop (c : σ) (r : Register) : σ :=
  P.set (P.set c r (M.read c (P.regs c .sp + P.word wordSize))) .sp (P.regs c .sp + P.word wordSize)

theorem effects_pushReg (hr : r ≠ .sp) (h : M.Usable (P.regs c .sp)) :
    P.effects (pushReg r) c = some (M.push c r) := by
  have hplace : P.regs c .sp - P.word wordSize + P.word wordSize = P.regs c .sp := M.sub_add_cancel _ _
  have hsp : P.regs (P.set c .sp (P.regs c .sp - P.word wordSize)) .sp + P.word wordSize =
      P.regs c .sp := by rw [M.regs_set, if_pos rfl, hplace]
  have hstore := M.store_offset (P.set c .sp (P.regs c .sp - P.word wordSize)) wordSize .sp
    (P.regs c r) (by rwa [hsp])
  rw [hsp] at hstore
  simp only [pushReg, effects_cons, effect, M.apply_sub, Option.map_some, Option.bind_some, M.regs_set,
    if_neg hr, hstore]
  rfl

theorem effects_popReg (hr : r ≠ .sp) (h : M.Usable (P.regs c .sp + P.word wordSize)) :
    P.effects (popReg r) c = some (M.pop c r) := by
  simp only [popReg, effects_cons, effect, M.load_offset c wordSize .sp h, M.apply_add, Option.map_some,
    Option.bind_some, M.regs_set, if_neg hr.symm]
  rfl

/-- Behind stores at offsets from the stack pointer. -/
def storeAll (places : List (Register × Int)) (c : σ) : σ :=
  places.foldl (fun c p => M.write c (P.regs c .sp + P.word p.2) (P.regs c p.1)) c

/-- Behind loads from offsets to the stack pointer. -/
def loadAll (places : List (Register × Int)) (c : σ) : σ :=
  places.foldl (fun c p => P.set c p.1 (M.read c (P.regs c .sp + P.word p.2))) c

theorem effects_stores (h : ∀ p ∈ places, M.Usable (P.regs c .sp + P.word p.2)) :
    P.effects (storesOf places) c = some (M.storeAll places c) := by
  induction places generalizing c with
  | nil => rfl
  | cons p places ih =>
    obtain ⟨hp, hplaces⟩ := List.forall_mem_cons.1 h
    have hstore : P.effect (.sw p.1 (.offset p.2 .sp)) c = some _ := M.store_offset c p.2 .sp _ hp
    rw [storesOf, List.map_cons, effects_cons, hstore, Option.bind_some]
    exact ih (by rwa [M.regs_write])

theorem regs_storeAll : P.regs (M.storeAll places c) = P.regs c := by
  induction places generalizing c with
  | nil => rfl
  | cons p places ih => exact ih.trans (M.regs_write _ _ _)

/-- Stores leave what no write at their places changes. -/
theorem storeAll_unchanged {α : Type} (f : σ → α)
    (hf : ∀ c' v, ∀ p ∈ places, f (M.write c' (P.regs c .sp + P.word p.2) v) = f c') :
    f (M.storeAll places c) = f c := by
  induction places generalizing c with
  | nil => rfl
  | cons p places ih =>
    have hfirst := hf c (P.regs c p.1) p List.mem_cons_self
    refine (ih fun c' v q hq => ?_).trans hfirst
    rw [M.regs_write]
    exact hf c' v q (List.mem_cons_of_mem _ hq)

theorem read_storeAll (h : places.Pairwise fun p q => M.Apart (P.word p.2) (P.word q.2))
    {p : Register × Int} (hp : p ∈ places) :
    M.read (M.storeAll places c) (P.regs c .sp + P.word p.2) = P.regs c p.1 := by
  induction places generalizing c with
  | nil => cases hp
  | cons q places ih =>
    obtain ⟨hq, hplaces⟩ := List.pairwise_cons.1 h
    rcases List.mem_cons.1 hp with rfl | hp
    · -- the words that are stored later are apart from this one
      let a := P.regs c .sp + P.word p.2
      have hlater : M.read (M.storeAll places (M.write c a (P.regs c p.1))) a =
          M.read (M.write c a (P.regs c p.1)) a := by
        refine M.storeAll_unchanged (M.read · a) fun c' v q hmem => ?_
        rw [M.regs_write]
        exact M.read_write_of_apart _ _ _ _ (M.apart_add _ _ _ (hq q hmem))
      exact hlater.trans (M.read_write _ _ _)
    · have := ih hplaces hp (c := M.write c (P.regs c .sp + P.word q.2) (P.regs c q.1))
      rwa [M.regs_write] at this

theorem effects_loads (hsp : .sp ∉ places.map Prod.fst)
    (h : ∀ p ∈ places, M.Usable (P.regs c .sp + P.word p.2)) :
    P.effects (loadsOf places) c = some (M.loadAll places c) := by
  induction places generalizing c with
  | nil => rfl
  | cons p places ih =>
    rw [List.map_cons, List.mem_cons, not_or] at hsp
    obtain ⟨hp, hplaces⟩ := List.forall_mem_cons.1 h
    have hload : P.effect (.lw p.1 (.offset p.2 .sp)) c =
        some (P.set c p.1 (M.read c (P.regs c .sp + P.word p.2))) := by
      rw [effect, M.load_offset c p.2 .sp hp, Option.map_some]
    rw [loadsOf, List.map_cons, effects_cons, hload, Option.bind_some]
    exact ih hsp.2 (by rwa [M.regs_set, if_neg hsp.1])

/-- Loads leave what no register decides. -/
theorem loadAll_unchanged {α : Type} (f : σ → α) (hf : ∀ c r v, f (P.set c r v) = f c) :
    f (M.loadAll places c) = f c := by
  induction places generalizing c with
  | nil => rfl
  | cons p places ih => exact ih.trans (hf _ _ _)

theorem regs_loadAll (hr : r ∉ places.map Prod.fst) : P.regs (M.loadAll places c) r = P.regs c r := by
  induction places generalizing c with
  | nil => rfl
  | cons p places ih =>
    rw [List.map_cons, List.mem_cons, not_or] at hr
    exact (ih hr.2).trans (by rw [M.regs_set, if_neg hr.1])

theorem regs_loadAll_of_mem (hsp : .sp ∉ places.map Prod.fst) (hnodup : (places.map Prod.fst).Nodup)
    {p : Register × Int} (hp : p ∈ places) :
    P.regs (M.loadAll places c) p.1 = M.read c (P.regs c .sp + P.word p.2) := by
  induction places generalizing c with
  | nil => cases hp
  | cons q places ih =>
    rw [List.map_cons, List.mem_cons, not_or] at hsp
    rw [List.map_cons, List.nodup_cons] at hnodup
    rcases List.mem_cons.1 hp with rfl | hp
    · exact (M.regs_loadAll hnodup.1).trans (by rw [M.regs_set, if_pos rfl])
    · have := ih hsp.2 hnodup.2 hp (c := P.set c q.1 (M.read c (P.regs c .sp + P.word q.2)))
      rwa [M.regs_set, if_neg hsp.1, M.read_set] at this

/-- A state behind the saving of the kept registers, each in a word of its own. What else there is to
see has not changed if writes to these words do not change it. -/
structure Saved (c c' : σ) : Prop where
  sp : P.regs c' .sp = P.regs c .sp - P.word saveArea
  regs : ∀ r ≠ .sp, P.regs c' r = P.regs c r
  words : ∀ (i : Nat) (r : Register), kept[i]? = some r →
    M.read c' (P.regs c' .sp + P.word (saveArea - wordSize * i)) = P.regs c r
  unchanged : ∀ {α : Type} (f : σ → α), (∀ d v, f (P.set d .sp v) = f d) →
    (∀ d v, ∀ p ∈ keptPlaces, f (M.write d (P.regs c' .sp + P.word p.2) v) = f d) → f c' = f c

theorem effects_saveRegisters
    (hapart : keptPlaces.Pairwise fun p q => M.Apart (P.word p.2) (P.word q.2))
    (h : ∀ p ∈ keptPlaces, M.Usable (P.regs c .sp - P.word saveArea + P.word p.2)) :
    ∃ c', P.effects saveRegisters c = some c' ∧ M.Saved c c' := by
  let c₁ := P.set c .sp (P.regs c .sp - P.word saveArea)
  have hset (q : Register) : P.regs c₁ q = if q = .sp then P.regs c .sp - P.word saveArea else
      P.regs c q := M.regs_set _ _ _ _
  have hregs : P.regs (M.storeAll keptPlaces c₁) = P.regs c₁ := M.regs_storeAll
  refine ⟨M.storeAll keptPlaces c₁, ?_, ?_, fun r hr => ?_, fun i r hr => ?_, fun f hf hwrite => ?_⟩
  · rw [saveRegisters_eq, effects_cons, effect, M.apply_sub, Option.map_some, Option.bind_some]
    exact M.effects_stores (by rwa [hset, if_pos rfl])
  · rw [hregs, hset, if_pos rfl]
  · rw [hregs, hset, if_neg hr]
  · have hne : r ≠ .sp := ne_of_mem_of_not_mem (List.mem_of_getElem? hr) sp_notMem_kept
    rw [hregs, M.read_storeAll hapart (mem_keptPlaces hr), hset, if_neg hne]
  · rw [hregs] at hwrite
    exact (M.storeAll_unchanged f hwrite).trans (hf _ _)

/-- A state that has taken the kept registers from the words above its stack pointer. -/
structure Restored (c c' : σ) : Prop where
  sp : P.regs c' .sp = P.regs c .sp + P.word saveArea
  words : ∀ (i : Nat) (r : Register), kept[i]? = some r →
    P.regs c' r = M.read c (P.regs c .sp + P.word (saveArea - wordSize * i))
  regs : ∀ r ∉ kept, r ≠ .sp → P.regs c' r = P.regs c r
  unchanged : ∀ {α : Type} (f : σ → α), (∀ d r v, f (P.set d r v) = f d) → f c' = f c

theorem effects_restoreRegisters (h : ∀ p ∈ keptPlaces, M.Usable (P.regs c .sp + P.word p.2)) :
    ∃ c', P.effects restoreRegisters c = some c' ∧ M.Restored c c' := by
  have hfst : keptPlaces.reverse.map Prod.fst = kept.reverse := by
    rw [List.map_reverse, map_fst_keptPlaces]
  have hnodup : (keptPlaces.reverse.map Prod.fst).Nodup := by
    rw [hfst, List.nodup_reverse]
    exact nodup_kept
  have hsp : .sp ∉ keptPlaces.reverse.map Prod.fst := by
    rw [hfst, List.mem_reverse]
    exact sp_notMem_kept
  let c₁ := M.loadAll keptPlaces.reverse c
  have hloads : P.effects (loadsOf keptPlaces.reverse) c = some c₁ :=
    M.effects_loads hsp fun p hp => h p (List.mem_reverse.1 hp)
  refine ⟨P.set c₁ .sp (P.regs c₁ .sp + P.word saveArea), ?_, ?_, fun i r hr => ?_, fun r hr hne => ?_,
    fun f hf => (hf _ _ _).trans (M.loadAll_unchanged f hf)⟩
  · rw [restoreRegisters_eq, effects_append, hloads, Option.bind_some, effects_cons, effect, M.apply_add]
    rfl
  · rw [M.regs_set, if_pos rfl, M.regs_loadAll hsp]
  · have hne : r ≠ .sp := ne_of_mem_of_not_mem (List.mem_of_getElem? hr) sp_notMem_kept
    rw [M.regs_set, if_neg hne]
    exact M.regs_loadAll_of_mem hsp hnodup (List.mem_reverse.2 (mem_keptPlaces hr))
  · rw [M.regs_set, if_neg hne, M.regs_loadAll (by rwa [hfst, List.mem_reverse])]

end Processor.Memory

end ProcMips.Mips
