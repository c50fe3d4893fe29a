import ProcMips.Proofs.Machine.Images

/-! Code that is assembled runs on 32 bits as it runs on the unbounded machine, while it keeps to the limits of
its layout. Integers that are words are told apart when they are cut off, and what is computed from others
by sums, differences and products is cut off as the operands are. -/

namespace ProcMips

theorem Word.Fits.toInt_ofInt {n : Int} (h : Word.Fits n) : (BitVec.ofInt 32 n).toInt = n := by
  obtain ⟨hleast, hgreatest⟩ := h
  rw [BitVec.toInt_ofInt]
  unfold Word.least at hleast
  unfold Word.greatest at hgreatest
  exact Int.bmod_eq_of_le (by omega) (by omega)

theorem Word.Fits.ofInt_eq_iff {n m : Int} (hn : Word.Fits n) (hm : Word.Fits m) :
    BitVec.ofInt 32 n = BitVec.ofInt 32 m ↔ n = m := by
  refine ⟨fun h => ?_, congrArg _⟩
  rw [← hn.toInt_ofInt, ← hm.toInt_ofInt, h]

theorem Word.Fits.ofInt_eq_zero_iff {n : Int} (h : Word.Fits n) : BitVec.ofInt 32 n = 0 ↔ n = 0 :=
  h.ofInt_eq_iff (m := 0) (by decide)

theorem Word.Fits.ofInt_bne_zero {n : Int} (h : Word.Fits n) : (BitVec.ofInt 32 n != 0) = decide (n ≠ 0) := by
  rw [Bool.eq_iff_iff, bne_iff_ne, decide_eq_true_iff, Ne, h.ofInt_eq_zero_iff]

namespace Mips

namespace Flat

variable {a b v : Int}

theorem ofInt_sub : BitVec.ofInt 32 (a - b) = BitVec.ofInt 32 a - BitVec.ofInt 32 b := by
  rw [BitVec.eq_sub_iff_add_eq, ← BitVec.ofInt_add, Int.sub_add_cancel]

theorem ofInt_tdiv (ha : Word.Fits a) (hb : Word.Fits b) :
    BitVec.ofInt 32 (a.tdiv b) = (BitVec.ofInt 32 a).sdiv (BitVec.ofInt 32 b) := by
  apply BitVec.eq_of_toInt_eq
  rw [BitVec.toInt_sdiv, ha.toInt_ofInt, hb.toInt_ofInt, BitVec.toInt_ofInt]

theorem ofInt_tmod (ha : Word.Fits a) (hb : Word.Fits b) :
    BitVec.ofInt 32 (a.tmod b) = (BitVec.ofInt 32 a).srem (BitVec.ofInt 32 b) := by
  rw [← BitVec.ofInt_toInt (x := BitVec.srem _ _), BitVec.toInt_srem, ha.toInt_ofInt, hb.toInt_ofInt]

theorem ofInt_ite (p : Prop) [Decidable p] : BitVec.ofInt 32 (if p then 1 else 0) = flag (decide p) := by
  by_cases h : p <;> simp [h, flag]

theorem apply_ofInt {code : List Instr} {layout : MemoryMap code} {o : Op} (h : layout.limits.Combines o a b)
    (hv : o.apply a b = some v) :
    Flat.apply o (BitVec.ofInt 32 a) (BitVec.ofInt 32 b) = some (BitVec.ofInt 32 v) := by
  cases o with
  | add =>
    cases hv
    exact congrArg some (BitVec.ofInt_add a b).symm
  | sub =>
    cases hv
    exact congrArg some ofInt_sub.symm
  | mul =>
    cases hv
    exact congrArg some (BitVec.ofInt_mul a b).symm
  | div =>
    obtain ⟨ha, hb⟩ := h
    obtain ⟨hzero, hv⟩ := Option.ite_none_left_eq_some.1 hv
    cases hv
    rw [Flat.apply, if_neg (mt hb.ofInt_eq_zero_iff.1 hzero), ofInt_tdiv ha hb]
  | rem =>
    obtain ⟨ha, hb⟩ := h
    obtain ⟨hzero, hv⟩ := Option.ite_none_left_eq_some.1 hv
    cases hv
    rw [Flat.apply, if_neg (mt hb.ofInt_eq_zero_iff.1 hzero), ofInt_tmod ha hb]
  | slt =>
    obtain ⟨ha, hb⟩ := h
    cases hv
    rw [Flat.apply, BitVec.slt_eq_decide, ha.toInt_ofInt, hb.toInt_ofInt, ofInt_ite]
  | sle =>
    obtain ⟨ha, hb⟩ := h
    cases hv
    rw [Flat.apply, BitVec.sle_eq_decide, ha.toInt_ofInt, hb.toInt_ofInt, ofInt_ite]
  | seq =>
    obtain ⟨ha, hb⟩ := h
    cases hv
    simp only [Flat.apply, ha.ofInt_eq_iff hb, ofInt_ite]

/-- Words that have their own bytes still have them when their addresses are cut off. -/
theorem apart_ofInt {x y : Int} (hx : 0 ≤ x ∧ x + 4 ≤ addressLimit) (hy : 0 ≤ y ∧ y + 4 ≤ addressLimit)
    (h : x + 4 ≤ y ∨ y + 4 ≤ x) : Apart (BitVec.ofInt 32 x) (BitVec.ofInt 32 y) := by
  unfold addressLimit at hx hy
  obtain ⟨n, rfl⟩ := Int.eq_ofNat_of_zero_le hx.1
  obtain ⟨m, rfl⟩ := Int.eq_ofNat_of_zero_le hy.1
  rw [BitVec.ofInt_natCast, BitVec.ofInt_natCast]
  constructor
  · bv_omega
  · bv_omega

end Flat

namespace MemoryMap

variable {code : List Instr} {image : Image}

section

variable {layout : MemoryMap code} {c : Core} {d : Flat.Terminal} (h : layout.Agrees image c d)

include h

theorem Agrees.set {n : Int} {r : Register} :
    layout.Agrees image (c.set r n) (d.set r (BitVec.ofInt 32 n)) := by
  refine ⟨fun q => ?_, h.mem, h.reads, h.printed⟩
  change (d.toState.set r _).regs q = _
  rw [Flat.State.set_regs, Core.set_regs]
  split_ifs
  · rfl
  · exact h.regs q

theorem Agrees.place (a : Address) :
    Flat.place image.address d.toState a = BitVec.ofInt 32 (image.position (a.place c)) := by
  have haddress (l : String) : image.address l = BitVec.ofInt 32 (image.start l) :=
    (BitVec.ofInt_natCast 32 _).symm
  cases a with
  | offset n r =>
    rw [Flat.place, h.regs, Address.place, Image.position, BitVec.ofInt_add]
  | indirect r => exact h.regs r
  | label l =>
    rw [Flat.place, haddress, Address.place, Image.position, Int.add_zero]
  | indexed l r =>
    rw [Flat.place, haddress, h.regs, Address.place, Image.position, BitVec.ofInt_add]

theorem Agrees.store (himage : assemble layout.base code = some image) {p : Location}
    (hp : p.accessible code = true) (hcp : layout.Covers p) (n : Int) :
    layout.Agrees image (c.store p n)
      (d.store (BitVec.ofInt 32 (image.position p)) (BitVec.ofInt 32 n)) := by
  refine ⟨h.regs, fun q hq hcq => ?_, h.reads, h.printed⟩
  change (d.toState.store _ _).load _ = _
  rw [Core.store_mem]
  split_ifs with heq
  · rw [heq, Flat.State.load_store]
  · rw [Flat.State.load_store_of_apart, h.mem q hq hcq]
    exact Flat.apart_ofInt (Image.position_bounds himage hq hcq) (Image.position_bounds himage hp hcp)
      (Image.position_apart himage hq hcq hp hcp heq)

theorem Agrees.print {text : String} : layout.Agrees image (c.print text) (d.print text) :=
  ⟨h.regs, h.mem, h.reads, congrArg (· ++ text) h.printed⟩

theorem Agrees.syscall {inputs : List Int} {c' : Core} (hserves : layout.limits.Serves c)
    (hc : c.syscall inputs = some c') :
    ∃ d', d.syscall inputs = some d' ∧ layout.Agrees image c' d' := by
  obtain ⟨hv, ha⟩ := hserves
  have hservice (n : Int) (hn : Word.Fits n) : d.regs .v0 = BitVec.ofInt 32 n ↔ c.regs .v0 = n := by
    rw [h.regs, hv.ofInt_eq_iff hn]
  have hprint : d.regs .v0 = 1 ↔ c.regs .v0 = 1 := hservice 1 (by decide)
  have hread : d.regs .v0 = 5 ↔ c.regs .v0 = 5 := hservice 5 (by decide)
  have hchar : d.regs .v0 = 11 ↔ c.regs .v0 = 11 := hservice 11 (by decide)
  unfold Core.syscall at hc
  unfold Flat.Terminal.syscall
  split_ifs at hc with h1 h5 h11
  · cases hc
    have ha := ha (by omega)
    rw [if_pos (hprint.2 h1), h.regs, ha.toInt_ofInt]
    exact ⟨_, rfl, h.print⟩
  · obtain ⟨n, hn, rfl⟩ := Option.map_eq_some_iff.1 hc
    rw [if_neg (mt hprint.1 h1), if_pos (hread.2 h5), h.reads, hn]
    exact ⟨_, rfl, (h.set).regs, h.mem, rfl, h.printed⟩
  · cases hc
    have ha := ha (by omega)
    rw [if_neg (mt hprint.1 h1), if_neg (mt hread.1 h5), if_pos (hchar.2 h11), h.regs, ha.toInt_ofInt]
    exact ⟨_, rfl, h.print⟩

end

/-- The machine with a console follows the unbounded one, with words cut off to 32 bits. -/
def simulation (layout : MemoryMap code) (himage : assemble layout.base code = some image)
    (inputs : List Int) :
    Simulation (Core.processor code inputs) (Flat.Terminal.processor image.address inputs)
      layout.limits where
  Related := layout.Agrees image
  Means n v := v = BitVec.ofInt 32 n
  regs h := h.regs
  set := by
    rintro c d n _ h rfl r
    exact h.set
  word _ := rfl
  apply := by
    rintro o a b _ _ n hcombines rfl rfl hn
    exact ⟨_, Flat.apply_ofInt hcombines hn, rfl⟩
  isTrue := by
    rintro n _ hn rfl
    exact Word.Fits.ofInt_bne_zero hn
  target := by
    rintro n _ k hn rfl hk
    obtain ⟨hnonneg, hk⟩ := Option.ite_none_right_eq_some.1 hk
    cases hk
    have hword : (BitVec.ofInt 32 n).toNat = (n % addressLimit).toNat := BitVec.toNat_ofInt n
    exact congrArg some (hword.trans (congrArg Int.toNat (Int.emod_eq_of_lt hnonneg hn)))
  load := by
    intro c d a n h haccess hn
    obtain ⟨hp, hn⟩ := Option.ite_none_right_eq_some.1 hn
    cases hn
    refine ⟨_, rfl, ?_⟩
    rw [h.place]
    exact h.mem _ hp haccess
  store := by
    rintro c d a n _ c' h haccess rfl hc
    obtain ⟨hp, hc⟩ := Option.ite_none_right_eq_some.1 hc
    cases hc
    refine ⟨_, rfl, ?_⟩
    rw [h.place]
    exact h.store himage hp haccess n
  syscall h hserves hc := h.syscall hserves hc

section

variable {layout : MemoryMap code} (himage : assemble layout.base code = some image) {inputs : List Int}
  {c c' : Core} {d d' : Flat.Terminal} {e : Machine Core} {pc pc' : Nat} (h : layout.Agrees image c d)
  (hfit : layout.limits.Fits (Core.processor code inputs) code ⟨pc, c⟩)

include himage h hfit

/-- A run of the unbounded machine is one of the assembled code. -/
theorem reaches (hm : Machine.Reaches code inputs ⟨pc, c⟩ ⟨pc', c'⟩) :
    ∃ d', image.Reaches inputs ⟨pc, d⟩ ⟨pc', d'⟩ ∧ layout.Agrees image c' d' := by
  have hstart : (simulation layout himage inputs).Agree ⟨pc, c⟩ ⟨pc, d⟩ := ⟨rfl, h⟩
  obtain ⟨⟨_, d'⟩, hreach, rfl, hagree⟩ := Simulation.reaches _ hstart hfit hm
  exact ⟨d', (Image.reaches_iff himage).2 hreach, hagree⟩

/-- A run of the assembled code is one of the unbounded machine, if that one comes to an end behind the
code. -/
theorem reaches_back (hend : Machine.Reaches code inputs ⟨pc, c⟩ e) (hleaves : code[e.pc]? = none)
    (hm : image.Reaches inputs ⟨pc, d⟩ ⟨pc', d'⟩) :
    ∃ c', Machine.Reaches code inputs ⟨pc, c⟩ ⟨pc', c'⟩ ∧ layout.Agrees image c' d' := by
  have hstart : (simulation layout himage inputs).Agree ⟨pc, c⟩ ⟨pc, d⟩ := ⟨rfl, h⟩
  obtain ⟨⟨_, c'⟩, hreach, rfl, hagree⟩ :=
    Simulation.reaches_back _ hstart hfit hend hleaves ((Image.reaches_iff himage).1 hm)
  exact ⟨c', hreach, hagree⟩

end

end MemoryMap

/-- No limits. -/
def Limits.all (σ W : Type) : Limits σ W where
  Combines _ _ _ := True
  Tests _ := True
  Returns _ := True
  Accesses _ _ := True
  Serves _ := True

theorem Limits.all_fits {σ W : Type} (P : Processor σ W) (code : List Instr) (m : Machine σ) :
    (all σ W).Fits P code m := by
  intro m' _ i _
  cases i <;> trivial

namespace Flat

/-- With a console or without one, the flat machine does the same. -/
def consoled (data : String → BitVec 32) (inputs : List Int) (reads : Nat) (printed : String) :
    Simulation (State.processor data) (Terminal.processor data inputs) (.all State (BitVec 32)) where
  Related c d := d = ⟨c, reads, printed⟩
  Means v w := w = v
  regs := by
    rintro c _ rfl r
    rfl
  set := by
    rintro c _ v _ rfl rfl r
    rfl
  word _ := rfl
  apply := by
    rintro o a b _ _ v - rfl rfl hv
    exact ⟨v, hv, rfl⟩
  isTrue := by
    rintro v _ - rfl
    rfl
  target := by
    rintro v _ n - rfl hn
    exact hn
  load := by
    rintro c _ a v rfl - hv
    exact ⟨v, hv, rfl⟩
  store := by
    rintro c _ a v _ c' rfl - rfl hc
    cases hc
    exact ⟨_, rfl, rfl⟩
  syscall := by
    rintro c d c' - - ⟨⟩

/-- So what runs on the flat machine runs as assembled code. -/
theorem reaches_image {base : Nat} {code : List Instr} {image : Image} {inputs : List Int}
    (himage : assemble base code = some image) {c c' : State} {pc pc' : Nat}
    (h : Machine.Reaches code image.address ⟨pc, c⟩ ⟨pc', c'⟩) (reads : Nat) (printed : String) :
    image.Reaches inputs ⟨pc, ⟨c, reads, printed⟩⟩ ⟨pc', ⟨c', reads, printed⟩⟩ := by
  have hstart : (consoled image.address inputs reads printed).Agree ⟨pc, c⟩ ⟨pc, ⟨c, reads, printed⟩⟩ :=
    ⟨rfl, rfl⟩
  obtain ⟨⟨_, d'⟩, hreach, rfl, hd⟩ := Simulation.reaches _ hstart (Limits.all_fits _ _ _) h
  obtain rfl : d' = ⟨c', reads, printed⟩ := hd
  exact (Image.reaches_iff himage).2 hreach

end Flat

end Mips

end ProcMips
