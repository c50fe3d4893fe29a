import ProcMips.Proofs.CodeGen.References
import ProcMips.Proofs.Machine.Flat
import ProcMips.Proofs.Machine.Simulation
import ProcMips.Proofs.Machine.Stack
import ProcMips.Proofs.Semantics.Image

/-! Assembled code runs as on the unbounded machine. Code is assembled if no name stands for data and text at
once. Its blocks and the stack have their own memory, so that the words of different places are apart, and
integers that are words are still told apart when they are cut off to 32 bits. -/

namespace ProcMips.Mips

section

variable {code : List Instr} {l l' : String} {start pc s s' k k' : Nat}

theorem mem_names_symbolsFrom :
    l ∈ (symbolsFrom start pc code).map Prod.fst ↔ l ∈ wordsOf code ∨ l ∈ labelsOf code := by
  induction code generalizing start pc with
  | nil => simp [symbolsFrom, wordsOf, labelsOf]
  | cons i code ih =>
    cases i with
    | word l' n =>
      change _ ∈ l' :: _ ↔ _ ∈ l' :: wordsOf code ∨ l ∈ labelsOf code
      rw [List.mem_cons, List.mem_cons, ih, or_assoc]
    | label l' =>
      change _ ∈ l' :: _ ↔ l ∈ wordsOf code ∨ _ ∈ l' :: labelsOf code
      rw [List.mem_cons, List.mem_cons, ih, or_left_comm]
    | _ => exact ih

/-- Names stand for one thing each if none does so twice among the data, in the text, or in both. -/
theorem nodup_names_symbolsFrom (start pc : Nat) : ((symbolsFrom start pc code).map Prod.fst).Nodup ↔
    (wordsOf code).Nodup ∧ (labelsOf code).Nodup ∧ ∀ l ∈ wordsOf code, l ∉ labelsOf code := by
  induction code generalizing start pc with
  | nil => simp [symbolsFrom, wordsOf, labelsOf]
  | cons i code ih =>
    cases i with
    | word l n =>
      change (l :: List.map Prod.fst (symbolsFrom (start + 4 * n) (pc + 1) code)).Nodup ↔
        (l :: wordsOf code).Nodup ∧ (labelsOf code).Nodup ∧ ∀ l' ∈ l :: wordsOf code, l' ∉ labelsOf code
      rw [List.nodup_cons, List.nodup_cons, mem_names_symbolsFrom, ih, List.forall_mem_cons]
      tauto
    | label l =>
      change (l :: List.map Prod.fst (symbolsFrom start (pc + 1) code)).Nodup ↔
        (wordsOf code).Nodup ∧ (l :: labelsOf code).Nodup ∧ ∀ l' ∈ wordsOf code, l' ∉ l :: labelsOf code
      have hmem : (∀ l' ∈ wordsOf code, l' ∉ l :: labelsOf code) ↔
          l ∉ wordsOf code ∧ ∀ l' ∈ wordsOf code, l' ∉ labelsOf code := by
        simp only [List.mem_cons, not_or, forall_and]
        exact and_congr_left fun _ => ⟨fun h hl => h l hl rfl, fun h l' hl' heq => h (heq ▸ hl')⟩
      rw [List.nodup_cons, List.nodup_cons, mem_names_symbolsFrom, ih, hmem]
      tauto
    | _ => exact ih _ _

theorem exists_block (start pc : Nat) (h : .word l k ∈ code) :
    ∃ s, (l, .block s k) ∈ symbolsFrom start pc code := by
  induction code generalizing start pc with
  | nil => cases h
  | cons i code ih =>
    rcases List.mem_cons.1 h with rfl | hrest
    · exact ⟨start, List.mem_cons_self⟩
    · cases i with
      | word | label =>
        obtain ⟨s, hs⟩ := ih _ _ hrest
        exact ⟨s, List.mem_cons_of_mem _ hs⟩
      | _ => exact ih _ _ hrest

theorem block_mem_bounds (h : (l, .block s k) ∈ symbolsFrom start pc code) :
    start ≤ s ∧ s + 4 * k ≤ start + blockBytes code := by
  induction code generalizing start pc with
  | nil => cases h
  | cons i code ih =>
    cases i with
    | word l' n =>
      rw [blockBytes]
      rcases List.mem_cons.1 h with heq | h
      · cases heq
        omega
      · have := ih h
        omega
    | label l' =>
      rcases List.mem_cons.1 h with heq | h
      · cases heq
      · exact ih h
    | _ => exact ih h

/-- The blocks of two names have no byte in common. -/
theorem blocks_apart (h : (l, .block s k) ∈ symbolsFrom start pc code)
    (h' : (l', .block s' k') ∈ symbolsFrom start pc code) (hne : l ≠ l') :
    s + 4 * k ≤ s' ∨ s' + 4 * k' ≤ s := by
  induction code generalizing start pc with
  | nil => cases h
  | cons i code ih =>
    cases i with
    | word l'' n =>
      rcases List.mem_cons.1 h with heq | hrest <;> rcases List.mem_cons.1 h' with heq' | hrest'
      · cases heq
        cases heq'
        exact absurd rfl hne
      · cases heq
        exact .inl (block_mem_bounds hrest').1
      · cases heq'
        exact .inr (block_mem_bounds hrest).1
      · exact ih hrest hrest'
    | label l'' =>
      rcases List.mem_cons.1 h with heq | hrest <;> rcases List.mem_cons.1 h' with heq' | hrest'
      · cases heq
      · cases heq
      · cases heq'
      · exact ih hrest hrest'
    | _ => exact ih h h'

theorem resolve_eq_none (h : l ∉ labelsOf code) : resolve code l = none := by
  rw [resolve, List.findIdx?_eq_none_iff]
  exact fun i hi => decide_eq_false fun heq => h (mem_labelsOf.2 (heq ▸ hi))

theorem resolve_cons {i : Instr} (h : i ≠ .label l) :
    (resolve (i :: code) l).map (· + pc) = (resolve code l).map (· + (pc + 1)) := by
  rw [resolve, List.findIdx?_cons, decide_eq_false h]
  change ((resolve code l).map (· + 1)).map (· + pc) = _
  rw [Option.map_map]
  exact congrArg (Option.map · _) (funext fun n => Nat.add_right_comm n 1 pc)

/-- A name leads to where its label stands, if it is not that of a block too. -/
theorem place_of_nodup (h : ((symbolsFrom start pc code).map Prod.fst).Nodup) :
    ((symbolsFrom start pc code).lookup l).bind Symbol.place? = (resolve code l).map (· + pc) := by
  induction code generalizing start pc with
  | nil => rfl
  | cons i code ih =>
    cases i with
    | word l' n =>
      obtain ⟨hl', hrest⟩ := List.nodup_cons.1 h
      rw [resolve_cons, symbolsFrom, List.lookup_cons]
      · split
        next heq =>
          -- the name of a block is that of no label
          obtain rfl := eq_of_beq heq
          rw [resolve_eq_none fun hl => hl' (mem_names_symbolsFrom.2 (.inr hl))]
          rfl
        next => exact ih hrest
      · nofun
    | label l' =>
      obtain ⟨-, hrest⟩ := List.nodup_cons.1 h
      rw [symbolsFrom, List.lookup_cons]
      split
      next heq =>
        obtain rfl := eq_of_beq heq
        rw [resolve, List.findIdx?_cons, decide_eq_true rfl]
        simp [Symbol.place?]
      next hne =>
        rw [resolve_cons]
        · exact ih hrest
        · rintro ⟨⟩
          simp at hne
    | _ =>
      rw [resolve_cons]
      · exact ih h
      · nofun

theorem lookup_of_mem {symbols : List (String × Symbol)} {sym : Symbol}
    (hnodup : (symbols.map Prod.fst).Nodup) (h : (l, sym) ∈ symbols) : symbols.lookup l = some sym := by
  obtain ⟨pre, post, rfl⟩ := List.append_of_mem h
  rw [List.lookup_eq_some_iff]
  refine ⟨pre, post, rfl, fun p hp => ?_⟩
  rw [List.map_append, List.map_cons] at hnodup
  have hne : l ≠ p.1 := by
    rintro rfl
    exact List.disjoint_of_nodup_append hnodup (List.mem_map_of_mem hp) List.mem_cons_self
  exact bne_iff_ne.2 hne

end

theorem assemble_eq_some_iff {base : Nat} {code : List Instr} {image : Image} :
    assemble base code = some image ↔ image.code = code ∧ image.symbols = symbolsFrom base 0 code := by
  obtain ⟨code', symbols, hnodup⟩ := image
  unfold assemble
  constructor
  · intro h
    split_ifs at h
    cases h
    exact ⟨rfl, rfl⟩
  · rintro ⟨hcode, hsymbols⟩
    dsimp only at hcode hsymbols
    subst hcode hsymbols
    exact dif_pos hnodup

/-- Code is assembled if no name stands for two things. -/
theorem exists_assemble_iff {base : Nat} {code : List Instr} :
    (∃ image, assemble base code = some image) ↔
      (wordsOf code).Nodup ∧ (labelsOf code).Nodup ∧ ∀ l ∈ wordsOf code, l ∉ labelsOf code := by
  rw [← nodup_names_symbolsFrom base 0]
  unfold assemble
  split_ifs with h <;> simp [h]

namespace Image

variable {code : List Instr} {image : Image}

section

variable {base : Nat} (h : assemble base code = some image)

include h

theorem nodup_symbols : ((symbolsFrom base 0 code).map Prod.fst).Nodup := by
  obtain ⟨-, hsymbols⟩ := assemble_eq_some_iff.1 h
  exact hsymbols ▸ image.nodup

theorem entry_eq_resolve : image.entry = resolve code := by
  funext l
  obtain ⟨-, hsymbols⟩ := assemble_eq_some_iff.1 h
  rw [entry, hsymbols, place_of_nodup (nodup_symbols h)]
  simp

theorem reaches_iff {inputs : List Int} {m m' : Machine Flat.Terminal} : image.Reaches inputs m m' ↔
    (Flat.Terminal.processor image.address inputs).Reaches code m m' := by
  obtain ⟨hcode, -⟩ := assemble_eq_some_iff.1 h
  rw [Reaches, entry_eq_resolve h, hcode]
  rfl

/-- The block of a place, among the symbols. -/
theorem exists_block_of_accessible {l : String} {n : Int}
    (hp : Location.accessible code (.data l n) = true) :
    ∃ k : Nat, (l, .block (image.start l) k) ∈ symbolsFrom base 0 code ∧
      4 ∣ n ∧ 0 ≤ n ∧ n < 4 * (k : Int) := by
  obtain ⟨-, hsymbols⟩ := assemble_eq_some_iff.1 h
  obtain ⟨hn, hany⟩ := of_decide_eq_true hp
  obtain ⟨i, hi, hblock⟩ := List.any_eq_true.1 hany
  split at hblock
  next l' k =>
    obtain ⟨rfl, hbounds⟩ := of_decide_eq_true hblock
    obtain ⟨s, hs⟩ := exists_block base 0 hi
    have hstart : image.start l' = s := by
      rw [start, hsymbols, lookup_of_mem (nodup_symbols h) hs]
      rfl
    exact ⟨k, hstart ▸ hs, hn, hbounds⟩
  next => cases hblock

end

section

variable {layout : MemoryMap code} (h : assemble layout.base code = some image)

include h

/-- Every place has memory. -/
theorem position_bounds {p : Location} (hp : p.accessible code = true) (hc : layout.Covers p) :
    0 ≤ image.position p ∧ image.position p + 4 ≤ addressLimit := by
  have hblocks := layout.blocks_le
  have hlow := layout.low_le
  have hhigh := layout.high_le
  cases p with
  | stack a =>
    obtain ⟨hlo, hhi⟩ := hc
    rw [position]
    omega
  | data l n =>
    obtain ⟨k, hmem, hn, hnonneg, hlt⟩ := exists_block_of_accessible h hp
    have hbounds := block_mem_bounds hmem
    rw [position]
    omega

/-- The words of two places have no byte in common. -/
theorem position_apart {p q : Location} (hp : p.accessible code = true) (hcp : layout.Covers p)
    (hq : q.accessible code = true) (hcq : layout.Covers q) (hne : p ≠ q) :
    image.position p + 4 ≤ image.position q ∨ image.position q + 4 ≤ image.position p := by
  have hblocks := layout.blocks_le
  cases p with
  | stack a =>
    have ha : 4 ∣ a := of_decide_eq_true hp
    cases q with
    | stack b =>
      have hb : 4 ∣ b := of_decide_eq_true hq
      have hne : a ≠ b := fun heq => hne (congrArg _ heq)
      simp only [position]
      omega
    | data l n =>
      obtain ⟨k, hmem, hn, hnonneg, hlt⟩ := exists_block_of_accessible h hq
      have hbounds := block_mem_bounds hmem
      have hlow := hcp.1
      simp only [position]
      omega
  | data l n =>
    obtain ⟨k, hmem, hn, hnonneg, hlt⟩ := exists_block_of_accessible h hp
    have hbounds := block_mem_bounds hmem
    cases q with
    | stack b =>
      have hlow := hcq.1
      simp only [position]
      omega
    | data l' n' =>
      obtain ⟨k', hmem', hn', hnonneg', hlt'⟩ := exists_block_of_accessible h hq
      simp only [position]
      by_cases hl : l = l'
      · obtain rfl := hl
        have hne : n ≠ n' := fun heq => hne (congrArg _ heq)
        omega
      · have := blocks_apart hmem hmem' hl
        omega

end

end Image

end ProcMips.Mips
