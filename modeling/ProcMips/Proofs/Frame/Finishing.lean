import ProcMips.Proofs.Frame.Insertion

/-! Finished frames. Finishing a frame puts the slots of its layout above the save area, each above
those behind it: they are aligned, they do not overlap, and together they fill the frame. -/

namespace ProcMips

namespace Layout

/-- Slots above the save area, each above those that follow it in the layout. -/
def placed : Layout → List (String × Slot)
  | [] => []
  | (x, k) :: l => (x, ⟨saveArea + wordSize + bytes l, wordSize * k⟩) :: placed l

theorem placed_append_lookup {l m : Layout} {x : String} {k : Nat} (hx : x ∉ names l) :
    (placed (l ++ (x, k) :: m)).lookup x = some ⟨saveArea + wordSize + bytes m, wordSize * k⟩ := by
  induction l with
  | nil => simp [placed]
  | cons p l ih =>
    obtain ⟨y, j⟩ := p
    have hxy : x ≠ y := fun h => hx (by simp [h])
    have hxl : x ∉ names l := fun h => hx (List.mem_cons_of_mem _ h)
    have hbeq : (x == y) = false := beq_eq_false_iff_ne.2 hxy
    simp [placed, List.lookup_cons, hbeq, ih hxl]

theorem map_fst_placed (l : Layout) : (placed l).map Prod.fst = names l := by
  induction l with
  | nil => rfl
  | cons p l ih =>
    obtain ⟨x, k⟩ := p
    simp [placed, ih]

/-- Where the slot of a name is, by what follows it in the layout. -/
theorem lookup_placed {l : Layout} {x : String} {s : Slot} (h : (placed l).lookup x = some s) :
    ∃ l₁ k l₂, l = l₁ ++ (x, k) :: l₂ ∧ x ∉ names l₁ ∧
      s = ⟨saveArea + wordSize + bytes l₂, wordSize * k⟩ := by
  have hx : x ∈ names l := by
    by_contra hx
    rw [← map_fst_placed, ← lookup_eq_none_iff_not_mem] at hx
    simp [hx] at h
  obtain ⟨l₁, k, l₂, rfl, hx₁⟩ := exists_split hx
  rw [placed_append_lookup hx₁] at h
  exact ⟨l₁, k, l₂, rfl, hx₁, (Option.some.inj h).symm⟩

theorem exists_lookup_placed {l : Layout} {x : String} (hx : x ∈ names l) :
    ∃ s, (placed l).lookup x = some s := by
  obtain ⟨l₁, k, l₂, rfl, hx₁⟩ := exists_split hx
  exact ⟨_, placed_append_lookup hx₁⟩

/-- A slot lies inside the frame, above the save area. -/
theorem bounds_of_lookup_placed {l : Layout} {x : String} {s : Slot}
    (h : (placed l).lookup x = some s) :
    saveArea + wordSize ≤ s.offset ∧ s.offset + s.size ≤ saveArea + wordSize + bytes l := by
  obtain ⟨l₁, k, l₂, rfl, -, rfl⟩ := lookup_placed h
  have h₁ := bytes_nonneg l₁
  have h₂ := bytes_nonneg l₂
  simp only [bytes_append, bytes_cons]
  constructor <;> omega

theorem aligned_of_lookup_placed {l : Layout} {x : String} {s : Slot}
    (h : (placed l).lookup x = some s) : wordSize ∣ s.offset := by
  obtain ⟨l₁, k, l₂, rfl, -, rfl⟩ := lookup_placed h
  exact ⟨11 + words l₂, by simp only [saveArea, bytes, wordSize]; omega⟩

/-- The slots of two names do not overlap. -/
theorem disjoint_of_lookup_placed {l : Layout} {x y : String} {s t : Slot} (hxy : x ≠ y)
    (hs : (placed l).lookup x = some s) (ht : (placed l).lookup y = some t) :
    s.offset + s.size ≤ t.offset ∨ t.offset + t.size ≤ s.offset := by
  obtain ⟨l₁, k, l₂, rfl, hx, rfl⟩ := lookup_placed hs
  obtain ⟨m₁, j, m₂, hl, hy, rfl⟩ := lookup_placed ht
  -- one of the two splits is behind the other
  rcases List.append_eq_append_iff.1 hl with ⟨c, rfl, hc⟩ | ⟨c, rfl, hc⟩
  · cases c with
    | nil =>
      rw [List.nil_append, List.cons.injEq, Prod.mk.injEq] at hc
      exact absurd hc.1.1 hxy
    | cons p c =>
      rw [List.cons_append, List.cons.injEq] at hc
      rw [hc.2]
      right
      have := bytes_nonneg c
      simp only [bytes_append, bytes_cons]
      omega
  · cases c with
    | nil =>
      rw [List.nil_append, List.cons.injEq, Prod.mk.injEq] at hc
      exact absurd hc.1.1.symm hxy
    | cons p c =>
      rw [List.cons_append, List.cons.injEq] at hc
      rw [hc.2]
      left
      have := bytes_nonneg c
      simp only [bytes_append, bytes_cons]
      omega

end Layout

namespace Frame

open Layout

/-- The finished frame that has the layout `l`. -/
def finishedLayout (l : Layout) (args : List String) : Frame :=
  { ofLayout l args with slots := placed l, finished := true }

theorem mirror_eq_ok {a total : Int} {k : Nat} {l : Layout} (hk : 0 < k) (ha : 0 ≤ a)
    (htotal : a + (wordSize * k + bytes l) = total) (hsmall : total ≤ maxFrameSize) :
    Slot.mirror (saveArea + total) ⟨a, wordSize * k⟩ =
      .ok ⟨saveArea + wordSize + bytes l, wordSize * k⟩ := by
  have hl := bytes_nonneg l
  simp only [maxFrameSize_eq, wordSize, saveArea] at *
  have h₁ : Word.Fits (a - (40 + total)) := Word.fits_iff.2 ⟨by omega, by omega⟩
  have h₂ : Word.Fits (4 * (k : Int) - 4) := Word.fits_iff.2 ⟨by omega, by omega⟩
  have h₃ : Word.Fits (a - (40 + total) + (4 * (k : Int) - 4)) :=
    Word.fits_iff.2 ⟨by omega, by omega⟩
  have h₄ : Word.Fits (-(a - (40 + total) + (4 * (k : Int) - 4))) :=
    Word.fits_iff.2 ⟨by omega, by omega⟩
  simp only [Slot.mirror, Word.sub, Word.add, Word.neg, wordSize, Word.checked_of_fits h₁,
    Word.checked_of_fits h₂, Word.checked_of_fits h₃, Word.checked_of_fits h₄, bind, Except.bind,
    pure, Except.pure, Except.ok.injEq, Slot.mk.injEq, and_true]
  omega

theorem mapM_mirror {l : Layout} {a total : Int} (hpos : ∀ p ∈ l, 0 < p.2) (ha : 0 ≤ a)
    (htotal : a + bytes l = total) (hsmall : total ≤ maxFrameSize) :
    ((packed a l).mapM fun (x, s) => do
      return (x, ← Slot.mirror (saveArea + total) s) : Except Overflow _) = .ok (placed l) := by
  induction l generalizing a with
  | nil => rfl
  | cons p l ih =>
    obtain ⟨x, k⟩ := p
    rw [bytes_cons] at htotal
    have hk : 0 < k := hpos (x, k) (by simp)
    have hmirror := mirror_eq_ok hk ha htotal hsmall
    have hrest := ih (a := a + wordSize * k) (fun q hq => hpos q (List.mem_cons_of_mem _ hq))
      (by unfold wordSize; omega) (by omega)
    rw [packed, List.mapM_cons, hrest]
    dsimp only
    rw [hmirror]
    rfl

theorem finish_ofLayout {l : Layout} {args : List String} (hv : Valid l) :
    (ofLayout l args).finish = .ok (finishedLayout l args) := by
  have h0 := bytes_nonneg l
  have hsize : (ofLayout l args).size = .ok (bytes l) := size_eq_ok (last_ofLayout l args) hv.small
  have htop : Word.add saveArea (bytes l) = .ok (saveArea + bytes l) := by
    have := hv.small
    rw [maxFrameSize_eq] at this
    exact Word.checked_of_fits (Word.fits_iff.2 ⟨by unfold saveArea; omega, by unfold saveArea; omega⟩)
  have hslots := mapM_mirror (a := 0) hv.pos le_rfl (Int.zero_add _) hv.small
  rw [finish, if_neg (by simp [ofLayout]), hsize]
  simp only [bind, Except.bind, htop] at hslots ⊢
  rw [show (ofLayout l args).slots = packed 0 l from rfl, hslots]
  rfl

theorem size_finishedLayout {l : Layout} {args : List String} (hv : Valid l) :
    (finishedLayout l args).size = .ok (bytes l) :=
  size_eq_ok (last_ofLayout l args) hv.small

/-- A finished frame of `size` bytes: slots between the save area and the end, whole words, none over
another. -/
structure Laid (f : Frame) (size : Int) : Prop where
  size_eq : f.size = .ok size
  nonneg : 0 ≤ size
  whole : 4 ∣ size
  aligned : ∀ x s, f.slot? x = some s → 4 ∣ s.offset
  inside : ∀ x s, f.slot? x = some s → 44 ≤ s.offset ∧ s.offset + s.size ≤ 44 + size
  disjoint : ∀ x y s t, x ≠ y → f.slot? x = some s → f.slot? y = some t →
    s.offset + s.size ≤ t.offset ∨ t.offset + t.size ≤ s.offset

theorem laid_finishedLayout {l : Layout} {args : List String} (hv : Valid l) :
    (finishedLayout l args).Laid (bytes l) := by
  refine ⟨size_finishedLayout hv, bytes_nonneg l, ⟨words l, rfl⟩, fun x s hs => ?_, fun x s hs => ?_, ?_⟩
  · exact aligned_of_lookup_placed hs
  · have := bounds_of_lookup_placed hs
    unfold saveArea wordSize at this
    omega
  · exact fun x y s t hxy hs ht => disjoint_of_lookup_placed hxy hs ht

end Frame

end ProcMips
