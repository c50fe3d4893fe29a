import ProcMips.Proofs.Frame.Layout

/-! Frames as pictures of layouts. A request on the frame of a layout gives the frame of the layout
with that request, unless that is too large, and finishing puts each slot above the slots behind it.
-/

namespace ProcMips

theorem Word.fits_iff {n : Int} : Word.Fits n ↔ -2147483648 ≤ n ∧ n ≤ 2147483647 := Iff.rfl

theorem maxFrameSize_eq : maxFrameSize = 2147483607 := rfl

namespace Frame

open Layout

/-- The frame that has the layout `l`, before it is finished. -/
def ofLayout (l : Layout) (args : List String) : Frame where
  slots := packed 0 l
  args := args
  lastOffset := bytes l.dropLast
  lastSize := wordSize * ((l.getLast?.map Prod.snd).getD 0 : Nat)
  finished := false

theorem ofLayout_nil : ofLayout [] [] = empty := rfl

theorem ofLayout_concat (l : Layout) (x : String) (k : Nat) (args : List String) :
    ofLayout (l ++ [(x, k)]) args =
      ⟨packed 0 l ++ [(x, ⟨bytes l, wordSize * k⟩)], args, bytes l, wordSize * k, false⟩ := by
  simp [ofLayout, packed_append, packed]

theorem last_ofLayout (l : Layout) (args : List String) :
    (ofLayout l args).lastOffset + (ofLayout l args).lastSize = bytes l := by
  rcases List.eq_nil_or_concat l with rfl | ⟨m, ⟨x, k⟩, rfl⟩
  · rfl
  · simp [ofLayout]

theorem size_eq_ok {f : Frame} {l : Layout} (hf : f.lastOffset + f.lastSize = bytes l)
    (hl : bytes l ≤ maxFrameSize) : f.size = .ok (bytes l) := by
  have h0 := bytes_nonneg l
  rw [maxFrameSize_eq] at hl
  rw [size, Word.add, hf, Word.checked_of_fits (Word.fits_iff.2 (by omega))]

theorem grownSize_eq {f : Frame} {l : Layout} {more : Int}
    (hf : f.lastOffset + f.lastSize = bytes l) (hl : bytes l ≤ maxFrameSize) :
    f.grownSize more =
      if bytes l + more ≤ maxFrameSize then .ok (bytes l + more) else .error .tooLarge := by
  rw [grownSize, size_eq_ok hf hl]

theorem append_ofLayout {l : Layout} {args : List String} {x : String} {k : Nat}
    (hl : bytes l ≤ maxFrameSize) :
    (ofLayout l args).append x (wordSize * k) =
      if bytes (l ++ [(x, k)]) ≤ maxFrameSize then .ok (ofLayout (l ++ [(x, k)]) args)
      else .error .tooLarge := by
  rw [append, grownSize_eq (last_ofLayout l args) hl, ofLayout_concat, bytes_append, bytes_cons,
    bytes_nil, Int.add_zero]
  split_ifs with h
  · simp [bind, Except.bind, pure, Except.pure, ofLayout]
  · rfl

/-- Slots in which those that begin after `start` have moved up by `diff`. -/
def moved (start diff : Int) (ss : List (String × Slot)) : List (String × Slot) :=
  ss.map fun (x, s) => if start < s.offset then (x, { s with offset := s.offset + diff }) else (x, s)

theorem shift_eq_moved {start diff : Int} {ss : List (String × Slot)}
    (h : ∀ p ∈ ss, start < p.2.offset → Word.Fits (p.2.offset + diff)) :
    shift start diff ss = .ok (moved start diff ss) := by
  induction ss with
  | nil => rfl
  | cons p ss ih =>
    obtain ⟨x, s⟩ := p
    have ih := ih fun q hq => h q (List.mem_cons_of_mem _ hq)
    unfold shift at ih
    rw [shift, List.mapM_cons, ih]
    by_cases hs : start < s.offset
    · have hfit := h (x, s) (by simp) hs
      simp [hs, moved, Word.add, Word.checked_of_fits hfit, bind, Except.bind, pure, Except.pure]
    · simp [hs, moved, bind, Except.bind, pure, Except.pure]

theorem moved_append (start diff : Int) (ss ts : List (String × Slot)) :
    moved start diff (ss ++ ts) = moved start diff ss ++ moved start diff ts :=
  List.map_append

theorem moved_eq_self {start diff : Int} {ss : List (String × Slot)}
    (h : ∀ p ∈ ss, p.2.offset ≤ start) : moved start diff ss = ss := by
  induction ss with
  | nil => rfl
  | cons p ss ih =>
    obtain ⟨x, s⟩ := p
    have hs : ¬ start < s.offset := Int.not_lt.2 (h (x, s) (by simp))
    have ih := ih fun q hq => h q (List.mem_cons_of_mem _ hq)
    rw [moved, List.map_cons] at *
    simp only [hs, if_false]
    rw [ih]

theorem moved_packed {start diff a : Int} {l : Layout} (h : start < a) :
    moved start diff (packed a l) = packed (a + diff) l := by
  induction l generalizing a with
  | nil => rfl
  | cons p l ih =>
    obtain ⟨x, k⟩ := p
    have hk : start < a + wordSize * k := by unfold wordSize; omega
    have := ih hk
    unfold moved at this ⊢
    simp only [packed, List.map_cons, h, if_true, this]
    rw [show a + wordSize * k + diff = a + diff + wordSize * k by omega]

theorem resize_of_not_mem {x : String} {size : Int} {ss : List (String × Slot)}
    (h : x ∉ ss.map Prod.fst) : resize x size ss = ss := by
  induction ss with
  | nil => rfl
  | cons p ss ih =>
    obtain ⟨y, s⟩ := p
    rw [List.map_cons, List.mem_cons, not_or] at h
    have ih := ih h.2
    unfold resize at ih ⊢
    simp [Ne.symm h.1, ih]

/-- In the slots of a layout, what lies behind the slot of `x` moves when that slot grows. -/
theorem shift_packed {l m : Layout} {x : String} {k n : Nat} (hv : Valid (l ++ (x, k) :: m))
    (hkn : k < n) (hsmall : bytes (l ++ (x, n) :: m) ≤ maxFrameSize) :
    shift (bytes l) (wordSize * n - wordSize * k) (packed 0 (l ++ (x, k) :: m)) =
      .ok (packed 0 l ++ (x, ⟨bytes l, wordSize * k⟩) :: packed (bytes l + wordSize * n) m) := by
  have hk : 0 < k := hv.pos (x, k) (by simp)
  have hbefore : ∀ p ∈ packed 0 l, p.2.offset ≤ bytes l := by
    intro p hp
    have hb := bounds_of_mem_packed hp
    have hs := size_of_mem_packed (fun q hq => hv.pos q (List.mem_append_left _ hq)) hp
    unfold wordSize at hs
    omega
  have hbehind : moved (bytes l) (wordSize * n - wordSize * k) (packed (bytes l + wordSize * k) m) =
      packed (bytes l + wordSize * k + (wordSize * n - wordSize * k)) m :=
    moved_packed (by unfold wordSize; omega)
  rw [show bytes l + wordSize * k + (wordSize * n - wordSize * k) = bytes l + wordSize * n by
    omega] at hbehind
  rw [shift_eq_moved]
  · rw [packed_append, moved_append, moved_eq_self hbefore, packed, Int.zero_add]
    unfold moved at hbehind ⊢
    rw [List.map_cons, hbehind]
    simp
  · intro p hp _
    have hb := bounds_of_mem_packed hp
    have hs := size_of_mem_packed hv.pos hp
    simp only [bytes_append, bytes_cons, maxFrameSize_eq, wordSize] at hb hs hsmall ⊢
    have hl := bytes_nonneg l
    have hm := bytes_nonneg m
    exact Word.fits_iff.2 ⟨by omega, by omega⟩

theorem resize_packed {l m : Layout} {x : String} {k n : Nat}
    (hnodup : (names (l ++ (x, k) :: m)).Nodup) (a : Int) :
    resize x (wordSize * n) (packed 0 l ++ (x, ⟨bytes l, wordSize * k⟩) :: packed a m) =
      packed 0 l ++ (x, ⟨bytes l, wordSize * n⟩) :: packed a m := by
  rw [names_append, names_cons] at hnodup
  have hxl : x ∉ names l := fun h => (List.disjoint_of_nodup_append hnodup) h (by simp)
  have hxm : x ∉ names m := (List.nodup_cons.1 (List.nodup_append'.1 hnodup).2.1).1
  have h₁ : resize x (wordSize * n) (packed 0 l) = packed 0 l :=
    resize_of_not_mem (by rwa [map_fst_packed])
  have h₂ : resize x (wordSize * n) (packed a m) = packed a m :=
    resize_of_not_mem (by rwa [map_fst_packed])
  unfold resize at h₁ h₂ ⊢
  rw [List.map_append, h₁, List.map_cons, h₂]
  simp

theorem last_ofLayout_split (l m : Layout) (x z : String) (k j : Nat) (args : List String) :
    (ofLayout (l ++ (x, k) :: (m ++ [(z, j)])) args).lastOffset = bytes l + wordSize * k + bytes m ∧
      (ofLayout (l ++ (x, k) :: (m ++ [(z, j)])) args).lastSize = wordSize * j := by
  rw [← List.cons_append, ← List.append_assoc, ofLayout_concat]
  simp [Int.add_assoc]

/-- Growing the slot of `x` gives the frame in which it was laid out with that size. -/
theorem widen_ofLayout {l m : Layout} {args : List String} {x : String} {k n : Nat}
    (hv : Valid (l ++ (x, k) :: m)) (hkn : k < n) :
    (ofLayout (l ++ (x, k) :: m) args).widen x ⟨bytes l, wordSize * k⟩ (wordSize * n) =
      if bytes (l ++ (x, n) :: m) ≤ maxFrameSize then .ok (ofLayout (l ++ (x, n) :: m) args)
      else .error .tooLarge := by
  have hk : 0 < k := hv.pos (x, k) (by simp)
  have hgrown : bytes (l ++ (x, k) :: m) + (wordSize * n - wordSize * k) =
      bytes (l ++ (x, n) :: m) := by
    simp only [bytes_append, bytes_cons]; omega
  rw [widen, grownSize_eq (last_ofLayout _ _) hv.small, hgrown]
  by_cases hsmall : bytes (l ++ (x, n) :: m) ≤ maxFrameSize
  swap
  · simp only [if_neg hsmall, bind, Except.bind]
  have hshift : shift (bytes l) (wordSize * n - wordSize * k)
      (ofLayout (l ++ (x, k) :: m) args).slots = _ := shift_packed hv hkn hsmall
  have hslots : (ofLayout (l ++ (x, n) :: m) args).slots =
      packed 0 l ++ (x, ⟨bytes l, wordSize * n⟩) :: packed (bytes l + wordSize * n) m := by
    simp [ofLayout, packed_append, packed]
  simp only [if_pos hsmall, bind, Except.bind, hshift, resize_packed hv.nodup, pure, Except.pure,
    ← hslots, Except.ok.injEq]
  -- the last slot is the one that grows, or else it is among those that move
  rcases List.eq_nil_or_concat m with rfl | ⟨m, ⟨z, j⟩, rfl⟩
  · have hlast (i : Nat) : (ofLayout (l ++ [(x, i)]) args).lastOffset = bytes l := by
      simp [ofLayout]
    have hnone : ((ofLayout (l ++ [(x, k)]) args).slots.any fun p =>
        decide (bytes l < p.2.offset ∧ p.2.offset = bytes l)) = false := by
      rw [List.any_eq_false]
      intro p _
      simp only [decide_eq_true_eq]
      omega
    rw [hlast, hnone]
    simp [ofLayout]
  · have hlast (i : Nat) := last_ofLayout_split l m x z i j args
    have hm := bytes_nonneg m
    have hbehind : bytes l < bytes l + wordSize * k + bytes m := by unfold wordSize; omega
    have hsome : ((ofLayout (l ++ (x, k) :: (m ++ [(z, j)])) args).slots.any fun p =>
        decide (bytes l < p.2.offset ∧ p.2.offset = bytes l + wordSize * k + bytes m)) = true := by
      rw [List.any_eq_true]
      refine ⟨(z, ⟨bytes l + wordSize * k + bytes m, wordSize * j⟩), ?_, by simpa using hbehind⟩
      simp [ofLayout, packed_append, packed]
    simp only [List.concat_eq_append] at *
    rw [(hlast k).1, (hlast k).2, hsome, if_pos rfl, if_neg (Int.ne_of_lt hbehind)]
    have hoffset : (ofLayout (l ++ (x, n) :: (m ++ [(z, j)])) args).lastOffset =
        bytes l + wordSize * k + bytes m + (wordSize * n - wordSize * k) := by
      rw [(hlast n).1]; omega
    rw [← hoffset, ← (hlast n).2]
    rfl

/-- A request succeeds exactly if the layout with it is small enough. -/
theorem insert_ofLayout {l : Layout} {args : List String} {x : String} {n : Nat} (hv : Valid l) :
    (ofLayout l args).insert x n =
      if bytes (request x n l) ≤ maxFrameSize then .ok (ofLayout (request x n l) args)
      else .error .tooLarge := by
  have hle := le_bytes_request l x n
  by_cases hbig : wordSize * (n : Int) ≤ Word.greatest
  swap
  · have : ¬ bytes (request x n l) ≤ maxFrameSize := by
      unfold Word.greatest at hbig; rw [maxFrameSize_eq]; omega
    simp [insert, hbig, this]
  rw [insert, if_pos hbig]
  by_cases hx : x ∈ names l
  · obtain ⟨l, k, m, rfl, hxl⟩ := exists_split hx
    have hslot : (ofLayout (l ++ (x, k) :: m) args).slot? x = some ⟨bytes l, wordSize * k⟩ := by
      rw [slot?, ofLayout, lookup_packed hxl, Int.zero_add]
    rw [hslot, request_of_split hxl]
    dsimp only
    split_ifs with hsize hsmall hsmall
    · have hkn : k < n := by unfold wordSize at hsize; omega
      rw [widen_ofLayout hv hkn, Nat.max_eq_right hkn.le]
      rw [Nat.max_eq_right hkn.le] at hsmall
      rw [if_pos hsmall]
    · have hkn : k < n := by unfold wordSize at hsize; omega
      rw [widen_ofLayout hv hkn]
      rw [Nat.max_eq_right hkn.le] at hsmall
      rw [if_neg hsmall]
    · have hkn : n ≤ k := by unfold wordSize at hsize; omega
      rw [Nat.max_eq_left hkn]
    · have hkn : n ≤ k := by unfold wordSize at hsize; omega
      rw [Nat.max_eq_left hkn] at hsmall
      exact absurd hv.small hsmall
  · have hslot : (ofLayout l args).slot? x = none := lookup_packed_eq_none.2 hx
    rw [hslot, request_of_not_mem hx]
    exact append_ofLayout hv.small

end Frame

end ProcMips
