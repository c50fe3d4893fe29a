import ProcMips.Proofs.Frame.Insertion

/-! Storage asked for in place. The fields of a frame are written one after the other, and every
operation on words is checked, so that a failure could leave a frame half written. From a new frame on
none does: a call gives the frame that `insert` and `insertArg` give, or it leaves the frame as it was.
-/

namespace ProcMips

namespace Frame

/-- A change of a frame. Its state is known even if it fails. -/
abbrev Update := EStateM Refusal Frame

namespace Update

/-- The result of an operation that must not overflow. -/
def word (r : Except Overflow Int) : Update Int := fun f =>
  match r with
  | .ok n => .ok n f
  | .error op => .error (.overflow op) f

/-- The result of an operation that may overflow, in which case the frame would be too large. -/
def fitted (r : Except Overflow Int) : Update Int := fun f =>
  match r with
  | .ok n => .ok n f
  | .error _ => .error .tooLarge f

/-- Fails if `more` bytes behind `size` are too many for a frame. -/
def fits (size more : Int) : Update Unit := do
  let grown ← fitted (Word.add size more)
  if grown ≤ maxFrameSize then pure () else throw .tooLarge

/-- A new slot behind the last one. -/
def append (name : String) (size : Int) : Update Unit := do
  let offset ← word (← get).size
  fits offset size
  modify fun f => { f with slots := f.slots ++ [(name, ⟨offset, size⟩)] }
  modify fun f => { f with lastOffset := offset }
  modify fun f => { f with lastSize := size }

/-- Moves the slots behind `start`, one at a time, and gives the new position of the last slot. Those in
`done` have been looked at. -/
def shift (start diff last : Int) (done : List (String × Slot)) (newLast : Int) :
    List (String × Slot) → Update Int
  | [] => return newLast
  | (x, s) :: rest =>
    if start < s.offset then do
      let offset ← word (Word.add s.offset diff)
      modify fun f => { f with slots := done ++ (x, { s with offset }) :: rest }
      shift start diff last (done ++ [(x, { s with offset })])
        (if s.offset = last then offset else newLast) rest
    else shift start diff last (done ++ [(x, s)]) newLast rest

/-- Lets `s`, the slot of `name`, grow to `size`. -/
def widen (name : String) (s : Slot) (size : Int) : Update Unit := do
  let diff ← word (Word.sub size s.size)
  let total ← word (← get).size
  fits total diff
  modify fun f => { f with lastSize := if s.offset = f.lastOffset then size else f.lastSize }
  let f ← get
  let last ← shift s.offset diff f.lastOffset [] f.lastOffset f.slots
  modify fun f => { f with lastOffset := last }
  modify fun f => { f with slots := resize name size f.slots }

def insert (name : String) (words : Nat) : Update Unit := do
  let size ← fitted (if (words : Int) ≤ Word.greatest then Word.mul words wordSize else .error .multiply)
  match (← get).slot? name with
  | none => append name size
  | some s => if s.size < size then widen name s size else pure ()

def insertArg (name : String) : Update Unit := do
  insert name 1
  modify fun f => { f with args := f.args ++ [name] }

section

variable {α β : Type} {f : Frame}

theorem run_bind (x : Update α) (k : α → Update β) :
    (x >>= k).run f = match x.run f with
      | .ok a g => (k a).run g
      | .error e g => .error e g := by
  change EStateM.bind x k f = _
  unfold EStateM.bind EStateM.run
  cases x f <;> rfl

theorem run_get : (get : Update Frame).run f = .ok f f := rfl

theorem run_modify (h : Frame → Frame) : (modify h : Update Unit).run f = .ok () (h f) := rfl

theorem run_word_ok (n : Int) : (word (.ok n)).run f = .ok n f := rfl

theorem run_fitted_ok (n : Int) : (fitted (.ok n)).run f = .ok n f := rfl

theorem run_fits {size more : Int} (hsize : Word.Fits size) (hmore : 0 ≤ more) :
    (fits size more).run f =
      if size + more ≤ maxFrameSize then .ok () f else .error .tooLarge f := by
  rw [fits, run_bind, Word.add]
  by_cases hfit : Word.Fits (size + more)
  · rw [Word.checked_of_fits hfit, run_fitted_ok]
    dsimp only
    split_ifs <;> rfl
  · have hbig : ¬ size + more ≤ maxFrameSize := by
      rw [Word.fits_iff] at hsize hfit
      rw [maxFrameSize_eq]
      omega
    rw [Word.checked, if_neg hfit, if_neg hbig]
    rfl

end

/-- How a change of `f` ends that gives the frame of `r`, or else leaves `f` as it is. -/
def ending (f : Frame) : Except Refusal Frame → EStateM.Result Refusal Frame Unit
  | .ok g => .ok () g
  | .error e => .error e f

variable {f : Frame} {name : String} {s : Slot} {size total : Int}

theorem fits_of_size_eq_ok (h : f.size = .ok total) : Word.Fits total := by
  obtain ⟨hfits, rfl⟩ := Word.checked_eq_ok_iff.1 h
  exact hfits

theorem run_append (htotal : f.size = .ok total) (hsize : 0 ≤ size) :
    (append name size).run f = ending f (f.append name size) := by
  rw [append, Frame.append, grownSize, run_bind, run_get]
  dsimp only
  rw [run_bind, htotal, run_word_ok]
  dsimp only
  rw [run_bind, run_fits (fits_of_size_eq_ok htotal) hsize]
  by_cases hsmall : total + size ≤ maxFrameSize
  · rw [if_pos hsmall, if_pos hsmall]
    change _ = EStateM.Result.ok () { f with
      slots := f.slots ++ [(name, (⟨total + size - size, size⟩ : Slot))]
      lastOffset := total + size - size
      lastSize := size }
    rw [Int.add_sub_cancel]
    rfl
  · rw [if_neg hsmall, if_neg hsmall]
    rfl

theorem shift_cons_eq_ok {start diff : Int} {x : String} {rest ts : List (String × Slot)} :
    Frame.shift start diff ((x, s) :: rest) = .ok ts ↔
      ∃ offset us, (if start < s.offset then Word.add s.offset diff else .ok s.offset) = .ok offset ∧
        Frame.shift start diff rest = .ok us ∧ (x, { s with offset }) :: us = ts := by
  unfold Frame.shift
  rw [List.mapM_cons]
  simp only [except_bind_eq_ok, except_pure_eq_ok]
  constructor
  · rintro ⟨q, hq, us, hus, rfl⟩
    split_ifs at hq ⊢ with hs
    · simp only [except_bind_eq_ok, except_pure_eq_ok] at hq
      obtain ⟨offset, hoffset, rfl⟩ := hq
      exact ⟨offset, us, hoffset, hus, rfl⟩
    · obtain rfl := Except.ok.inj hq
      exact ⟨s.offset, us, rfl, hus, rfl⟩
  · rintro ⟨offset, us, hoffset, hus, rfl⟩
    refine ⟨_, ?_, us, hus, rfl⟩
    split_ifs at hoffset ⊢ with hs
    · rw [hoffset]
      rfl
    · obtain rfl := Except.ok.inj hoffset
      rfl

/-- Slots that are moved one at a time have all moved in the end. -/
theorem run_shift {start diff last newLast : Int} {done rest ts : List (String × Slot)}
    (hshift : Frame.shift start diff rest = .ok ts) (hf : f.slots = done ++ rest) :
    (shift start diff last done newLast rest).run f =
      .ok (if rest.any fun p => start < p.2.offset ∧ p.2.offset = last then last + diff else newLast)
        { f with slots := done ++ ts } := by
  induction rest generalizing f done newLast ts with
  | nil =>
    obtain rfl : [] = ts := Except.ok.inj hshift
    rw [shift, ← hf]
    rfl
  | cons p rest ih =>
    obtain ⟨x, s⟩ := p
    obtain ⟨offset, us, hoffset, hus, rfl⟩ := shift_cons_eq_ok.1 hshift
    rw [shift, List.any_cons]
    dsimp only
    split_ifs at hoffset with hs
    · -- the slot moves, and may be the last one
      obtain ⟨-, rfl⟩ := Word.checked_eq_ok_iff.1 hoffset
      rw [if_pos hs, run_bind, hoffset, run_word_ok]
      dsimp only
      rw [run_bind, run_modify]
      dsimp only
      rw [ih hus (by simp), List.append_assoc, List.singleton_append]
      rcases eq_or_ne s.offset last with rfl | hlast
      · rw [decide_eq_true ⟨hs, rfl⟩, Bool.true_or, if_pos rfl, if_pos rfl, ite_self]
      · rw [decide_eq_false fun h => hlast h.2, Bool.false_or, if_neg hlast]
    · obtain rfl := Except.ok.inj hoffset
      rw [if_neg hs, ih hus (by rw [hf, List.append_assoc, List.singleton_append]),
        decide_eq_false fun h => hs h.1, Bool.false_or, List.append_assoc, List.singleton_append]

theorem run_widen (htotal : f.size = .ok total) (hlt : s.size < size)
    (hdiff : Word.Fits (size - s.size))
    (hshift : total + (size - s.size) ≤ maxFrameSize →
      ∃ ts, Frame.shift s.offset (size - s.size) f.slots = .ok ts) :
    (widen name s size).run f = ending f (f.widen name s size) := by
  rw [widen, run_bind, Word.sub, Word.checked_of_fits hdiff, run_word_ok]
  dsimp only
  rw [run_bind, run_get]
  dsimp only
  rw [run_bind, htotal, run_word_ok]
  dsimp only
  rw [run_bind, run_fits (fits_of_size_eq_ok htotal) (by omega), Frame.widen, grownSize, htotal]
  by_cases hsmall : total + (size - s.size) ≤ maxFrameSize
  · obtain ⟨ts, hts⟩ := hshift hsmall
    rw [if_pos hsmall]
    dsimp only
    rw [run_bind, run_modify]
    dsimp only
    rw [run_bind, run_get]
    dsimp only
    rw [run_bind, run_shift (f := { f with lastSize := _ }) hts rfl, if_pos hsmall, hts]
    rfl
  · rw [if_neg hsmall]
    dsimp only
    rw [if_neg hsmall]
    rfl

theorem run_fitted_size (n : Nat) :
    (fitted (if (n : Int) ≤ Word.greatest then Word.mul n wordSize else .error .multiply)).run f =
      if wordSize * (n : Int) ≤ Word.greatest then .ok (wordSize * n) f else .error .tooLarge f := by
  unfold Word.mul
  rw [Int.mul_comm (n : Int)]
  by_cases hbig : wordSize * (n : Int) ≤ Word.greatest
  · have hword : (n : Int) ≤ Word.greatest := by unfold wordSize at hbig; omega
    have hfits : Word.Fits (wordSize * n) := ⟨by unfold wordSize Word.least; omega, hbig⟩
    rw [if_pos hword, if_pos hbig, Word.checked_of_fits hfits]
    rfl
  · have hfits : ¬ Word.Fits (wordSize * n) := fun h => hbig h.2
    rw [if_neg hbig, Word.checked, if_neg hfits]
    split_ifs <;> rfl

/-- On the frame of a layout, asking in place for a slot ends as asking for it does. -/
theorem run_insert_ofLayout {l : Layout} {args : List String} {n : Nat} (hv : Layout.Valid l) :
    (insert name n).run (ofLayout l args) =
      ending (ofLayout l args) ((ofLayout l args).insert name n) := by
  have htotal : (ofLayout l args).size = .ok (Layout.bytes l) :=
    size_eq_ok (last_ofLayout l args) hv.small
  rw [insert, run_bind, run_fitted_size, Frame.insert]
  by_cases hbig : wordSize * (n : Int) ≤ Word.greatest
  swap
  · rw [if_neg hbig, if_neg hbig]
    rfl
  rw [if_pos hbig, if_pos hbig]
  dsimp only
  rw [run_bind, run_get]
  dsimp only
  by_cases hx : name ∈ Layout.names l
  · obtain ⟨l, k, m, rfl, hxl⟩ := Layout.exists_split hx
    have hslot : (ofLayout (l ++ (name, k) :: m) args).slot? name =
        some ⟨Layout.bytes l, wordSize * k⟩ := by
      rw [slot?, ofLayout, Layout.lookup_packed hxl, Int.zero_add]
    rw [hslot]
    dsimp only
    by_cases hlt : wordSize * (k : Int) < wordSize * n
    · rw [if_pos hlt, if_pos hlt]
      have hdiff : Word.Fits (wordSize * (n : Int) - wordSize * k) := by
        rw [Word.fits_iff]
        unfold wordSize Word.greatest at *
        omega
      refine run_widen htotal hlt hdiff fun hsmall => ⟨_, shift_packed hv ?_ ?_⟩
      · unfold wordSize at hlt
        omega
      · simp only [Layout.bytes_append, Layout.bytes_cons] at hsmall ⊢
        omega
    · rw [if_neg hlt, if_neg hlt]
      rfl
  · have hslot : (ofLayout l args).slot? name = none := Layout.lookup_packed_eq_none.2 hx
    rw [hslot]
    exact run_append htotal (by unfold wordSize; omega)

theorem run_insertArg_ofLayout {l : Layout} {args : List String} (hv : Layout.Valid l) :
    (insertArg name).run (ofLayout l args) =
      ending (ofLayout l args) ((ofLayout l args).insertArg name) := by
  rw [insertArg, run_bind, run_insert_ofLayout hv, Frame.insertArg]
  cases (ofLayout l args).insert name 1 <;> rfl

end Update

end Frame

end ProcMips
