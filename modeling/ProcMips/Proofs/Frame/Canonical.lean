import Mathlib.Algebra.BigOperators.Group.List.Basic
import Mathlib.Algebra.Ring.Int.Defs
import ProcMips.Proofs.Frame.Calls
import ProcMips.Proofs.Frame.Steps

/-! Calls one after the other on a new frame, any of which may fail. What they lay out is decided by the
requests that were granted: by the order in which names were first granted storage, and by the most words
that each was granted. Finishing then fills the frame with the slots, without a gap. -/

namespace ProcMips

namespace Layout

theorem bytes_eq_sum (l : Layout) : bytes l = (l.map fun p => wordSize * (p.2 : Int)).sum := by
  induction l with
  | nil => rfl
  | cons p l ih =>
    obtain ⟨x, k⟩ := p
    rw [bytes_cons, List.map_cons, List.sum_cons, ih]

theorem names_request (x : String) (n : Nat) (l : Layout) :
    names (request x n l) = if x ∈ names l then names l else names l ++ [x] := by
  split_ifs with hx
  · obtain ⟨l, k, m, rfl, hxl⟩ := exists_split hx
    simp only [request_of_split hxl, names_append, names_cons]
  · rw [request_of_not_mem hx, names_append, names_cons, names_nil]

/-- Names are laid out in the order in which they were first asked for. -/
theorem names_requestAll (rs : Requests) :
    names (requestAll rs []) = (rs.map Prod.fst).eraseDups := by
  induction rs using List.reverseRecOn with
  | nil => rfl
  | append_singleton rs r ih =>
    obtain ⟨x, n⟩ := r
    rw [requestAll_append, requestAll_cons, requestAll_nil, names_request, ih, List.map_append,
      List.eraseDups_append, List.map_singleton]
    by_cases hx : x ∈ rs.map Prod.fst
    · rw [if_pos (List.mem_eraseDups.2 hx), List.removeAll, List.filter_cons_of_neg (by simpa using hx)]
      simp
    · rw [if_neg (mt List.mem_eraseDups.1 hx), List.removeAll, List.filter_cons_of_pos (by simpa using hx)]
      simp [List.eraseDups_cons]

theorem sizes_packed (start : Int) (l : Layout) :
    (packed start l).map (fun p => p.2.size) = l.map fun p => wordSize * (p.2 : Int) := by
  induction l generalizing start with
  | nil => rfl
  | cons p l ih =>
    obtain ⟨x, k⟩ := p
    rw [packed, List.map_cons, List.map_cons, ih]

theorem sizes_placed (l : Layout) :
    (placed l).map (fun p => p.2.size) = l.map fun p => wordSize * (p.2 : Int) := by
  induction l with
  | nil => rfl
  | cons p l ih =>
    obtain ⟨x, k⟩ := p
    rw [placed, List.map_cons, List.map_cons, ih]

/-- Each slot begins where those before it end. -/
theorem offset_packed (start : Int) (l : Layout) (j : Nat) (hj : j < (packed start l).length) :
    (packed start l)[j].2.offset = start + (((packed start l).map fun p => p.2.size).take j).sum := by
  induction l generalizing start j with
  | nil => simp [packed] at hj
  | cons p l ih =>
    obtain ⟨x, k⟩ := p
    cases j with
    | zero => simp [packed]
    | succ j =>
      simp only [packed, List.getElem_cons_succ, List.map_cons, List.take_succ_cons, List.sum_cons]
      rw [ih, Int.add_assoc]

/-- Each slot that is placed ends where the one before it begins. -/
theorem offset_placed (l : Layout) (j : Nat) (hj : j < (placed l).length) :
    (placed l)[j].2.offset = saveArea + wordSize + bytes l -
      (((placed l).map fun p => p.2.size).take (j + 1)).sum := by
  induction l generalizing j with
  | nil => simp [placed] at hj
  | cons p l ih =>
    obtain ⟨x, k⟩ := p
    cases j with
    | zero =>
      simp only [placed, List.getElem_cons_zero, List.map_cons, List.take_succ_cons, List.take_zero,
        List.sum_cons, List.sum_nil, bytes_cons]
      omega
    | succ j =>
      simp only [placed, List.getElem_cons_succ, List.map_cons, List.take_succ_cons, List.sum_cons,
        bytes_cons]
      rw [ih]
      omega

theorem bounds_of_mem_placed {l : Layout} {p : String × Slot} (h : p ∈ placed l) :
    p.2.offset + p.2.size ≤ saveArea + wordSize + bytes l := by
  induction l with
  | nil => simp [placed] at h
  | cons q l ih =>
    obtain ⟨x, k⟩ := q
    rw [bytes_cons]
    rcases List.mem_cons.1 h with rfl | h
    · dsimp only
      omega
    · have := ih h
      unfold wordSize at *
      omega

/-- The slots that are placed have every byte of the frame. -/
theorem exists_mem_placed_iff {l : Layout} {b : Int} :
    (∃ p ∈ placed l, p.2.offset ≤ b ∧ b < p.2.offset + p.2.size) ↔
      saveArea + wordSize ≤ b ∧ b < saveArea + wordSize + bytes l := by
  induction l with
  | nil => simp [placed]
  | cons q l ih =>
    obtain ⟨x, k⟩ := q
    have hl := bytes_nonneg l
    simp only [placed, List.mem_cons, exists_eq_or_imp, ih, bytes_cons]
    unfold wordSize at *
    omega

theorem pairwise_placed (l : Layout) :
    (placed l).Pairwise fun p q => q.2.offset + q.2.size ≤ p.2.offset := by
  induction l with
  | nil => exact List.Pairwise.nil
  | cons p l ih =>
    obtain ⟨x, k⟩ := p
    exact List.pairwise_cons.2 ⟨fun q hq => bounds_of_mem_placed hq, ih⟩

theorem aligned_of_mem_placed {l : Layout} {p : String × Slot} (h : p ∈ placed l) :
    4 ∣ p.2.offset := by
  induction l with
  | nil => simp [placed] at h
  | cons q l ih =>
    obtain ⟨x, k⟩ := q
    rcases List.mem_cons.1 h with rfl | h
    · exact ⟨11 + words l, by simp only [saveArea, bytes, wordSize]; omega⟩
    · exact ih h

end Layout

namespace Frame

open Layout

/-- The bytes of the slots, in order. -/
def sizes (f : Frame) : List Int := f.slots.map fun p => p.2.size

/-- A frame whose layout is decided by the requests that were granted. -/
structure Canonical (rs : Requests) (f : Frame) : Prop where
  names_eq : f.names = (rs.map Prod.fst).eraseDups
  sizes_eq : f.sizes = f.names.map fun x => 4 * (rs.largest x : Int)
  offset_eq : ∀ j (hj : j < f.slots.length), f.slots[j].2.offset = (f.sizes.take j).sum
  last_eq : (f.lastOffset, f.lastSize) = f.slots.getLast?.elim (0, 0) fun p => (p.2.offset, p.2.size)
  size_eq : f.size = .ok f.sizes.sum
  small : f.sizes.sum ≤ maxFrameSize

theorem sum_sizes_ofLayout (l : Layout) (args : List String) :
    (ofLayout l args).sizes.sum = bytes l := by
  rw [sizes, ofLayout, sizes_packed, bytes_eq_sum]

theorem canonical_ofLayout {rs : Requests} (hv : Valid (requestAll rs [])) (args : List String) :
    Canonical rs (ofLayout (requestAll rs []) args) where
  names_eq := by rw [names, ofLayout, map_fst_packed, names_requestAll]
  sizes_eq := by
    have hwords := map_wordsOf_names hv.nodup
    simp only [wordsOf_requestAll] at hwords
    have hsizes := congrArg (List.map fun n : Nat => 4 * (n : Int)) hwords
    rw [List.map_map, List.map_map] at hsizes
    rw [sizes, names, ofLayout, sizes_packed, map_fst_packed]
    exact hsizes.symm
  offset_eq j hj := by
    have := offset_packed 0 (requestAll rs []) j hj
    rwa [Int.zero_add] at this
  last_eq := by
    rcases List.eq_nil_or_concat (requestAll rs []) with h | ⟨l, ⟨x, k⟩, h⟩
    · rw [h]
      rfl
    · rw [h, List.concat_eq_append, ofLayout_concat]
      simp
  size_eq := by
    rw [sum_sizes_ofLayout]
    exact size_eq_ok (last_ofLayout _ _) hv.small
  small := by
    rw [sum_sizes_ofLayout]
    exact hv.small

theorem slot_eq {s t : Slot} (hoffset : s.offset = t.offset) (hsize : s.size = t.size) : s = t := by
  cases s
  cases t
  exact congrArg₂ Slot.mk hoffset hsize

/-- The order of the names and the most words of each name decide where everything is. -/
theorem Canonical.congr {rs ts : Requests} {f g : Frame} (hf : Canonical rs f) (hg : Canonical ts g)
    (horder : (rs.map Prod.fst).eraseDups = (ts.map Prod.fst).eraseDups)
    (hlargest : ∀ x, rs.largest x = ts.largest x) :
    f.slots = g.slots ∧ f.lastOffset = g.lastOffset ∧ f.lastSize = g.lastSize := by
  have hnames : f.names = g.names := by rw [hf.names_eq, hg.names_eq, horder]
  have hsizes : f.sizes = g.sizes := by simp only [hf.sizes_eq, hg.sizes_eq, hnames, hlargest]
  have hslots : f.slots = g.slots := by
    refine List.ext_getElem ?_ fun j hj hj' => ?_
    · simpa [names] using congrArg List.length hnames
    · have hname : f.slots[j].1 = g.slots[j].1 := by
        have := List.getElem_of_eq hnames (by simpa [names] using hj)
        simpa [names] using this
      have hsize : f.slots[j].2.size = g.slots[j].2.size := by
        have := List.getElem_of_eq hsizes (by simpa [sizes] using hj)
        simpa [sizes] using this
      have hoffset : f.slots[j].2.offset = g.slots[j].2.offset := by
        rw [hf.offset_eq, hg.offset_eq, hsizes]
      exact Prod.ext hname (slot_eq hoffset hsize)
  have hlast : (f.lastOffset, f.lastSize) = (g.lastOffset, g.lastSize) := by
    rw [hf.last_eq, hg.last_eq, hslots]
  exact ⟨hslots, (Prod.mk.inj hlast).1, (Prod.mk.inj hlast).2⟩

/-- `g` is `f` when it is finished: slots of the same sizes that fill the bytes above the save area, each
above those behind it. -/
structure Tiled (f g : Frame) : Prop where
  names_eq : g.names = f.names
  sizes_eq : g.sizes = f.sizes
  offset_eq : ∀ j (hj : j < g.slots.length), g.slots[j].2.offset =
    saveArea + wordSize + f.sizes.sum - (f.sizes.take (j + 1)).sum
  filled : ∀ b, (∃ p ∈ g.slots, p.2.offset ≤ b ∧ b < p.2.offset + p.2.size) ↔
    saveArea + wordSize ≤ b ∧ b < saveArea + wordSize + f.sizes.sum
  disjoint : g.slots.Pairwise fun p q => q.2.offset + q.2.size ≤ p.2.offset
  aligned : ∀ p ∈ g.slots, 4 ∣ p.2.offset
  finished_eq : g.finished = true
  again : g.finish = .ok g

theorem tiled_finishedLayout (l : Layout) (args : List String) :
    Tiled (ofLayout l args) (finishedLayout l args) where
  names_eq := by rw [names, names, finishedLayout, ofLayout, map_fst_placed, map_fst_packed]
  sizes_eq := by rw [sizes, sizes, finishedLayout, ofLayout, sizes_placed, sizes_packed]
  offset_eq j hj := by
    have hsizes : (ofLayout l args).sizes = (placed l).map fun p => p.2.size := by
      rw [sizes, ofLayout, sizes_packed, sizes_placed]
    rw [sum_sizes_ofLayout, hsizes]
    exact offset_placed l j hj
  filled b := by
    rw [sum_sizes_ofLayout]
    exact exists_mem_placed_iff
  disjoint := pairwise_placed l
  aligned p hp := aligned_of_mem_placed hp
  finished_eq := rfl
  again := rfl

/-- What a call makes of a frame and of the requests that were granted so far. -/
def Call.next (p : Frame × Requests) (c : Call) : Frame × Requests :=
  match c.perform.run p.1 with
  | .ok _ g => (g, p.2 ++ [c.request])
  | .error _ g => (g, p.2)

/-- Calls one after the other on a new frame. -/
def performAll (cs : List Call) : Frame × Requests := cs.foldl Call.next (empty, [])

theorem performAll_concat (cs : List Call) (c : Call) :
    performAll (cs ++ [c]) = Call.next (performAll cs) c := by
  rw [performAll, performAll, List.foldl_append]
  rfl

/-- A frame is the picture of what was granted. -/
def Drawn (p : Frame × Requests) : Prop :=
  Valid (requestAll p.2 []) ∧ ∃ args, p.1 = ofLayout (requestAll p.2 []) args

theorem Drawn.next {p : Frame × Requests} {c : Call} (h : Drawn p) (hc : c.Positive) :
    Drawn (Call.next p c) := by
  obtain ⟨f, rs⟩ := p
  obtain ⟨hv, args, hf⟩ := h
  dsimp only at hv hf
  subst hf
  rw [Call.next]
  dsimp only
  rw [Call.perform_ofLayout hv, Call.run_ofLayout hv]
  by_cases hsmall : bytes (Layout.request c.request.1 c.request.2 (requestAll rs [])) ≤ maxFrameSize
  · have hrs : requestAll (rs ++ [c.request]) [] =
        Layout.request c.request.1 c.request.2 (requestAll rs []) := requestAll_append rs _ _
    rw [if_pos hsmall, Drawn, Update.ending]
    dsimp only
    rw [hrs]
    exact ⟨hv.request hc hsmall, args ++ c.params, rfl⟩
  · rw [if_neg hsmall]
    exact ⟨hv, args, rfl⟩

theorem drawn_performAll {cs : List Call} (hcs : ∀ c ∈ cs, c.Positive) : Drawn (performAll cs) := by
  induction cs using List.reverseRecOn with
  | nil => exact ⟨Valid.nil, [], rfl⟩
  | append_singleton cs c ih =>
    rw [performAll_concat]
    exact (ih fun d hd => hcs d (List.mem_append_left _ hd)).next (hcs c (by simp))

/-- The frame and the requests of a list of calls fit together. -/
theorem Drawn.canonical {p : Frame × Requests} (h : Drawn p) : Canonical p.2 p.1 := by
  obtain ⟨hv, args, hf⟩ := h
  rw [hf]
  exact canonical_ofLayout hv args

theorem Drawn.exists_tiled {p : Frame × Requests} (h : Drawn p) :
    ∃ g, p.1.finish = .ok g ∧ Tiled p.1 g := by
  obtain ⟨hv, args, hf⟩ := h
  rw [hf]
  exact ⟨_, finish_ofLayout hv, tiled_finishedLayout _ args⟩

/-- A call in place ends as the call does, and it does not overflow. -/
theorem Drawn.perform {p : Frame × Requests} (h : Drawn p) (c : Call) :
    c.perform.run p.1 = Update.ending p.1 (c.run p.1) ∧ ∀ op, c.run p.1 ≠ .error (.overflow op) := by
  obtain ⟨hv, args, hf⟩ := h
  rw [hf]
  refine ⟨Call.perform_ofLayout hv, fun op => ?_⟩
  rw [Call.run_ofLayout hv]
  split_ifs <;> exact nofun

/-- Whatever calls for at least one word are made on a new frame, and whichever of them fail, nothing
overflows, and the requests that were granted decide the layout: the order of their names, and the most
words for each name. Finishing succeeds and fills the frame. -/
theorem canonical_performAll {cs : List Call} (hcs : ∀ c ∈ cs, c.Positive) :
    (∀ ds c es, cs = ds ++ c :: es →
      c.perform.run (performAll ds).1 = Update.ending (performAll ds).1 (c.run (performAll ds).1) ∧
        ∀ op, c.run (performAll ds).1 ≠ .error (.overflow op)) ∧
    Canonical (performAll cs).2 (performAll cs).1 ∧
    (∀ ds : List Call, (∀ d ∈ ds, d.Positive) →
      ((performAll cs).2.map Prod.fst).eraseDups = ((performAll ds).2.map Prod.fst).eraseDups →
      (∀ x, (performAll cs).2.largest x = (performAll ds).2.largest x) →
      (performAll cs).1.slots = (performAll ds).1.slots ∧
        (performAll cs).1.lastOffset = (performAll ds).1.lastOffset ∧
        (performAll cs).1.lastSize = (performAll ds).1.lastSize) ∧
    ∃ g, (performAll cs).1.finish = .ok g ∧ Tiled (performAll cs).1 g := by
  have hdrawn := drawn_performAll hcs
  refine ⟨?_, hdrawn.canonical, fun ds hds horder hlargest => ?_, hdrawn.exists_tiled⟩
  · rintro ds c es rfl
    have hds : Drawn (performAll ds) :=
      drawn_performAll fun d hd => hcs d (List.mem_append_left _ hd)
    exact hds.perform c
  · exact hdrawn.canonical.congr (drawn_performAll hds).canonical horder hlargest

/-- Of four calls the third is refused, and the last one makes the first slot grow. -/
theorem canonical_performAll_widen :
    ∃ f, performAll [.insert "xs" 2, .insertArg "x", .insert "ys" 536870911, .insert "xs" 3] =
        (f, [("xs", 2), ("x", 1), ("xs", 3)]) ∧
      f.slots = [("xs", ⟨0, 12⟩), ("x", ⟨12, 4⟩)] ∧
      Canonical [("xs", 2), ("x", 1), ("xs", 3)] f ∧ ∃ g, f.finish = .ok g ∧ Tiled f g := by
  have h := canonical_performAll
    (show ∀ c ∈ [.insert "xs" 2, .insertArg "x", .insert "ys" 536870911, .insert "xs" 3],
      Call.Positive c by decide)
  have hall : performAll [.insert "xs" 2, .insertArg "x", .insert "ys" 536870911, .insert "xs" 3] =
      (⟨[("xs", ⟨0, 12⟩), ("x", ⟨12, 4⟩)], ["x"], 12, 4, false⟩,
        [("xs", 2), ("x", 1), ("xs", 3)]) := by decide
  rw [hall] at h
  exact ⟨_, hall, rfl, h.2.1, h.2.2.2⟩

end Frame

end ProcMips
