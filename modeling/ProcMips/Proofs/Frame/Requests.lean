import Mathlib.Data.List.Dedup
import Mathlib.Data.List.Induction
import ProcMips.Proofs.Frame.Finishing

/-! Sequences of requests. What they lay out depends only on the most words that each name is asked
to have, and they succeed on a frame exactly if those words fit together. -/

namespace ProcMips

/-- Names with the words that are asked for them, in the order of asking. -/
abbrev Requests := List (String × Nat)

namespace Requests

/-- The most words that are asked for `x`. -/
def largest (x : String) (rs : Requests) : Nat :=
  ((rs.filter (·.1 = x)).map Prod.snd).foldr max 0

/-- Four bytes for each word, the largest request of each name counted once. -/
def bytes (rs : Requests) : Nat :=
  ((rs.map Prod.fst).dedup.map fun x => 4 * largest x rs).sum

theorem largest_concat (x y : String) (n : Nat) (rs : Requests) :
    largest x (rs ++ [(y, n)]) = if y = x then max (largest x rs) n else largest x rs := by
  have hfold (ns : List Nat) : (ns ++ [n]).foldr max 0 = max (ns.foldr max 0) n := by
    induction ns with
    | nil => simp
    | cons m ns ih => simp only [List.cons_append, List.foldr_cons, ih, Nat.max_assoc]
  by_cases h : y = x
  · simp [largest, h, List.filter_append, hfold]
  · simp [largest, h, List.filter_append]

end Requests

namespace Layout

/-- The layout after all the requests. -/
def requestAll (rs : Requests) (l : Layout) : Layout :=
  rs.foldl (fun l r => request r.1 r.2 l) l

/-- The words of a name, none if it is not laid out. -/
def wordsOf (x : String) (l : Layout) : Nat := (l.lookup x).getD 0

@[simp] theorem requestAll_nil (l : Layout) : requestAll [] l = l := rfl

@[simp] theorem requestAll_cons (x : String) (n : Nat) (rs : Requests) (l : Layout) :
    requestAll ((x, n) :: rs) l = requestAll rs (request x n l) := rfl

theorem requestAll_append (rs ts : Requests) (l : Layout) :
    requestAll (rs ++ ts) l = requestAll ts (requestAll rs l) := List.foldl_append

theorem wordsOf_request (x y : String) (n : Nat) (l : Layout) :
    wordsOf x (request y n l) = if y = x then max (wordsOf x l) n else wordsOf x l := by
  induction l with
  | nil =>
    by_cases h : y = x
    · simp [request, wordsOf, h]
    · have hbeq : (x == y) = false := beq_eq_false_iff_ne.2 (Ne.symm h)
      simp [request, wordsOf, List.lookup_cons, h, hbeq]
  | cons p l ih =>
    obtain ⟨z, k⟩ := p
    unfold wordsOf at ih ⊢
    by_cases hzy : z = y
    · by_cases hxz : x = z
      · subst hzy hxz
        simp [request]
      · have hbeq : (x == z) = false := beq_eq_false_iff_ne.2 hxz
        subst hzy
        simp [request, List.lookup_cons, hbeq, Ne.symm hxz]
    · by_cases hxz : x = z
      · subst hxz
        simp [request, hzy, Ne.symm hzy]
      · have hbeq : (x == z) = false := beq_eq_false_iff_ne.2 hxz
        simp only [request, if_neg hzy, List.lookup_cons, hbeq]
        exact ih

theorem wordsOf_requestAll (x : String) (rs : Requests) :
    wordsOf x (requestAll rs []) = rs.largest x := by
  induction rs using List.reverseRecOn with
  | nil => rfl
  | append_singleton rs r ih =>
    obtain ⟨y, n⟩ := r
    rw [requestAll_append, requestAll_cons, requestAll_nil, wordsOf_request, ih,
      Requests.largest_concat]

theorem mem_names_requestAll {x : String} {rs : Requests} {l : Layout} :
    x ∈ names (requestAll rs l) ↔ x ∈ rs.map Prod.fst ∨ x ∈ names l := by
  induction rs generalizing l with
  | nil => simp
  | cons r rs ih =>
    obtain ⟨y, n⟩ := r
    rw [requestAll_cons, ih, mem_names_request, List.map_cons, List.mem_cons]
    tauto

theorem nodup_requestAll {rs : Requests} {l : Layout} (h : (names l).Nodup) :
    (names (requestAll rs l)).Nodup := by
  induction rs generalizing l with
  | nil => exact h
  | cons r rs ih => exact ih (nodup_request h)

theorem map_wordsOf_names {l : Layout} (h : (names l).Nodup) :
    ((names l).map fun x => wordsOf x l) = l.map Prod.snd := by
  induction l with
  | nil => rfl
  | cons p l ih =>
    obtain ⟨x, k⟩ := p
    rw [names_cons, List.nodup_cons] at h
    have hrest : (names l).map (fun y => wordsOf y ((x, k) :: l)) =
        (names l).map fun y => wordsOf y l := by
      refine List.map_congr_left fun y hy => ?_
      have hyx : (y == x) = false := beq_eq_false_iff_ne.2 fun e => h.1 (e ▸ hy)
      simp [wordsOf, List.lookup_cons, hyx]
    have hx : wordsOf x ((x, k) :: l) = k := by simp [wordsOf]
    rw [names_cons, List.map_cons, hrest, hx, ih h.2, List.map_cons]

theorem words_eq_sum_wordsOf {l : Layout} (h : (names l).Nodup) :
    words l = ((names l).map fun x => wordsOf x l).sum := by
  rw [map_wordsOf_names h, words]

/-- The bytes of a layout, by what was asked for. -/
theorem bytes_requestAll (rs : Requests) : bytes (requestAll rs []) = rs.bytes := by
  have hnodup : (names (requestAll rs [])).Nodup := nodup_requestAll (by simp)
  have hperm : (names (requestAll rs [])).Perm (rs.map Prod.fst).dedup := by
    refine (List.perm_ext_iff_of_nodup hnodup (List.nodup_dedup _)).2 fun x => ?_
    rw [mem_names_requestAll, List.mem_dedup]
    simp
  have hwords : words (requestAll rs []) =
      ((rs.map Prod.fst).dedup.map fun x => rs.largest x).sum := by
    rw [words_eq_sum_wordsOf hnodup]
    simp only [wordsOf_requestAll]
    exact (hperm.map _).sum_eq
  have hfour : rs.bytes = 4 * words (requestAll rs []) := by
    rw [hwords, Requests.bytes]
    induction (rs.map Prod.fst).dedup with
    | nil => rfl
    | cons x xs ih => simp only [List.map_cons, List.sum_cons, ih, Nat.mul_add]
  rw [bytes, hfour, wordSize]
  push_cast
  rfl

theorem bytes_le_bytes_requestAll (rs : Requests) (l : Layout) :
    bytes l ≤ bytes (requestAll rs l) := by
  induction rs generalizing l with
  | nil => exact le_rfl
  | cons r rs ih => exact (bytes_le_bytes_request l r.1 r.2).trans (ih _)

theorem Valid.requestAll {rs : Requests} {l : Layout} (h : Valid l) (hpos : ∀ r ∈ rs, 0 < r.2)
    (hsmall : bytes (requestAll rs l) ≤ maxFrameSize) : Valid (requestAll rs l) := by
  induction rs generalizing l with
  | nil => exact h
  | cons r rs ih =>
    have hle := bytes_le_bytes_requestAll rs (Layout.request r.1 r.2 l)
    exact ih (h.request (hpos r List.mem_cons_self) (hle.trans hsmall))
      (fun q hq => hpos q (List.mem_cons_of_mem _ hq)) hsmall

/-- New names are laid out behind what there is, as they are asked for. -/
theorem requestAll_of_nodup {rs : Requests} {l : Layout} (h : (names (l ++ rs)).Nodup) :
    requestAll rs l = l ++ rs := by
  induction rs generalizing l with
  | nil => exact (List.append_nil l).symm
  | cons r rs ih =>
    obtain ⟨x, n⟩ := r
    have hx : x ∉ names l := by
      rw [names_append] at h
      exact fun hx => List.disjoint_of_nodup_append h hx List.mem_cons_self
    rw [List.append_cons] at h ⊢
    rw [requestAll_cons, request_of_not_mem hx, ih h]

/-- A layout that nothing in `ts` asks for stays in front of what `ts` asks for. -/
theorem exists_requestAll_eq_append {ts : Requests} {l m : Layout}
    (h : ∀ r ∈ ts, r.1 ∉ names l) : ∃ m', requestAll ts (l ++ m) = l ++ m' := by
  induction ts generalizing m with
  | nil => exact ⟨m, rfl⟩
  | cons t ts ih =>
    obtain ⟨x, n⟩ := t
    have hx : x ∉ names l := h (x, n) (by simp)
    have ih := fun m => ih (m := m) fun r hr => h r (List.mem_cons_of_mem _ hr)
    rw [requestAll_cons]
    by_cases hm : x ∈ names m
    · obtain ⟨m₁, k, m₂, rfl, hx₁⟩ := exists_split hm
      rw [← List.append_assoc, request_of_split (by simp [hx, hx₁]), List.append_assoc]
      exact ih _
    · rw [request_of_not_mem (by simp [hx, hm]), List.append_assoc]
      exact ih _

end Layout

namespace Frame

open Layout

/-- Makes all the requests. -/
def insertAll (f : Frame) (rs : Requests) : Except Refusal Frame :=
  rs.foldlM (fun f r => f.insert r.1 r.2) f

theorem insertAll_nil (f : Frame) : f.insertAll [] = .ok f := rfl

theorem insertAll_cons (f : Frame) (x : String) (n : Nat) (rs : Requests) :
    f.insertAll ((x, n) :: rs) = (f.insert x n >>= fun g => g.insertAll rs) := rfl

theorem insertAll_singleton (f : Frame) (x : String) (n : Nat) :
    f.insertAll [(x, n)] = f.insert x n := by
  rw [insertAll_cons]
  cases f.insert x n <;> rfl

theorem insertAll_append (f : Frame) (rs ts : Requests) :
    f.insertAll (rs ++ ts) = (f.insertAll rs >>= fun g => g.insertAll ts) := List.foldlM_append

theorem insertAll_ofLayout {l : Layout} {args : List String} {rs : Requests} {g : Frame}
    (hv : Valid l) (hpos : ∀ r ∈ rs, 0 < r.2) :
    (ofLayout l args).insertAll rs = .ok g ↔
      bytes (requestAll rs l) ≤ maxFrameSize ∧ g = ofLayout (requestAll rs l) args := by
  induction rs generalizing l with
  | nil =>
    rw [insertAll_nil, requestAll_nil, Except.ok.injEq]
    exact ⟨fun h => ⟨hv.small, h.symm⟩, fun h => h.2.symm⟩
  | cons r rs ih =>
    obtain ⟨x, n⟩ := r
    have hn : 0 < n := hpos (x, n) (by simp)
    rw [insertAll_cons, requestAll_cons, insert_ofLayout hv]
    by_cases hsmall : bytes (request x n l) ≤ maxFrameSize
    · rw [if_pos hsmall]
      exact ih (hv.request hn hsmall) fun r hr => hpos r (List.mem_cons_of_mem _ hr)
    · rw [if_neg hsmall]
      have := bytes_le_bytes_requestAll rs (request x n l)
      simp only [bind, Except.bind, reduceCtorEq, false_iff, not_and]
      intro h
      omega

/-- Makes room for parameters, one word each. -/
def insertArgs (f : Frame) (xs : List String) : Except Refusal Frame :=
  xs.foldlM (fun f x => f.insertArg x) f

theorem insertArgs_nil (f : Frame) : f.insertArgs [] = .ok f := rfl

theorem insertArgs_cons (f : Frame) (x : String) (xs : List String) :
    f.insertArgs (x :: xs) = (f.insertArg x >>= fun g => g.insertArgs xs) := rfl

theorem insertArgs_ofLayout {l : Layout} {args xs : List String} {g : Frame} (hv : Valid l) :
    (ofLayout l args).insertArgs xs = .ok g ↔
      bytes (requestAll (xs.map (·, 1)) l) ≤ maxFrameSize ∧
        g = ofLayout (requestAll (xs.map (·, 1)) l) (args ++ xs) := by
  induction xs generalizing l args with
  | nil =>
    rw [insertArgs_nil, List.map_nil, requestAll_nil, List.append_nil, Except.ok.injEq]
    exact ⟨fun h => ⟨hv.small, h.symm⟩, fun h => h.2.symm⟩
  | cons x xs ih =>
    rw [insertArgs_cons, List.map_cons, requestAll_cons, insertArg, insert_ofLayout hv]
    by_cases hsmall : bytes (request x 1 l) ≤ maxFrameSize
    · rw [if_pos hsmall, List.append_cons]
      exact ih (hv.request (by decide) hsmall)
    · rw [if_neg hsmall]
      have := bytes_le_bytes_requestAll (xs.map (·, 1)) (request x 1 l)
      simp only [bind, Except.bind, reduceCtorEq, false_iff, not_and]
      intro h
      omega

end Frame

end ProcMips
