import Mathlib.Algebra.GroupWithZero.Nat
import Mathlib.Data.List.Nodup
import Mathlib.Algebra.Order.BigOperators.Group.List
import ProcMips.Proofs.Sequencing

/-! The layout that a frame has: names in the order in which they were first asked for, each with the
most words that it was asked to have. While every request is for at least one word, a frame is the
picture of its layout, and a request succeeds exactly if the layout stays within the largest frame. -/

namespace ProcMips

theorem lookup_eq_none_iff_not_mem {α : Type} {l : List (String × α)} {x : String} :
    l.lookup x = none ↔ x ∉ l.map Prod.fst := by
  simp only [List.lookup_eq_none_iff, bne_iff_ne, ne_eq, List.mem_map, not_exists, not_and]
  exact ⟨fun h p hp e => h p hp e.symm, fun h p hp e => h p hp e.symm⟩

/-- Names with their words. -/
abbrev Layout := List (String × Nat)

namespace Layout

def names (l : Layout) : List String := l.map Prod.fst

def words (l : Layout) : Nat := (l.map Prod.snd).sum

def bytes (l : Layout) : Int := wordSize * l.words

/-- The layout after `n` words are asked for in the name of `x`. -/
def request (x : String) (n : Nat) : Layout → Layout
  | [] => [(x, n)]
  | (y, k) :: l => if y = x then (y, max k n) :: l else (y, k) :: request x n l

/-- Slots one behind the other, from the position `start`. -/
def packed (start : Int) : Layout → List (String × Slot)
  | [] => []
  | (x, k) :: l => (x, ⟨start, wordSize * k⟩) :: packed (start + wordSize * k) l

/-- Each name once, each with storage, and all within the largest frame. -/
structure Valid (l : Layout) : Prop where
  nodup : (names l).Nodup
  pos : ∀ p ∈ l, 0 < p.2
  small : bytes l ≤ maxFrameSize

@[simp] theorem names_nil : names [] = [] := rfl

@[simp] theorem names_cons (x : String) (k : Nat) (l : Layout) :
    names ((x, k) :: l) = x :: names l := rfl

@[simp] theorem names_append (l m : Layout) : names (l ++ m) = names l ++ names m :=
  List.map_append

@[simp] theorem bytes_nil : bytes [] = 0 := rfl

@[simp] theorem bytes_cons (x : String) (k : Nat) (l : Layout) :
    bytes ((x, k) :: l) = wordSize * k + bytes l := by
  simp [bytes, words, Int.mul_add]

@[simp] theorem bytes_append (l m : Layout) : bytes (l ++ m) = bytes l + bytes m := by
  simp [bytes, words, Int.mul_add]

theorem bytes_nonneg (l : Layout) : 0 ≤ bytes l := by
  unfold bytes wordSize; omega

theorem packed_append (start : Int) (l m : Layout) :
    packed start (l ++ m) = packed start l ++ packed (start + bytes l) m := by
  induction l generalizing start with
  | nil => simp [packed]
  | cons p l ih =>
    obtain ⟨x, k⟩ := p
    simp [packed, ih, Int.add_assoc]

/-- A slot lies between the start and the end of the slots it is among. -/
theorem bounds_of_mem_packed {start : Int} {l : Layout} {p : String × Slot}
    (h : p ∈ packed start l) : start ≤ p.2.offset ∧ p.2.offset + p.2.size ≤ start + bytes l := by
  induction l generalizing start with
  | nil => simp [packed] at h
  | cons q l ih =>
    obtain ⟨x, k⟩ := q
    have hw : (0 : Int) ≤ wordSize * k := by unfold wordSize; omega
    have hl := bytes_nonneg l
    rw [bytes_cons]
    rcases List.mem_cons.1 h with rfl | h
    · constructor <;> dsimp only <;> omega
    · have := ih h
      omega

theorem size_of_mem_packed {start : Int} {l : Layout} (hpos : ∀ p ∈ l, 0 < p.2)
    {p : String × Slot} (h : p ∈ packed start l) : wordSize ≤ p.2.size := by
  induction l generalizing start with
  | nil => simp [packed] at h
  | cons q l ih =>
    obtain ⟨x, k⟩ := q
    rcases List.mem_cons.1 h with rfl | h
    · have hk : 0 < k := hpos (x, k) (by simp)
      unfold wordSize; dsimp only; omega
    · exact ih (fun q hq => hpos q (List.mem_cons_of_mem _ hq)) h

theorem map_fst_packed (start : Int) (l : Layout) : (packed start l).map Prod.fst = names l := by
  induction l generalizing start with
  | nil => rfl
  | cons p l ih =>
    obtain ⟨x, k⟩ := p
    simp [packed, ih]

theorem lookup_packed {l m : Layout} {x : String} {k : Nat} {start : Int} (hx : x ∉ names l) :
    (packed start (l ++ (x, k) :: m)).lookup x = some ⟨start + bytes l, wordSize * k⟩ := by
  induction l generalizing start with
  | nil => simp [packed]
  | cons p l ih =>
    obtain ⟨y, j⟩ := p
    have hxy : x ≠ y := fun h => hx (by simp [h])
    have hxl : x ∉ names l := fun h => hx (List.mem_cons_of_mem _ h)
    have hbeq : (x == y) = false := beq_eq_false_iff_ne.2 hxy
    simp [packed, List.lookup_cons, hbeq, ih hxl, Int.add_assoc]

theorem lookup_packed_eq_none {l : Layout} {x : String} {start : Int} :
    (packed start l).lookup x = none ↔ x ∉ names l := by
  rw [lookup_eq_none_iff_not_mem, map_fst_packed]

theorem request_of_not_mem {l : Layout} {x : String} {n : Nat} (hx : x ∉ names l) :
    request x n l = l ++ [(x, n)] := by
  induction l with
  | nil => rfl
  | cons p l ih =>
    obtain ⟨y, k⟩ := p
    have hyx : y ≠ x := fun h => hx (by simp [h])
    have hxl : x ∉ names l := fun h => hx (List.mem_cons_of_mem _ h)
    simp [request, hyx, ih hxl]

theorem request_of_split {l m : Layout} {x : String} {k n : Nat} (hx : x ∉ names l) :
    request x n (l ++ (x, k) :: m) = l ++ (x, max k n) :: m := by
  induction l with
  | nil => simp [request]
  | cons p l ih =>
    obtain ⟨y, j⟩ := p
    have hyx : y ≠ x := fun h => hx (by simp [h])
    have hxl : x ∉ names l := fun h => hx (List.mem_cons_of_mem _ h)
    simp [request, hyx, ih hxl]

/-- A name that is laid out splits the layout at its first place. -/
theorem exists_split {l : Layout} {x : String} (hx : x ∈ names l) :
    ∃ l₁ k l₂, l = l₁ ++ (x, k) :: l₂ ∧ x ∉ names l₁ := by
  induction l with
  | nil => simp at hx
  | cons p l ih =>
    obtain ⟨y, j⟩ := p
    by_cases h : y = x
    · exact ⟨[], j, l, by simp [h], by simp⟩
    · have hxl : x ∈ names l := by
        rcases List.mem_cons.1 hx with rfl | hx
        · exact absurd rfl h
        · exact hx
      obtain ⟨l₁, k, l₂, rfl, hx₁⟩ := ih hxl
      refine ⟨(y, j) :: l₁, k, l₂, rfl, ?_⟩
      rw [names_cons, List.mem_cons, not_or]
      exact ⟨Ne.symm h, hx₁⟩

theorem mem_names_request {l : Layout} {x y : String} {n : Nat} :
    y ∈ names (request x n l) ↔ y = x ∨ y ∈ names l := by
  by_cases hx : x ∈ names l
  · obtain ⟨l₁, k, l₂, rfl, hx₁⟩ := exists_split hx
    rw [request_of_split hx₁]
    simp only [names_append, names_cons, List.mem_append, List.mem_cons]
    tauto
  · rw [request_of_not_mem hx]
    simp only [names_append, names_cons, names_nil, List.mem_append, List.mem_singleton]
    tauto

theorem bytes_le_bytes_request (l : Layout) (x : String) (n : Nat) :
    bytes l ≤ bytes (request x n l) := by
  by_cases hx : x ∈ names l
  · obtain ⟨l₁, k, l₂, rfl, hx₁⟩ := exists_split hx
    rw [request_of_split hx₁]
    simp only [bytes_append, bytes_cons, wordSize]
    omega
  · rw [request_of_not_mem hx]
    simp only [bytes_append, bytes_cons, bytes_nil, wordSize]
    omega

theorem le_bytes_request (l : Layout) (x : String) (n : Nat) :
    wordSize * n ≤ bytes (request x n l) := by
  by_cases hx : x ∈ names l
  · obtain ⟨l₁, k, l₂, rfl, hx₁⟩ := exists_split hx
    have h₁ := bytes_nonneg l₁
    have h₂ := bytes_nonneg l₂
    rw [request_of_split hx₁]
    simp only [bytes_append, bytes_cons, wordSize]
    omega
  · have hl := bytes_nonneg l
    rw [request_of_not_mem hx]
    simp only [bytes_append, bytes_cons, bytes_nil]
    omega

theorem nodup_request {x : String} {n : Nat} {l : Layout} (h : (names l).Nodup) :
    (names (request x n l)).Nodup := by
  by_cases hx : x ∈ names l
  · obtain ⟨l₁, k, l₂, rfl, hx₁⟩ := exists_split hx
    rw [request_of_split hx₁]
    simpa using h
  · rw [request_of_not_mem hx, names_append, names_cons, names_nil]
    exact List.nodup_append'.2 ⟨h, List.nodup_singleton x, by simpa using hx⟩

theorem Valid.nil : Valid [] := ⟨by simp, by simp, by decide⟩

theorem Valid.request {l : Layout} {x : String} {n : Nat} (h : Valid l) (hn : 0 < n)
    (hsmall : bytes (request x n l) ≤ maxFrameSize) : Valid (request x n l) := by
  refine ⟨nodup_request h.nodup, fun p hp => ?_, hsmall⟩
  by_cases hx : x ∈ names l
  · obtain ⟨l₁, k, l₂, rfl, hx₁⟩ := exists_split hx
    rw [request_of_split hx₁] at hp
    rcases List.mem_append.1 hp with hp | hp
    · exact h.pos p (List.mem_append_left _ hp)
    · rcases List.mem_cons.1 hp with rfl | hp
      · dsimp only; omega
      · exact h.pos p (by simp [hp])
  · rw [request_of_not_mem hx] at hp
    rcases List.mem_append.1 hp with hp | hp
    · exact h.pos p hp
    · rw [List.mem_singleton.1 hp]
      exact hn

end Layout

end ProcMips
