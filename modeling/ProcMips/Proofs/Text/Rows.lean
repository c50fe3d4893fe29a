import Mathlib.Data.List.Basic
import ProcMips.Text.Lines
import ProcMips.Token.Lexer

/-! Texts that are put together from parts, and the parts read off them again: the lines of a text, the
words between separators, the digits of a number, the parts of a name. -/

namespace ProcMips

/-- The lines of a text, each ended by a newline. -/
def rows (text : String) : List String := (text.toList.splitOn '\n').dropLast.map String.ofList

@[simp] theorem unlines_nil : unlines [] = "" := rfl

theorem unlines_cons (l : String) (ls : List String) : unlines (l :: ls) = l ++ "\n" ++ unlines ls := by
  rw [unlines, List.map_cons, String.join_cons, unlines]

theorem unlines_append (ls ls' : List String) : unlines (ls ++ ls') = unlines ls ++ unlines ls' := by
  induction ls with
  | nil => exact String.empty_append.symm
  | cons l ls ih => rw [List.cons_append, unlines_cons, unlines_cons, ih, ← String.append_assoc]

/-- Lines without a newline in them are the lines of what they are put together to. -/
theorem rows_unlines {ls : List String} (h : ∀ l ∈ ls, '\n' ∉ l.toList) : rows (unlines ls) = ls := by
  induction ls with
  | nil => rfl
  | cons l ls ih =>
    rw [List.forall_mem_cons] at h
    have htext : (unlines (l :: ls)).toList = l.toList ++ '\n' :: (unlines ls).toList := by
      rw [unlines_cons, String.toList_append, String.toList_append, List.append_assoc]
      rfl
    rw [rows, htext, List.splitOn_append_cons_self_of_not_mem h.1,
      List.dropLast_cons_of_ne_nil (List.splitOn_ne_nil _ _), List.map_cons, String.ofList_toList]
    exact congrArg (l :: ·) (ih h.2)

/-- A text in front of the first `c` is read off a text, and so is what stands behind it. -/
theorem append_cons_inj {c : Char} {p q r s : List Char} (hp : c ∉ p) (hq : c ∉ q) :
    p ++ c :: r = q ++ c :: s ↔ p = q ∧ r = s := by
  constructor
  · intro h
    have hsplit := congrArg (List.splitOn c) h
    rw [List.splitOn_append_cons_self_of_not_mem hp, List.splitOn_append_cons_self_of_not_mem hq] at hsplit
    obtain ⟨rfl, -⟩ := List.cons.inj hsplit
    exact ⟨rfl, (List.cons.inj (List.append_cancel_left h)).2⟩
  · intro h
    rw [h.1, h.2]

/-- Parts with separators between them, where the first character of the separator is in none of the
parts. -/
theorem intercalate_inj {c : Char} {sep : List Char} {ps qs : List (List Char)} (hp : ∀ p ∈ ps, c ∉ p)
    (hq : ∀ q ∈ qs, c ∉ q) (hps : ps ≠ []) (hqs : qs ≠ [])
    (h : (c :: sep).intercalate ps = (c :: sep).intercalate qs) : ps = qs := by
  induction ps generalizing qs with
  | nil => exact absurd rfl hps
  | cons p ps ih =>
    rcases qs with _ | ⟨q, qs⟩
    · exact absurd rfl hqs
    rw [List.forall_mem_cons] at hp hq
    rcases ps with _ | ⟨p', ps⟩ <;> rcases qs with _ | ⟨q', qs⟩
    · simpa using h
    · -- The one text has a separator and the other one has none.
      rw [List.intercalate_singleton, List.intercalate_cons_cons] at h
      exact absurd (h ▸ by simp) hp.1
    · rw [List.intercalate_singleton, List.intercalate_cons_cons] at h
      exact absurd (h ▸ by simp) hq.1
    · rw [List.intercalate_cons_cons, List.intercalate_cons_cons, List.append_assoc, List.append_assoc,
        List.cons_append, List.cons_append, append_cons_inj hp.1 hq.1] at h
      obtain ⟨rfl, hrest⟩ := h
      rw [ih hp.2 hq.2 nofun nofun (List.append_cancel_left hrest)]

theorem join_inj {sep : String} {c : Char} {ps qs : List String} (hsep : sep.toList.head? = some c)
    (hp : ∀ p ∈ ps, c ∉ p.toList) (hq : ∀ q ∈ qs, c ∉ q.toList) (hps : ps ≠ []) (hqs : qs ≠ [])
    (h : sep.intercalate ps = sep.intercalate qs) : ps = qs := by
  obtain ⟨s, hs⟩ := List.head?_eq_some_iff.1 hsep
  have hlist := congrArg String.toList h
  rw [String.toList_intercalate, String.toList_intercalate, hs] at hlist
  apply List.map_injective_iff.2 fun _ _ => String.toList_inj.1
  apply intercalate_inj _ _ (by simpa using hps) (by simpa using hqs) hlist
  · intro w hw
    obtain ⟨p, hpm, rfl⟩ := List.mem_map.1 hw
    exact hp p hpm
  · intro w hw
    obtain ⟨q, hqm, rfl⟩ := List.mem_map.1 hw
    exact hq q hqm

theorem mem_of_mem_intercalate {sep : String} {ps : List String} {c : Char}
    (h : c ∈ (sep.intercalate ps).toList) : c ∈ sep.toList ∨ ∃ p ∈ ps, c ∈ p.toList := by
  induction ps with
  | nil => cases h
  | cons p ps ih =>
    rcases ps with _ | ⟨q, ps⟩
    · rw [String.intercalate_singleton] at h
      exact .inr ⟨p, List.mem_cons_self, h⟩
    rw [String.intercalate_cons_cons, String.toList_append, String.toList_append, List.mem_append,
      List.mem_append] at h
    rcases h with (h | h) | h
    · exact .inr ⟨p, List.mem_cons_self, h⟩
    · exact .inl h
    · exact (ih h).imp_right fun ⟨r, hr, hc⟩ => ⟨r, List.mem_cons_of_mem _ hr, hc⟩

/-- A function that tells the members of two lists apart tells the lists apart. -/
theorem eq_of_map_eq {α β : Type} {f : α → β} {as bs : List α} (h : as.map f = bs.map f)
    (hf : ∀ a ∈ as, ∀ b ∈ bs, f a = f b → a = b) : as = bs := by
  induction as generalizing bs with
  | nil => exact (List.map_eq_nil_iff.1 h.symm).symm
  | cons a as ih =>
    rcases bs with _ | ⟨b, bs⟩
    · cases h
    obtain ⟨hab, hrest⟩ := List.cons.inj h
    rw [hf a List.mem_cons_self b List.mem_cons_self hab,
      ih hrest fun a' ha b' hb => hf a' (List.mem_cons_of_mem _ ha) b' (List.mem_cons_of_mem _ hb)]

theorem isDigit_of_mem_nat {n : Nat} {c : Char} (h : c ∈ (toString n).toList) : c.isDigit = true :=
  Nat.isDigit_of_mem_toDigits (by decide) (by decide) (Nat.toList_repr ▸ h)

theorem toList_toString_int_ne_nil {n : Int} : (toString n).toList ≠ [] := by
  intro h
  rw [Int.toString_eq_repr, Int.repr_eq_if] at h
  split at h
  · exact Nat.toDigits_ne_nil (Nat.toList_repr ▸ h)
  · simp at h

theorem isDigit_or_eq_of_mem_int {n : Int} {c : Char} (h : c ∈ (toString n).toList) :
    c.isDigit = true ∨ c = '-' := by
  rw [Int.toString_eq_repr, Int.repr_eq_if] at h
  split at h
  · exact .inl (isDigit_of_mem_nat h)
  · rw [String.toList_append, List.mem_append] at h
    rcases h with h | h
    · exact .inr (by simpa using h)
    · exact .inl (isDigit_of_mem_nat h)

/-- A word has no other characters in it. -/
theorem notMem_of_isWordChar {x : String} {c : Char} (h : ∀ d ∈ x.toList, isWordChar d = true)
    (hc : isWordChar c = false) : c ∉ x.toList := by
  intro hmem
  rw [h c hmem] at hc
  cases hc

end ProcMips
