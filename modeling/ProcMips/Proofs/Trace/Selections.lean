import Mathlib.Data.List.TakeDrop
import Mathlib.Data.List.TakeWhile
import Mathlib.Order.Interval.Set.Basic
import ProcMips.Proofs.Sequencing
import ProcMips.Trace.Selection

/-! What a written selection of lines means to the lexer and to the parser. Both trace the lines that the
written form says, but for a last bound of 0, which the parser does not tell from no bound. -/

namespace ProcMips.Selection

/-- A number as it is written: digits, a plus sign or none in front of them, and blanks around them. -/
def Numeral (cs : List Char) (n : Nat) : Prop :=
  ∃ ds, (trimBlank cs = ds ∨ trimBlank cs = '+' :: ds) ∧ ds ≠ [] ∧ (∀ c ∈ ds, c.isDigit = true) ∧
    Nat.ofDigitChars 10 ds 0 = n ∧ n ≤ greatestNumber

/-- The written forms of selections. -/
inductive Written : List Char → Selection → Prop
  | all : Written "all".toList all
  | off : Written "off".toList off
  | only {cs : List Char} {n : Nat} (h : Numeral cs n) : Written cs (only n)
  | before {cs : List Char} {n : Nat} (h : Numeral cs n) : Written ('.' :: '.' :: cs) (before n)
  | after {cs : List Char} {n : Nat} (h : Numeral cs n) : Written (cs ++ ['.', '.']) (after n)
  | between {cs ds : List Char} {n m : Nat} (h : Numeral cs n) (h' : Numeral ds m) (hle : n ≤ m) :
      Written (cs ++ ':' :: ds) (between n m)

/-- The lines that a selection is of. -/
def lines : Selection → Set Nat
  | all => Set.univ
  | off => ∅
  | only n => {n}
  | before n => Set.Iic n
  | after n => Set.Ici n
  | between n m => Set.Icc n m

/-- The last line of a selection that has one. -/
def last? : Selection → Option Nat
  | only n | before n | between _ n => some n
  | all | off | after _ => none

theorem isBlank_or_mem_trimBlank {cs : List Char} {c : Char} (h : c ∈ cs) :
    isBlank c = true ∨ c ∈ trimBlank cs := by
  have hdrop {cs : List Char} (h : c ∈ cs) : isBlank c = true ∨ c ∈ cs.dropWhile isBlank := by
    rw [← List.takeWhile_append_dropWhile (p := isBlank) (l := cs), List.mem_append] at h
    exact h.imp_left List.mem_takeWhile_imp
  rcases hdrop h with hb | hrest
  · exact .inl hb
  · rw [trimBlank, List.mem_reverse]
    exact hdrop (List.mem_reverse.2 hrest)

section Numerals

variable {cs : List Char} {n : Nat}

theorem number?_eq_some_iff : number? cs = some n ↔ Numeral cs n := by
  constructor
  · intro h
    unfold number? at h
    extract_lets ds at h
    have htrim : trimBlank cs = ds ∨ trimBlank cs = '+' :: ds := by
      unfold ds
      split
      · right
        assumption
      · left
        rfl
    by_cases hds : ds ≠ [] ∧ ds.all Char.isDigit = true
    · rw [if_pos hds] at h
      by_cases hle : Nat.ofDigitChars 10 ds 0 ≤ greatestNumber
      · rw [if_pos hle] at h
        obtain rfl := Option.some.inj h
        exact ⟨ds, htrim, hds.1, List.all_eq_true.1 hds.2, rfl, hle⟩
      · rw [if_neg hle] at h
        cases h
    · rw [if_neg hds] at h
      cases h
  · intro h
    obtain ⟨ds, htrim, hne, hdigits, rfl, hle⟩ := h
    unfold number?
    extract_lets ds' n
    have hsign : ds' = ds := by
      unfold ds'
      rcases htrim with htrim | htrim
      · rw [htrim]
        split
        · cases hdigits '+' List.mem_cons_self
        · rfl
      · rw [htrim]
        rfl
    have hn : n = Nat.ofDigitChars 10 ds 0 := congrArg (Nat.ofDigitChars 10 · 0) hsign
    have hall : ds' ≠ [] ∧ ds'.all Char.isDigit = true := by
      rw [hsign]
      exact ⟨hne, List.all_eq_true.2 hdigits⟩
    rw [if_pos hall, hn, if_pos hle]

/-- The characters of a numeral. -/
theorem Numeral.mem {c : Char} (h : Numeral cs n) (hc : c ∈ cs) :
    isBlank c = true ∨ c = '+' ∨ c.isDigit = true := by
  obtain ⟨ds, htrim, -, hdigits, -, -⟩ := h
  rcases isBlank_or_mem_trimBlank hc with hb | hmem
  · exact .inl hb
  · rcases htrim with htrim | htrim
    · rw [htrim] at hmem
      exact .inr (.inr (hdigits c hmem))
    · rw [htrim, List.mem_cons] at hmem
      exact .inr (hmem.imp_right (hdigits c))

theorem Numeral.notMem {c : Char} (h : Numeral cs n) (hb : isBlank c = false) (hp : c ≠ '+')
    (hd : c.isDigit = false) : c ∉ cs := by
  intro hc
  rcases h.mem hc with hc | hc | hc
  · rw [hb] at hc
    cases hc
  · exact hp hc
  · rw [hd] at hc
    cases hc

theorem Numeral.ne_nil (h : Numeral cs n) : cs ≠ [] := by
  intro hcs
  subst hcs
  obtain ⟨ds, htrim, hne, -⟩ := h
  rcases htrim with htrim | htrim
  · exact hne htrim.symm
  · cases htrim

end Numerals

theorem ne_colon_of_notMem {cs : List Char} (h : ':' ∉ cs) : ∀ c ∈ cs, decide (c ≠ ':') = true := by
  intro c hc
  rw [decide_eq_true_iff]
  intro heq
  exact h (heq ▸ hc)

theorem splitColon?_of_notMem {cs : List Char} (h : ':' ∉ cs) : splitColon? cs = none := by
  rw [splitColon?, List.span_eq_takeWhile_dropWhile, List.dropWhile_eq_nil_iff.2 (ne_colon_of_notMem h)]

theorem splitColon?_append {first last : List Char} (h : ':' ∉ first) :
    splitColon? (first ++ ':' :: last) = some (first, last) := by
  have hall := ne_colon_of_notMem h
  rw [splitColon?, List.span_eq_takeWhile_dropWhile, List.takeWhile_append_of_pos hall,
    List.dropWhile_append_of_pos hall]
  simp

theorem eq_append_of_splitColon? {cs first last : List Char} (h : splitColon? cs = some (first, last)) :
    cs = first ++ ':' :: last := by
  by_cases hc : ':' ∈ cs
  · obtain ⟨first', last', rfl, hfirst⟩ := List.eq_append_cons_of_mem hc
    rw [splitColon?_append hfirst] at h
    cases h
    rfl
  · rw [splitColon?_of_notMem hc] at h
    cases h

section Forms

variable {text : String} {cs ds : List Char} {n m : Nat}

theorem parse_after (htrim : trimBlank text.toList = cs ++ ['.', '.']) (h : Numeral cs n) :
    parse text = .ok (after n) := by
  unfold parse
  extract_lets line
  have hline : line cs = .ok n := by
    unfold line
    rw [number?_eq_some_iff.2 h]
  rw [htrim]
  split
  · exact absurd (congrArg List.getLast? ‹_›) (by simp)
  · exact absurd (congrArg List.getLast? ‹_›) (by simp)
  · -- The numeral does not start with a point.
    rename_i heq
    obtain ⟨c, cs, rfl⟩ := List.exists_cons_of_ne_nil h.ne_nil
    obtain ⟨rfl, -⟩ := List.cons.inj heq
    exact absurd List.mem_cons_self (h.notMem rfl (by decide) rfl)
  · split
    · rename_i rev hrev
      have hcs : cs.reverse = rev := by simpa using hrev
      rw [← hcs, List.reverse_reverse, hline]
      rfl
    · rename_i hno
      exact absurd (List.reverse_append) (hno cs.reverse)

theorem parse_only (htrim : trimBlank text.toList = cs) (h : Numeral cs n) :
    parse text = .ok (only n) := by
  have hdot : '.' ∉ cs := h.notMem rfl (by decide) rfl
  unfold parse
  extract_lets line
  have hline : line cs = .ok n := by
    unfold line
    rw [number?_eq_some_iff.2 h]
  rw [htrim]
  split
  · exact absurd (by simp) (h.notMem (c := 'l') rfl (by decide) rfl)
  · exact absurd (by simp) (h.notMem (c := 'f') rfl (by decide) rfl)
  · exact absurd List.mem_cons_self hdot
  · split
    · rename_i hrev
      exact absurd (List.mem_reverse.1 (hrev ▸ List.mem_cons_self)) hdot
    · rw [splitColon?_of_notMem (h.notMem rfl (by decide) rfl)]
      change only <$> line cs = _
      rw [hline]
      rfl

theorem parse_between (htrim : trimBlank text.toList = cs ++ ':' :: ds) (h : Numeral cs n)
    (h' : Numeral ds m) (hle : n ≤ m) : parse text = .ok (between n m) := by
  unfold parse
  extract_lets line
  have hfirst : line cs = .ok n := by
    unfold line
    rw [number?_eq_some_iff.2 h]
  have hlast : line ds = .ok m := by
    unfold line
    rw [number?_eq_some_iff.2 h']
  have hcolon : ':' ∈ cs ++ ':' :: ds := by simp
  rw [htrim]
  split
  · rename_i heq
    rw [heq] at hcolon
    exact absurd hcolon (by decide)
  · rename_i heq
    rw [heq] at hcolon
    exact absurd hcolon (by decide)
  · rename_i heq
    obtain ⟨c, cs, rfl⟩ := List.exists_cons_of_ne_nil h.ne_nil
    obtain ⟨rfl, -⟩ := List.cons.inj heq
    exact absurd List.mem_cons_self (h.notMem rfl (by decide) rfl)
  · split
    · -- The second numeral does not end with a point.
      rename_i hrev
      obtain ⟨d, rest, hds⟩ := List.exists_cons_of_ne_nil (List.reverse_ne_nil_iff.2 h'.ne_nil)
      rw [List.reverse_append, List.reverse_cons, hds] at hrev
      obtain ⟨rfl, -⟩ := List.cons.inj hrev
      have hmem : '.' ∈ ds := List.mem_reverse.1 (hds ▸ List.mem_cons_self)
      exact absurd hmem (h'.notMem rfl (by decide) rfl)
    · rw [splitColon?_append (h.notMem rfl (by decide) rfl)]
      change (line cs >>= fun first => line ds >>= fun last =>
        if last < first then .error (.reversed text) else .ok (between first last)) = _
      rw [hfirst, hlast]
      exact if_neg (Nat.not_lt.2 hle)

end Forms

theorem parse_eq_ok_iff {text : String} {sel : Selection} :
    parse text = .ok sel ↔ Written (trimBlank text.toList) sel := by
  constructor
  · intro h
    unfold parse at h
    extract_lets line at h
    have hline {cs : List Char} {n : Nat} (h : line cs = .ok n) : Numeral cs n := by
      unfold line at h
      split at h
      · cases h
        exact number?_eq_some_iff.1 ‹_›
      · cases h
    have hmap {f : Nat → Selection} {r : Except Malformed Nat} (h : f <$> r = .ok sel) :
        ∃ n, r = .ok n ∧ f n = sel := by
      cases r with
      | error e => cases h
      | ok n => exact ⟨n, rfl, Except.ok.inj h⟩
    split at h
    · rename_i htrim
      cases h
      rw [htrim]
      exact .all
    · rename_i htrim
      cases h
      rw [htrim]
      exact .off
    · rename_i cs htrim
      rw [htrim]
      obtain ⟨n, hn, rfl⟩ := hmap h
      exact .before (hline hn)
    · split at h
      · rename_i rev hrev
        obtain ⟨n, hn, rfl⟩ := hmap h
        rw [List.reverse_eq_iff.1 hrev, List.reverse_cons, List.reverse_cons, List.append_assoc]
        exact .after (hline hn)
      · split at h
        · obtain ⟨n, hn, rfl⟩ := hmap h
          exact .only (hline hn)
        · rename_i first last hsplit
          rw [eq_append_of_splitColon? hsplit]
          obtain ⟨n, hn, h⟩ := except_bind_eq_ok.1 h
          obtain ⟨m, hm, h⟩ := except_bind_eq_ok.1 h
          split at h
          · cases h
          · cases h
            exact .between (hline hn) (hline hm) (Nat.le_of_not_lt ‹_›)
  · intro h
    generalize htrim : trimBlank text.toList = cs at h
    cases h with
    | all => simp [parse, htrim]
    | off => simp [parse, htrim]
    | before h =>
      simp only [parse, htrim, number?_eq_some_iff.2 h]
      rfl
    | after h => exact parse_after htrim h
    | only h => exact parse_only htrim h
    | between h h' hle => exact parse_between htrim h h' hle

theorem includes_iff_mem_lines (sel : Selection) (line : Nat) :
    sel.includes line = true ↔ line ∈ sel.lines := by
  cases sel <;> simp [includes, lines]

theorem Bounds.includes_iff (b : Bounds) (line : Nat) : b.includes line = true ↔
    b.enabled = true ∧ (b.first = 0 ∨ b.first ≤ line) ∧ (b.last = 0 ∨ line ≤ b.last) := by
  simp only [includes, Bool.and_eq_true, Bool.or_eq_true, beq_iff_eq, decide_eq_true_eq, and_assoc]

/-- The bounds of a written selection are its lines, but for a last line 0: it reads as no bound, and no
first bound is larger. -/
theorem bounds_includes_iff {cs : List Char} {sel : Selection} (h : Written cs sel) (line : Nat) :
    sel.bounds.includes line = true ↔ line ∈ sel.lines ∨ sel.last? = some 0 := by
  rw [Bounds.includes_iff]
  cases h with
  | all => simp [bounds, lines]
  | off => simp [bounds, lines, last?]
  | only =>
    simp only [bounds, lines, last?, true_and, Set.mem_singleton_iff, Option.some.injEq]
    omega
  | before =>
    simp only [bounds, lines, last?, true_and, Set.mem_Iic, Option.some.injEq]
    omega
  | after =>
    simp only [bounds, lines, last?, true_and, Set.mem_Ici, reduceCtorEq, true_or, and_true, or_false]
    omega
  | between h h' hle =>
    simp only [bounds, lines, last?, true_and, Set.mem_Icc, Option.some.injEq]
    omega

/-- A selection that is accepted is one of the written forms. The lexer traces the lines that the form
says, and the parser traces the same ones, or every line if the last bound is written as 0. -/
theorem parse_traces {text : String} {sel : Selection} (h : parse text = .ok sel) :
    Written (trimBlank text.toList) sel ∧ ∀ line, (sel.includes line = true ↔ line ∈ sel.lines) ∧
      (sel.bounds.includes line = true ↔ line ∈ sel.lines ∨ sel.last? = some 0) := by
  have hw := parse_eq_ok_iff.1 h
  exact ⟨hw, fun line => ⟨sel.includes_iff_mem_lines line, bounds_includes_iff hw line⟩⟩

theorem parse_traces_between : parse " 3:9" = .ok (between 3 9) ∧
    Written (trimBlank " 3:9".toList) (between 3 9) ∧
      ∀ line, ((between 3 9).includes line = true ↔ line ∈ (between 3 9).lines) ∧
        ((between 3 9).bounds.includes line = true ↔
          line ∈ (between 3 9).lines ∨ (between 3 9).last? = some 0) :=
  ⟨rfl, parse_traces rfl⟩

/-- The selection of line 0 alone: the lexer traces nothing on line 1, and the parser does. -/
theorem traces_differ_of_last_zero : parse "0" = .ok (only 0) ∧ 1 ∉ (only 0).lines ∧
    (only 0).includes 1 = false ∧ (only 0).bounds.includes 1 = true := by
  refine ⟨rfl, ?_, rfl, rfl⟩
  simp [lines]

end ProcMips.Selection
