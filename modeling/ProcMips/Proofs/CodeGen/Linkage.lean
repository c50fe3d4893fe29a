import ProcMips.Proofs.CodeGen.Balance
import ProcMips.Proofs.CodeGen.References

/-! The code of a program is closed. Each procedure is one block, which control leaves by a return only;
jumps lead to labels of the same block, calls to procedures of the program, and loads and stores to
blocks of data that are set up once. -/

namespace ProcMips

open Mips

namespace Mips

/-- Control does not leave the code `k`, which stands at `start`. Calls come back behind themselves, and
what follows a return is up to the caller. -/
def StaysInside (code : List Instr) (start : Nat) (k : List Instr) : Prop :=
  ∀ (j : Nat) (i : Instr) (next : Nat), k[j]? = some i → i.LeadsTo code (start + j) next →
    ∃ j' < k.length, next = start + j'

variable {code k : List Instr} {start : Nat}

theorem Sizes.Consistent.staysInside {x : Sizes} (h : x.Consistent k) (hu : (labelsOf code).Nodup)
    (hat : CodeAt code start k) : StaysInside code start k := by
  intro j i next hi hlead
  rcases Instr.leadsTo_cases hlead with ⟨rfl, hr⟩ | ⟨l, hl, hres⟩
  · obtain ⟨i', hnext⟩ := h.exists_next hi hr
    exact ⟨j + 1, (List.getElem?_eq_some_iff.1 hnext).1, rfl⟩
  · obtain ⟨n, hn, -⟩ := h.joins j i l hi hl
    refine ⟨n, (List.getElem?_eq_some_iff.1 hn).1, ?_⟩
    exact Option.some.inj (hres.symm.trans (resolve_eq_some hu (hat.getElem?_eq hn)))

/-- A label in front leads into the code. -/
theorem StaysInside.cons_label {l : String} (h : StaysInside code (start + 1) k) (hne : k ≠ []) :
    StaysInside code start (.label l :: k) := by
  intro j i next hi hlead
  cases j with
  | zero =>
    cases hi
    obtain rfl : next = start + 1 := hlead
    exact ⟨1, by simpa using List.length_pos_of_ne_nil hne, rfl⟩
  | succ j =>
    rw [show start + (j + 1) = start + 1 + j by omega] at hlead
    obtain ⟨j', hj', rfl⟩ := h j i next hi hlead
    exact ⟨j' + 1, by simpa using hj', by omega⟩

theorem Instr.mem_mentions_of_target? {i : Instr} {l : String} (h : i.target? = some l) :
    l ∈ i.mentions := by
  cases i with
  | j | beqz | bnez =>
    cases h
    exact List.mem_singleton_self l
  | _ => cases h

end Mips

namespace Procedure

/-- The labels at which a procedure starts. The program starts at the one named `main`. -/
def entry (q : Procedure) : List Instr :=
  if q.name = mainName then [.label mainName, .label (procLabel q.name)]
  else [.label (procLabel q.name)]

/-- The code `k` of a procedure, as a block of `code`: control enters it at its labels, stays inside
and ends with a return, and what is jumped to is a numbered label that stands here and nowhere else. -/
structure Block (code : List Instr) (q : Procedure) (k : List Instr) : Prop where
  ends : ∃ inner, k = q.entry ++ inner ++ [.jr .ra]
  inside : ∃ start, CodeAt code start k ∧ StaysInside code start k
  targets : ∀ i ∈ k, ∀ l, i.target? = some l →
    (∃ n, l = generatedLabel n) ∧ (labelsOf k).count l = 1 ∧ (labelsOf code).count l = 1

variable {q : Procedure} {x : Sizes} {s : Storage} {n m : Nat} {kb k : List Instr}

/-- Jumps stand in the body, and so do the labels that they lead to. -/
theorem target_of_encloses (hkb : q.body.code s n = .ok (kb, m))
    (hx : x.Encloses (procLabel q.name) (kb ++ [.li .t0 0]) k) {i : Instr} (hi : i ∈ k) {l : String}
    (hl : i.target? = some l) : (∃ n, l = generatedLabel n) ∧ l ∈ labelsOf k := by
  have hm := Instr.mem_mentions_of_target? hl
  have hbody : kb ++ [.li .t0 0] <:+: k := ⟨_, _, hx.code.symm⟩
  have hin : i ∈ kb ++ [.li .t0 0] := by
    rw [hx.code, List.mem_append, List.mem_append] at hi
    rcases hi with (hi | hi) | hi
    · obtain ⟨j, hj⟩ := List.mem_iff_getElem?.1 hi
      obtain rfl := Sizes.eq_label_of_prologue hj hm
      cases hl
    · exact hi
    · exact absurd hm (Sizes.mentions_epilogue hi)
  have hu : (labelsOf (kb ++ [.li .t0 0])).Nodup := hx.labels.sublist (hbody.sublist.filterMap _)
  obtain ⟨j, hj⟩ := List.mem_iff_getElem?.1 hin
  obtain ⟨N, hN, -⟩ := hx.level.joins hu hj hm
  have hlabel : Instr.label l ∈ kb ++ [.li .t0 0] := List.mem_of_getElem? hN
  refine ⟨?_, mem_labelsOf.2 (hbody.subset hlabel)⟩
  have hkbl : l ∈ labelsOf kb := mem_labelsOf.2 (by simpa using hlabel)
  obtain ⟨N, -, -, rfl⟩ := (Stmt.numbered_code hkb).mem l hkbl
  exact ⟨N, rfl⟩

/-- The code of a procedure is a block, wherever it stands. -/
theorem block_of_encloses {code pre post body : List Instr} (hkb : q.body.code s n = .ok (kb, m))
    (hx : x.Encloses (procLabel q.name) (kb ++ [.li .t0 0]) body)
    (hk : k = if q.name = mainName then .label mainName :: body else body)
    (hu : (labelsOf code).Nodup) (hcode : code = pre ++ k ++ post) : q.Block code k := by
  have hat : CodeAt code pre.length k := hcode ▸ codeAt_of_split pre k post
  have huk : (labelsOf k).Nodup := by
    refine hu.sublist (List.Sublist.filterMap _ ?_)
    rw [hcode, List.append_assoc]
    exact (List.sublist_append_left k post).trans (List.sublist_append_right pre _)
  obtain ⟨inner, hbody⟩ : ∃ inner, body = .label (procLabel q.name) :: inner ++ [.jr .ra] := by
    refine ⟨(x.prologue (procLabel q.name)).tail ++ (kb ++ [.li .t0 0]) ++ x.unwind, ?_⟩
    rw [hx.code]
    simp [Sizes.prologue, Sizes.epilogue]
  constructor
  case ends =>
    refine ⟨inner, ?_⟩
    rw [hk, entry, hbody]
    split_ifs <;> rfl
  case inside =>
    refine ⟨pre.length, hat, ?_⟩
    split_ifs at hk
    · subst hk
      exact (hx.consistent.staysInside hu hat.2).cons_label (by simp [hbody])
    · subst hk
      exact hx.consistent.staysInside hu hat
  case targets =>
    intro i hi l hl
    have hi : i ∈ body := by
      rw [hk] at hi
      split_ifs at hi
      · rcases List.mem_cons.1 hi with rfl | hi
        · cases hl
        · exact hi
      · exact hi
    obtain ⟨hnumber, hl⟩ := target_of_encloses hkb hx hi hl
    have hlk : l ∈ labelsOf k := by
      rw [mem_labelsOf] at hl ⊢
      rw [hk]
      split_ifs
      · exact List.mem_cons_of_mem _ hl
      · exact hl
    have hlcode : l ∈ labelsOf code := by
      rw [hcode, labelsOf_append, labelsOf_append]
      exact List.mem_append_left _ (List.mem_append_right _ hlk)
    exact ⟨hnumber, List.count_eq_one_of_mem huk hlk, List.count_eq_one_of_mem hu hlcode⟩

end Procedure

namespace Program

/-- The labels of a program stand once, its code consists of a block for each procedure, and what the
code calls, loads and stores is there. -/
structure Linked (p : Program) (t : Tables) (code : List Instr) : Prop where
  labels : (labelsOf code).Nodup
  blocks : ∃ ks, code = dataCode t ++ ks.flatten ∧ List.Forall₂ (Procedure.Block code) p.procedures ks
  calls : ∀ l, .jal l ∈ code → ∃ q ∈ p.procedures, l = procLabel q.name
  words : ∀ i ∈ code, ∀ l, i.dataLabel? = some l → (wordsOf code).count l = 1

variable {p : Program} {t : Tables} {code : List Instr} {q : Procedure}

theorem exists_callable_of_analyze (h : analyze p = .ok t) (hq : q ∈ p.procedures) :
    ∃ callable, q.WellFormed p.globalsVisible callable ∧ callable ⊆ p.procedures := by
  obtain ⟨before, rest, hsplit⟩ := List.append_of_mem hq
  refine ⟨_, (analyze_eq_ok_iff_hasFrame.1 h).1.bodies before q rest hsplit, ?_⟩
  rw [hsplit]
  intro q' hq'
  rw [List.mem_append, List.mem_singleton] at hq'
  rcases hq' with hq' | rfl
  · exact List.mem_append_left _ hq'
  · exact List.mem_append_right _ List.mem_cons_self

theorem block_of_analyze (h : analyze p = .ok t) (hcode : p.code t = .ok code)
    (hq : q ∈ p.procedures) {n m : Nat} {k pre post : List Instr} (hk : q.code t n = .ok (k, m))
    (hsplit : code = pre ++ k ++ post) : q.Block code k := by
  obtain ⟨f, body, hf, hbody, hkeq⟩ := Procedure.code_eq_ok hk
  obtain ⟨f', hframe, hlookup⟩ := exists_frame_of_analyze h hq
  obtain rfl : f = f' := Option.some.inj (hf.symm.trans hlookup)
  obtain ⟨size, hsize, -⟩ := hframe.frameOf.size
  have hu := nodup_labelsOf_code_of_analyze h hcode
  have hubody : (labelsOf body).Nodup := by
    have hsub : body.Sublist k := by
      rw [hkeq]
      split_ifs
      · exact List.sublist_cons_self _ _
      · exact List.Sublist.refl _
    refine hu.sublist ((hsub.trans ?_).filterMap _)
    rw [hsplit, List.append_assoc]
    exact (List.sublist_append_left k post).trans (List.sublist_append_right pre _)
  obtain ⟨callable, hwf, hsub⟩ := exists_callable_of_analyze h hq
  have hcall (q' : Procedure) (hq' : q' ∈ callable) :=
    released_procLabel (analyze_eq_ok_iff_hasFrame.1 h).1.procedures (hsub hq')
  obtain ⟨kb, i, j, hkb, hx⟩ := Procedure.exists_encloses hsize hframe.frameOf.argCount hcall hwf
    hbody hubody
  exact Procedure.block_of_encloses hkb hx hkeq hu hsplit

/-- The code of procedures, in blocks. -/
theorem exists_blocks {ps : List Procedure} {n m : Nat} {k pre : List Instr}
    (h : ∀ q ∈ ps, ∀ n m k pre post, q.code t n = .ok (k, m) → code = pre ++ k ++ post →
      q.Block code k)
    (hk : proceduresCode t ps n = .ok (k, m)) (hsplit : code = pre ++ k) :
    ∃ ks, k = ks.flatten ∧ List.Forall₂ (Procedure.Block code) ps ks := by
  induction ps generalizing n k pre with
  | nil =>
    obtain ⟨rfl, -⟩ := gen_pure_eq_ok.1 hk
    exact ⟨[], rfl, .nil⟩
  | cons q ps ih =>
    simp only [proceduresCode, gen_bind_eq_ok, gen_pure_eq_ok] at hk
    obtain ⟨kq, _, hkq, kps, _, hkps, rfl, rfl⟩ := hk
    rw [List.forall_mem_cons] at h
    rw [← List.append_assoc] at hsplit
    obtain ⟨ks, rfl, hks⟩ := ih h.2 hkps hsplit
    exact ⟨kq :: ks, rfl, .cons (h.1 _ _ _ _ _ hkq hsplit) hks⟩

theorem refer_proceduresCode {ps : List Procedure} {n m : Nat} {k : List Instr}
    (h : ∀ q ∈ ps, ∃ callable, q.WellFormed p.globalsVisible callable ∧ callable ⊆ p.procedures)
    (hk : proceduresCode t ps n = .ok (k, m)) : Refer t p.procedures k := by
  induction ps generalizing n k with
  | nil =>
    obtain ⟨rfl, -⟩ := gen_pure_eq_ok.1 hk
    exact refer_nil
  | cons q ps ih =>
    simp only [proceduresCode, gen_bind_eq_ok, gen_pure_eq_ok] at hk
    obtain ⟨kq, _, hkq, kps, _, hkps, rfl, rfl⟩ := hk
    rw [List.forall_mem_cons] at h
    obtain ⟨callable, hwf, hsub⟩ := h.1
    exact refer_append.2 ⟨(hwf.refer_code hkq).mono hsub, ih h.2 hkps⟩

theorem wordsOf_map_word {block : String × Nat → Instr} (gs : List (String × Nat))
    (h : ∀ g, block g = .word (globalLabel g.1) g.2) :
    wordsOf (gs.map block) = (gs.map Prod.fst).map globalLabel := by
  obtain rfl : block = fun g => .word (globalLabel g.1) g.2 := funext h
  induction gs with
  | nil => rfl
  | cons g gs ih => exact congrArg (globalLabel g.1 :: ·) ih

theorem wordsOf_dataCode (t : Tables) :
    wordsOf (dataCode t) = (t.globals.map Prod.fst).map globalLabel := by
  rw [dataCode, wordsOf_append, ← List.singleton_append, wordsOf_append,
    wordsOf_map_word t.globals fun _ => rfl]
  simp [wordsOf]

theorem dataLabel?_of_mem_dataCode {i : Instr} (hi : i ∈ dataCode t) : i.dataLabel? = none := by
  simp only [dataCode, List.mem_append, List.mem_cons, List.mem_map, List.not_mem_nil,
    or_false] at hi
  rcases hi with (rfl | ⟨_, _, rfl⟩) | rfl | rfl <;> rfl

/-- Blocks of data are set up for the names of globals, each once. -/
theorem count_wordsOf_dataCode (h : analyze p = .ok t) {l : String} (hl : t.Names l) :
    (wordsOf (dataCode t)).count l = 1 := by
  obtain ⟨x, hx, rfl⟩ := hl
  rw [wordsOf_dataCode]
  have hnodup : (t.globals.map Prod.fst).Nodup := by
    obtain ⟨hscoped, fs, -, rfl⟩ := analyze_eq_ok_iff_hasFrame.1 h
    rw [List.map_map]
    exact hscoped.globals
  refine List.count_eq_one_of_mem (hnodup.map fun _ _ => globalLabel_injective) ?_
  exact List.mem_map_of_mem (Tables.isGlobal_iff.1 hx)

theorem linked_of_analyze (h : analyze p = .ok t) (hcode : p.code t = .ok code) :
    p.Linked t code := by
  obtain ⟨k, m, hk, hsplit⟩ := code_eq_ok hcode
  have hrefer := refer_proceduresCode (fun q => exists_callable_of_analyze h) hk
  constructor
  case labels => exact nodup_labelsOf_code_of_analyze h hcode
  case blocks =>
    obtain ⟨ks, rfl, hks⟩ := exists_blocks
      (fun q hq _ _ _ _ _ => block_of_analyze h hcode hq) hk hsplit
    exact ⟨ks, hsplit, hks⟩
  case calls =>
    intro l hl
    rw [hsplit, List.mem_append] at hl
    refine hrefer.jal (hl.resolve_left fun hl => ?_)
    simp [dataCode] at hl
  case words =>
    intro i hi l hl
    rw [hsplit, wordsOf_append, hrefer.wordsOf, List.append_nil]
    rw [hsplit, List.mem_append] at hi
    refine count_wordsOf_dataCode h (hrefer.dataLabel (hi.resolve_left fun hi => ?_) hl)
    rw [dataLabel?_of_mem_dataCode hi] at hl
    cases hl

/-- Code is generated for every program that analysis accepts, with labels for 32 bits, and it is
closed. -/
theorem code_linked_of_analyze (h : analyze p = .ok t) (hlabels : p.labels < labelLimit) :
    ∃ code, p.code t = .ok code ∧ p.Linked t code := by
  obtain ⟨code, hcode⟩ := exists_code_of_analyze h hlabels
  exact ⟨code, hcode, linked_of_analyze h hcode⟩

/-- Two procedures with a call of the one in the other, a loop around a short circuit, and a global. -/
theorem factorials_code_linked : ∃ t code, analyze factorials = .ok t ∧
    factorials.code t = .ok code ∧ factorials.labels < labelLimit ∧ factorials.Linked t code := by
  obtain ⟨t, ht⟩ : ∃ t, analyze factorials = .ok t := except_exists_ok_iff.2 (by decide +kernel)
  have hlabels : factorials.labels < labelLimit := by decide +kernel
  obtain ⟨code, hcode, hlinked⟩ := code_linked_of_analyze ht hlabels
  exact ⟨t, code, ht, hcode, hlabels, hlinked⟩

end Program

end ProcMips
