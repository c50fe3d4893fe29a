import ProcMips.Proofs.CodeGen.Linkage
import ProcMips.Proofs.Lex.Spelling

/-! Blocks of data and the text share the names of the assembler. A block has the name of its global
and an underscore behind it, a procedure its name and a stem in front. -/

namespace ProcMips

open Mips

theorem getLast?_globalLabel (x : String) : (globalLabel x).toList.getLast? = some '_' := by
  rw [globalLabel, String.toList_append]
  exact List.getLast?_concat

/-- A generated label ends with a digit. -/
theorem globalLabel_ne_generatedLabel (x : String) (n : Nat) :
    globalLabel x ≠ generatedLabel n := by
  intro h
  have hlast := getLast?_globalLabel x
  rw [h] at hlast
  simp only [generatedLabel, ToString.toString, String.toList_append, Nat.toList_repr] at hlast
  rw [List.getLast?_append_of_ne_nil _ Nat.toDigits_ne_nil] at hlast
  have hdigit := Nat.isDigit_of_mem_toDigits (by decide) (by decide) (List.mem_of_getLast? hlast)
  exact absurd hdigit (by decide)

theorem globalLabel_ne_main (x : String) : globalLabel x ≠ mainName := by
  intro h
  have hlast := getLast?_globalLabel x
  rw [h] at hlast
  exact absurd hlast (by decide)

/-- A global has the label of a procedure if its name has the stem in front already, and that of the
procedure the underscore behind it. -/
theorem globalLabel_eq_procLabel_iff {x f : String} (hf : f ≠ "") :
    globalLabel x = procLabel f ↔ ∃ y, x = "proc_" ++ y ∧ f = y ++ "_" := by
  constructor
  · intro h
    have hlist := congrArg String.toList h
    simp only [globalLabel, procLabel, String.toList_append] at hlist
    rcases List.eq_nil_or_concat f.toList with hnil | ⟨y, c, hy⟩
    · exact absurd (String.toList_injective hnil) hf
    · rw [hy, List.concat_eq_append, ← List.append_assoc] at hlist
      obtain ⟨hx, hc⟩ := List.append_inj' hlist rfl
      refine ⟨String.ofList y, String.toList_injective ?_, String.toList_injective ?_⟩
      · simpa using hx
      · rw [hy, List.concat_eq_append, ← hc, String.toList_append]
        simp only [String.toList_ofList]
  · rintro ⟨y, rfl, rfl⟩
    exact String.append_assoc ..

theorem IsIdentifier.ne_empty {x : String} (h : IsIdentifier x) : x ≠ "" := by
  rintro rfl
  obtain ⟨c, hc, -⟩ := h.start
  cases hc

namespace Program

variable {p : Program} {t : Tables} {code : List Instr}

/-- A program has a block of data for each global. -/
theorem wordsOf_code (h : analyze p = .ok t) (hcode : p.code t = .ok code) :
    wordsOf code = (p.globals.map Global.name).map globalLabel := by
  obtain ⟨k, m, hk, rfl⟩ := code_eq_ok hcode
  have hrefer := refer_proceduresCode (fun q => exists_callable_of_analyze h) hk
  obtain ⟨-, fs, -, rfl⟩ := analyze_eq_ok_iff_hasFrame.1 h
  rw [wordsOf_append, hrefer.wordsOf, List.append_nil, wordsOf_dataCode]
  simp [Global.entry]

theorem knownLabel_of_mem_labelsOf (h : analyze p = .ok t) (hcode : p.code t = .ok code) {l : String}
    (hl : l ∈ labelsOf code) :
    (∃ n, l = generatedLabel n) ∨ (∃ q ∈ p.procedures, l = procLabel q.name) ∨ l = mainName := by
  obtain ⟨k, m, hk, rfl⟩ := code_eq_ok hcode
  rw [labelsOf_append, labelsOf_dataCode, List.nil_append] at hl
  have hnames := (analyze_eq_ok_iff_hasFrame.1 h).1.procedures
  rcases (labelled_proceduresCode hnames hk).known l hl with ⟨n, -, -, rfl⟩ | hq | ⟨rfl, -⟩
  · exact .inl ⟨n, rfl⟩
  · exact .inr (.inl hq)
  · exact .inr (.inr rfl)

theorem Linked.procLabel_mem (h : p.Linked t code) {q : Procedure} (hq : q ∈ p.procedures) :
    procLabel q.name ∈ labelsOf code := by
  obtain ⟨ks, hcode, hks⟩ := h.blocks
  obtain ⟨i, hi, rfl⟩ := List.mem_iff_getElem.1 hq
  have hi' : i < ks.length := hks.length_eq ▸ hi
  obtain ⟨inner, hk⟩ := (hks.get hi hi').ends
  have hlabel : .label (procLabel p.procedures[i].name) ∈ ks[i] := by
    rw [show ks[i] = _ from hk]
    refine List.mem_append_left _ (List.mem_append_left _ ?_)
    rw [Procedure.entry]
    split_ifs <;> simp
  rw [mem_labelsOf, hcode]
  exact List.mem_append_right _ (List.mem_flatten_of_mem (List.getElem_mem hi') hlabel)

theorem nodup_wordsOf_code (h : analyze p = .ok t) (hcode : p.code t = .ok code) :
    (wordsOf code).Nodup := by
  rw [wordsOf_code h hcode]
  exact (analyze_eq_ok_iff_hasFrame.1 h).1.globals.map fun _ _ => globalLabel_injective

/-- What is set up as data and stands in the text is a label of a global and of a procedure. -/
theorem mem_both_iff (h : analyze p = .ok t) (hcode : p.code t = .ok code) (l : String) :
    l ∈ wordsOf code ∧ l ∈ labelsOf code ↔
      ∃ g ∈ p.globals, ∃ q ∈ p.procedures, l = globalLabel g.name ∧ l = procLabel q.name := by
  rw [wordsOf_code h hcode]
  constructor
  · rintro ⟨hword, hlabel⟩
    obtain ⟨x, hx, rfl⟩ := List.mem_map.1 hword
    obtain ⟨g, hg, rfl⟩ := List.mem_map.1 hx
    rcases knownLabel_of_mem_labelsOf h hcode hlabel with ⟨n, hn⟩ | ⟨q, hq, heq⟩ | hmain
    · exact absurd hn (globalLabel_ne_generatedLabel _ n)
    · exact ⟨g, hg, q, hq, rfl, heq⟩
    · exact absurd hmain (globalLabel_ne_main _)
  · rintro ⟨g, hg, q, hq, rfl, heq⟩
    refine ⟨List.mem_map_of_mem (List.mem_map_of_mem hg), ?_⟩
    rw [heq]
    exact (linked_of_analyze h hcode).procLabel_mem hq

/-- Of the labels in the text, only those of procedures can be set up as data too, and they are if a
global is named like the label of a procedure without its last underscore. -/
theorem mem_wordsOf_and_labelsOf_iff (h : analyze p = .ok t) (hcode : p.code t = .ok code)
    (hnames : ∀ q ∈ p.procedures, IsIdentifier q.name) (l : String) :
    l ∈ wordsOf code ∧ l ∈ labelsOf code ↔ ∃ g ∈ p.globals, ∃ q ∈ p.procedures, ∃ y,
      g.name = "proc_" ++ y ∧ q.name = y ++ "_" ∧ l = "proc_" ++ y ++ "_" := by
  rw [mem_both_iff h hcode]
  constructor
  · rintro ⟨g, hg, q, hq, rfl, heq⟩
    obtain ⟨y, hgy, hqy⟩ := (globalLabel_eq_procLabel_iff (hnames q hq).ne_empty).1 heq
    exact ⟨g, hg, q, hq, y, hgy, hqy, by rw [globalLabel, hgy]⟩
  · rintro ⟨g, hg, q, hq, y, hgy, hqy, rfl⟩
    refine ⟨g, hg, q, hq, by rw [globalLabel, hgy], ?_⟩
    rw [procLabel, hqy, String.append_assoc]

/-- No label in the text of the two recursive procedures is that of the counter. -/
theorem factorials_symbols : ∃ t code, analyze factorials = .ok t ∧ factorials.code t = .ok code ∧
    (∀ q ∈ factorials.procedures, IsIdentifier q.name) ∧ "calls_" ∈ wordsOf code ∧
    ∀ l ∈ wordsOf code, l ∉ labelsOf code := by
  obtain ⟨t, ht⟩ : ∃ t, analyze factorials = .ok t := except_exists_ok_iff.2 (by decide +kernel)
  obtain ⟨code, hcode⟩ := exists_code_of_analyze ht (by decide +kernel)
  have hnames : ∀ q ∈ factorials.procedures, IsIdentifier q.name := by decide +kernel
  refine ⟨t, code, ht, hcode, hnames, ?_, fun l hl hlabel => ?_⟩
  · rw [wordsOf_code ht hcode]
    decide
  · obtain ⟨g, hg, q, hq, y, hgy, -⟩ :=
      (mem_wordsOf_and_labelsOf_iff ht hcode hnames l).1 ⟨hl, hlabel⟩
    obtain rfl := List.mem_singleton.1 hg
    have hhead := congrArg (fun s => s.toList.head?) hgy
    simp at hhead

/-- A global and a procedure with one label. -/
def oneLabel : Program where
  globals := [⟨1, "proc_a", .single⟩]
  procedures := [
    ⟨2, "a_", [], .block 2 [.ret 3 (.int 3 7)]⟩,
    ⟨4, "main", [], .block 4 [
      .assign 5 (.scalar "proc_a") (.call 5 "a_" []),
      .ret 6 (.int 6 0)]⟩]

theorem oneLabel_clashes : ∃ t code, analyze oneLabel = .ok t ∧ oneLabel.code t = .ok code ∧
    (∀ g ∈ oneLabel.globals, IsIdentifier g.name) ∧
    (∀ q ∈ oneLabel.procedures, IsIdentifier q.name) ∧
    globalLabel "proc_a" ∈ wordsOf code ∧ globalLabel "proc_a" ∈ labelsOf code := by
  obtain ⟨t, ht⟩ : ∃ t, analyze oneLabel = .ok t := except_exists_ok_iff.2 (by decide +kernel)
  obtain ⟨code, hcode⟩ := exists_code_of_analyze ht (by decide +kernel)
  refine ⟨t, code, ht, hcode, by decide +kernel, by decide +kernel, ?_, ?_⟩
  · rw [wordsOf_code ht hcode]
    decide
  · exact (linked_of_analyze ht hcode).procLabel_mem List.mem_cons_self

end Program

end ProcMips
