import ProcMips.Proofs.Assembly.Operands

/-! The text of code determines the code. Besides empty lines, each line is one instruction: a section, a
label with what it stands for, or a mnemonic with its operands. -/

namespace ProcMips.Mips

/-- The operation with three registers that a mnemonic is for. -/
def Op.ofText? : String → Option Op
  | "add" => some add
  | "sub" => some sub
  | "mul" => some mul
  | "div" => some div
  | "rem" => some rem
  | "slt" => some slt
  | "sle" => some sle
  | "seq" => some seq
  | _ => none

theorem Op.ofText?_text (o : Op) : ofText? o.text = some o := by cases o <;> rfl

/-- A line of code by its parts. -/
inductive Row where
  | sectionStart (name : String)
  | definition (name : String) (words : Option Nat)
  | operation (mnemonic : String) (operands : List Operand)

namespace Row

/-- What follows a label: nothing, or a number of words. -/
def wordsText : Option Nat → String
  | none => ""
  | some n => if n = 1 then "\t.word 0" else "\t.word\t0:" ++ toString n

/-- What follows a mnemonic: nothing, or the operands. -/
def fields : List Operand → List String
  | [] => []
  | o :: os => [", ".intercalate ((o :: os).map Operand.text)]

def text : Row → String
  | sectionStart s => s
  | definition l words => l ++ ":" ++ wordsText words
  | operation m operands => "\t" ++ "\t".intercalate (m :: fields operands)

/-- The instruction that a line is for. -/
def instr? : Row → Option Instr
  | sectionStart s => some (.sectionStart s)
  | definition l none => some (.label l)
  | definition l (some n) => some (.word l n)
  | operation m operands =>
    match m, operands with
    | ".globl", [.address (.label l)] => some (.global l)
    | "li", [.register d, .number n] => some (.li d n)
    | "move", [.register d, .register s] => some (.move d s)
    | "lw", [.register d, .address a] => some (.lw d a)
    | "sw", [.register s, .address a] => some (.sw s a)
    | "add", [.register d, .register l, .number n] => some (.addi d l n)
    | "sub", [.register d, .register l, .number n] => some (.subi d l n)
    | "j", [.address (.label l)] => some (.j l)
    | "jal", [.address (.label l)] => some (.jal l)
    | "jr", [.register r] => some (.jr r)
    | "beqz", [.register r, .address (.label l)] => some (.beqz r l)
    | "bnez", [.register r, .address (.label l)] => some (.bnez r l)
    | "syscall", [] => some .syscall
    | m, [.register d, .register l, .register r] => (Op.ofText? m).map (.op · d l r)
    | _, _ => none

/-- Labels are names, and sections are those for data and for text. -/
def WellNamed : Row → Prop
  | sectionStart s => s = ".data" ∨ s = ".text"
  | definition l _ => IsLabel l
  | operation m operands =>
    '\t' ∉ m.toList ∧ '\n' ∉ m.toList ∧ ∀ o ∈ operands, ∀ l ∈ o.labels, IsLabel l

def start : Row → Start
  | sectionStart _ => .dot
  | definition .. => .letter
  | operation .. => .tab

theorem start_text {r : Row} (h : r.WellNamed) : Start.of r.text.toList = r.start := by
  cases r with
  | sectionStart s => rcases h with rfl | rfl <;> rfl
  | definition l words =>
    rw [text, String.toList_append, String.toList_append, List.append_assoc]
    exact Start.of_append_of_isLabel h _
  | operation m operands => simp [text, Start.of, start]

theorem text_ne_empty {r : Row} (h : r.WellNamed) : r.text ≠ "" := by
  intro htext
  have hstart := start_text h
  rw [htext] at hstart
  cases r <;> cases hstart

theorem wordsText_injective {w w' : Option Nat} (h : wordsText w = wordsText w') : w = w' := by
  have hne (n : Nat) : wordsText (some n) ≠ wordsText none := by
    rw [wordsText, wordsText]
    split <;> simp
  cases w with
  | none =>
    cases w' with
    | none => rfl
    | some n => exact absurd h.symm (hne n)
  | some n =>
    cases w' with
    | none => exact absurd h (hne n)
    | some n' =>
      rw [wordsText, wordsText] at h
      split at h <;> split at h
      · simp [*]
      · exact absurd (congrArg String.toList h) (by simp)
      · exact absurd (congrArg String.toList h) (by simp)
      · have hlist := congrArg String.toList h
        rw [String.toList_append, String.toList_append] at hlist
        rw [Nat.repr_injective (String.toList_inj.1 (List.append_cancel_left hlist))]

theorem newline_notMem_wordsText (words : Option Nat) : '\n' ∉ (wordsText words).toList := by
  cases words with
  | none => exact List.not_mem_nil
  | some n =>
    rw [wordsText]
    split
    · decide
    · intro hc
      rw [String.toList_append, List.mem_append] at hc
      rcases hc with hc | hc
      · exact absurd hc (by decide)
      · cases isDigit_of_mem_nat hc

theorem fields_inj {os os' : List Operand} (h : ∀ o ∈ os, ∀ l ∈ o.labels, IsLabel l)
    (h' : ∀ o ∈ os', ∀ l ∈ o.labels, IsLabel l) (heq : fields os = fields os') : os = os' := by
  have hcomma {os : List Operand} (h : ∀ o ∈ os, ∀ l ∈ o.labels, IsLabel l) :
      ∀ t ∈ os.map Operand.text, ',' ∉ t.toList := by
    intro t ht
    obtain ⟨o, ho, rfl⟩ := List.mem_map.1 ht
    exact Operand.notMem_text (h o ho) (by decide)
  rcases os with _ | ⟨o, os⟩ <;> rcases os' with _ | ⟨o', os'⟩
  · rfl
  · cases heq
  · cases heq
  · have htexts := join_inj rfl (hcomma h) (hcomma h') (by simp) (by simp) (List.cons.inj heq).1
    exact eq_of_map_eq htexts fun p hp q hq => Operand.text_inj (h p hp) (h' q hq)

/-- The characters in the operands of a line. -/
theorem notMem_fields {os : List Operand} (h : ∀ o ∈ os, ∀ l ∈ o.labels, IsLabel l) {c : Char}
    (hc : isStemChar c = false ∧ c ≠ '(' ∧ c ≠ ')') (hsep : c ∉ ", ".toList) :
    ∀ f ∈ fields os, c ∉ f.toList := by
  intro f hf hmem
  rcases os with _ | ⟨o, os⟩
  · cases hf
  obtain rfl := List.mem_singleton.1 hf
  rcases mem_of_mem_intercalate hmem with hmem | ⟨t, ht, hmem⟩
  · exact hsep hmem
  · obtain ⟨p, hp, rfl⟩ := List.mem_map.1 ht
    exact Operand.notMem_text (h p hp) hc hmem

theorem text_inj {r r' : Row} (h : r.WellNamed) (h' : r'.WellNamed) (heq : r.text = r'.text) :
    r = r' := by
  -- The kinds of lines are told apart by their first characters, so three of the nine pairs are left.
  have hstart : r.start = r'.start := by rw [← start_text h, ← start_text h', heq]
  cases r with
  | sectionStart s =>
    cases r' with
    | sectionStart s' => exact congrArg sectionStart heq
    | definition | operation => cases hstart
  | definition l words =>
    cases r' with
    | definition l' words' =>
      have hlist := congrArg String.toList heq
      simp only [text, String.toList_append, List.append_assoc] at hlist
      have hcolon := (append_cons_inj (IsLabel.notMem h rfl) (IsLabel.notMem h' rfl)).1 hlist
      obtain rfl : l = l' := String.toList_inj.1 hcolon.1
      rw [wordsText_injective (String.toList_inj.1 hcolon.2)]
    | sectionStart | operation => cases hstart
  | operation m os =>
    cases r' with
    | operation m' os' =>
      have htab {m : String} {os : List Operand} (h : (operation m os).WellNamed) :
          ∀ f ∈ m :: fields os, '\t' ∉ f.toList :=
        List.forall_mem_cons.2 ⟨h.1, notMem_fields h.2.2 (by decide) (by decide)⟩
      have hlist := congrArg String.toList heq
      rw [text, text, String.toList_append, String.toList_append] at hlist
      obtain ⟨rfl, hfields⟩ := List.cons.inj <| join_inj rfl (htab h) (htab h') (List.cons_ne_nil _ _)
        (List.cons_ne_nil _ _) (String.toList_inj.1 (List.append_cancel_left hlist))
      rw [fields_inj h.2.2 h'.2.2 hfields]
    | sectionStart | definition => cases hstart

theorem newline_notMem_text {r : Row} (h : r.WellNamed) : '\n' ∉ r.text.toList := by
  intro hc
  cases r with
  | sectionStart s =>
    rcases h with rfl | rfl
    · exact absurd hc (by decide)
    · exact absurd hc (by decide)
  | definition l words =>
    rw [text, String.toList_append, String.toList_append, List.mem_append, List.mem_append] at hc
    rcases hc with (hc | hc) | hc
    · exact IsLabel.notMem h rfl hc
    · exact absurd hc (by decide)
    · exact newline_notMem_wordsText words hc
  | operation m os =>
    rw [text, String.toList_append, List.mem_append] at hc
    rcases hc with hc | hc
    · exact absurd hc (by decide)
    · have hfields : ∀ f ∈ m :: fields os, '\n' ∉ f.toList :=
        List.forall_mem_cons.2 ⟨h.2.1, notMem_fields h.2.2 (by decide) (by decide)⟩
      rcases mem_of_mem_intercalate hc with htab | ⟨f, hf, hmem⟩
      · exact absurd htab (by decide)
      · exact hfields f hf hmem

end Row

namespace Instr

/-- The line of an instruction, without the empty line that may stand in front of it. -/
def row : Instr → Row
  | sectionStart s => .sectionStart s
  | global g => .operation ".globl" [.address (.label g)]
  | word l n => .definition l (some n)
  | label l => .definition l none
  | li d n => .operation "li" [.register d, .number n]
  | move d s => .operation "move" [.register d, .register s]
  | lw d a => .operation "lw" [.register d, .address a]
  | sw s a => .operation "sw" [.register s, .address a]
  | op o d l r => .operation o.text [.register d, .register l, .register r]
  | addi d l n => .operation "add" [.register d, .register l, .number n]
  | subi d l n => .operation "sub" [.register d, .register l, .number n]
  | j t => .operation "j" [.address (.label t)]
  | jal t => .operation "jal" [.address (.label t)]
  | jr r => .operation "jr" [.register r]
  | beqz r t => .operation "beqz" [.register r, .address (.label t)]
  | bnez r t => .operation "bnez" [.register r, .address (.label t)]
  | syscall => .operation "syscall" []

theorem instr?_row (i : Instr) : i.row.instr? = some i := by
  cases i with
  | op o d l r => cases o <;> rfl
  | _ => rfl

/-- The lines in front of the line of the instruction. -/
def gap : Instr → List String
  | label l => if generatedStem.toList.isPrefixOf l.toList then [] else [""]
  | _ => []

theorem eq_of_mem_gap {i : Instr} {l : String} (h : l ∈ i.gap) : l = "" := by
  cases i with
  | label name =>
    rw [gap] at h
    split at h
    · cases h
    · exact List.mem_singleton.1 h
  | _ => cases h

theorem text_newline_eq (i : Instr) : i.text ++ "\n" = unlines (i.gap ++ [i.row.text]) := by
  apply String.toList_inj.1
  cases i with
  | label l =>
    rw [text, gap, labelText]
    split <;> simp [unlines_cons, row, Row.text, Row.wordsText]
  | word l n =>
    rw [text, wordText, show (word l n).gap = [] from rfl]
    split <;> simp [unlines_cons, row, Row.text, Row.wordsText, ToString.toString, *]
  | _ => simp [gap, row, text, Row.text, Row.fields, Operand.text, Address.text, unlines_cons, ToString.toString]

def labels : Instr → List String
  | global l | word l _ | label l | j l | jal l | beqz _ l | bnez _ l => [l]
  | lw _ a | sw _ a => a.labels
  | _ => []

def sections : Instr → List String
  | sectionStart s => [s]
  | _ => []

/-- Every label is a name, and a section is for data or for text. -/
def WellNamed (i : Instr) : Prop :=
  (∀ l ∈ i.labels, IsLabel l) ∧ ∀ s ∈ i.sections, s = ".data" ∨ s = ".text"

instance : DecidablePred WellNamed := fun i =>
  inferInstanceAs (Decidable ((∀ l ∈ i.labels, IsLabel l) ∧ ∀ s ∈ i.sections, s = ".data" ∨ s = ".text"))

theorem WellNamed.row {i : Instr} (h : i.WellNamed) : i.row.WellNamed := by
  have hlabel {l : String} (hl : l ∈ i.labels) : IsLabel l := h.1 l hl
  cases i with
  | sectionStart s => exact h.2 s (List.mem_singleton_self s)
  | word l n => exact hlabel (List.mem_singleton_self l)
  | label l => exact hlabel (List.mem_singleton_self l)
  | op o d l r => cases o <;> simp [Instr.row, Row.WellNamed, Op.text, Operand.labels]
  | _ => simp_all [Instr.row, Row.WellNamed, Operand.labels, Address.labels, labels]

end Instr

variable {code code' : List Instr}

theorem codeText_eq_unlines (code : List Instr) :
    codeText code = unlines (code.flatMap fun i => i.gap ++ [i.row.text]) := by
  induction code with
  | nil => rfl
  | cons i code ih =>
    rw [List.flatMap_cons, unlines_append, ← Instr.text_newline_eq, ← ih, codeText, List.map_cons,
      unlines_cons]
    rfl

/-- Empty lines aside, each line of a text of code is that of one instruction. -/
theorem rows_codeText (h : ∀ i ∈ code, i.WellNamed) :
    (rows (codeText code)).filter (· ≠ "") = code.map (·.row.text) := by
  have hlines : ∀ l ∈ code.flatMap fun i => i.gap ++ [i.row.text], '\n' ∉ l.toList := by
    intro l hl
    obtain ⟨i, hi, hl⟩ := List.mem_flatMap.1 hl
    rcases List.mem_append.1 hl with hl | hl
    · rw [Instr.eq_of_mem_gap hl]
      exact List.not_mem_nil
    · rw [List.mem_singleton.1 hl]
      exact Row.newline_notMem_text (h i hi).row
  rw [codeText_eq_unlines, rows_unlines hlines]
  clear hlines
  -- One instruction at a time: its gap is dropped, and its line is not empty.
  induction code with
  | nil => rfl
  | cons i code ih =>
    rw [List.forall_mem_cons] at h
    have hgap : i.gap.filter (· ≠ "") = [] := by
      rw [List.filter_eq_nil_iff]
      intro l hl
      simp [Instr.eq_of_mem_gap hl]
    rw [List.flatMap_cons, List.filter_append, List.filter_append, hgap, ih h.2, List.nil_append,
      List.filter_cons_of_pos (by simpa using Row.text_ne_empty h.1.row)]
    rfl

/-- Code whose labels are names is determined by its text. -/
theorem codeText_eq_iff (h : ∀ i ∈ code, i.WellNamed) (h' : ∀ i ∈ code', i.WellNamed) :
    codeText code = codeText code' ↔ code = code' := by
  constructor
  · intro heq
    have hrows := congrArg (fun text => (rows text).filter (· ≠ "")) heq
    rw [rows_codeText h, rows_codeText h'] at hrows
    apply eq_of_map_eq hrows
    intro i hi j hj hij
    have hrow := Row.text_inj (h i hi).row (h' j hj).row hij
    exact Option.some.inj (by rw [← i.instr?_row, hrow, j.instr?_row])
  · intro heq
    rw [heq]

/-- The mnemonics are the same in both. A register is told from a number, one word from a block of them,
and a label from one that a register is added to. -/
theorem codeText_ne_of_same_layout :
    codeText [.sectionStart ".data", .word "x" 1, .sectionStart ".text", .label "f", .op .add .t0 .t1 .t2,
        .lw .t0 (.label "x"), .beqz .t0 "label0", .label "label0"] ≠
      codeText [.sectionStart ".data", .word "x" 4, .sectionStart ".text", .label "f", .addi .t0 .t1 2,
        .lw .t0 (.indexed "x" .t1), .beqz .t0 "label0", .label "label0"] := by
  intro h
  rw [codeText_eq_iff (by decide +kernel) (by decide +kernel)] at h
  exact absurd h (by decide)

end ProcMips.Mips
