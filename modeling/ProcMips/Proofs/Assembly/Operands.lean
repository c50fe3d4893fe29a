import Mathlib
import ProcMips.Mips.Instr
import ProcMips.Proofs.Lex.Spelling
import ProcMips.Proofs.Text.Rows

/-! Operands as they are written: registers, numbers and addresses. The first character says what an
operand is, and a base register stands in parentheses behind it. -/

namespace ProcMips.Mips

/-- A letter or an underscore, then letters, digits and underscores. -/
structure IsLabel (l : String) : Prop where
  start : ∃ c ∈ l.toList.head?, isWordStart c = true
  chars : ∀ c ∈ l.toList, isWordChar c = true

-- The conditions are Boolean, so that no instance that searches all characters is chosen for them.
instance : DecidablePred IsLabel := fun l =>
  decidable_of_iff (l.toList.head?.any isWordStart = true ∧ l.toList.all isWordChar = true) <| by
    rw [Option.any_eq_true, List.all_eq_true]
    exact ⟨fun ⟨hs, hc⟩ => ⟨hs, hc⟩, fun h => ⟨h.start, h.chars⟩⟩

theorem IsLabel.notMem {l : String} {c : Char} (h : IsLabel l) (hc : isWordChar c = false) :
    c ∉ l.toList := notMem_of_isWordChar h.chars hc

/-- What a text starts with. -/
inductive Start where
  | nothing
  | tab
  | dot
  | dollar
  | letter
  | other
deriving DecidableEq

namespace Start

def of : List Char → Start
  | [] => nothing
  | c :: _ =>
    if c = '\t' then tab
    else if c = '.' then dot
    else if c = '$' then dollar
    else if isWordStart c then letter
    else other

theorem of_append_of_isLabel {l : String} (h : IsLabel l) (cs : List Char) :
    of (l.toList ++ cs) = letter := by
  obtain ⟨c, hc, hstart⟩ := h.start
  obtain ⟨rest, hl⟩ := List.head?_eq_some_iff.1 hc
  have hne {d : Char} (hd : isWordStart d = false) : c ≠ d := by
    intro heq
    rw [heq, hd] at hstart
    cases hstart
  rw [hl, List.cons_append, of, if_neg (hne rfl), if_neg (hne rfl), if_neg (hne rfl), if_pos hstart]

theorem of_isLabel {l : String} (h : IsLabel l) : of l.toList = letter := by
  rw [← List.append_nil l.toList, of_append_of_isLabel h]

theorem of_int (n : Int) : of (toString n).toList = other := by
  have hall : ∀ c ∈ (toString n).toList, c.isDigit = true ∨ c = '-' := fun _ hc => isDigit_or_eq_of_mem_int hc
  cases htext : (toString n).toList with
  | nil => exact absurd htext toList_toString_int_ne_nil
  | cons c cs =>
    rw [htext] at hall
    rcases hall c List.mem_cons_self with hdigit | rfl
    · have hne {d : Char} (hd : d.isDigit = false) : c ≠ d := by
        intro heq
        rw [heq, hd] at hdigit
        cases hdigit
      have hstart : ¬ isWordStart c = true := by
        intro hs
        rw [isDigit_eq_false_of_isWordStart hs] at hdigit
        cases hdigit
      rw [of, if_neg (hne rfl), if_neg (hne rfl), if_neg (hne rfl), if_neg hstart]
    · rfl

theorem of_register (r : Register) : of r.text.toList = dollar := by cases r <;> rfl

end Start

/-- An operand of an instruction. -/
inductive Operand where
  | register (r : Register)
  | number (n : Int)
  | address (a : Address)

def Address.labels : Address → List String
  | offset .. | indirect _ => []
  | label l | indexed l _ => [l]

namespace Operand

def text : Operand → String
  | register r => r.text
  | number n => toString n
  | address a => a.text

def labels : Operand → List String
  | register _ | number _ => []
  | address a => a.labels

/-- What is written in front of the parentheses. -/
def stem : Operand → String
  | register r => r.text
  | number n | address (.offset n _) => toString n
  | address (.indirect _) => ""
  | address (.label l) | address (.indexed l _) => l

/-- The register in parentheses. -/
def base : Operand → Option Register
  | address (.offset _ r) | address (.indirect r) | address (.indexed _ r) => some r
  | _ => none

def baseText : Option Register → List Char
  | none => []
  | some r => '(' :: (r.text.toList ++ [')'])

/-- What the stem of the operand starts with. -/
def start : Operand → Start
  | register _ => .dollar
  | number _ | address (.offset ..) => .other
  | address (.indirect _) => .nothing
  | address (.label _) | address (.indexed ..) => .letter

theorem toList_text (o : Operand) : o.text.toList = o.stem.toList ++ baseText o.base := by
  rcases o with r | n | a
  · simp [text, stem, base, baseText]
  · simp [text, stem, base, baseText]
  · cases a <;> simp [text, stem, base, baseText, Address.text, ToString.toString]

end Operand

theorem Register.text_injective {r r' : Register} (h : r.text = r'.text) : r = r' := by
  cases r <;> cases r' <;> first | rfl | exact absurd h (by decide)

/-- The characters of operands besides the parentheses. -/
def isStemChar (c : Char) : Bool := isWordChar c || c == '$' || c == '-'

theorem isStemChar_of_mem_register {r : Register} {c : Char} (h : c ∈ r.text.toList) :
    isStemChar c = true := by
  have hall : r.text.toList.all isStemChar = true := by cases r <;> rfl
  exact List.all_eq_true.1 hall c h

namespace Operand

variable {o o' : Operand}

theorem isStemChar_of_mem_stem (h : ∀ l ∈ o.labels, IsLabel l) {c : Char} (hc : c ∈ o.stem.toList) :
    isStemChar c = true := by
  have hnumber {n : Int} (hc : c ∈ (toString n).toList) : isStemChar c = true := by
    rcases isDigit_or_eq_of_mem_int hc with hd | rfl
    · simp [isStemChar, isWordChar_of_isDigit hd]
    · rfl
  have hlabel {l : String} (hl : l ∈ o.labels) (hc : c ∈ l.toList) : isStemChar c = true := by
    simp [isStemChar, (h l hl).chars c hc]
  cases o with
  | register r => exact isStemChar_of_mem_register hc
  | number n => exact hnumber hc
  | address a =>
    cases a with
    | offset n r => exact hnumber hc
    | indirect r => cases hc
    | label l => exact hlabel (List.mem_singleton_self l) hc
    | indexed l r => exact hlabel (List.mem_singleton_self l) hc

/-- A character that is neither in a stem nor a parenthesis is in no operand. -/
theorem notMem_text (h : ∀ l ∈ o.labels, IsLabel l) {c : Char}
    (hc : isStemChar c = false ∧ c ≠ '(' ∧ c ≠ ')') : c ∉ o.text.toList := by
  intro hmem
  rw [toList_text, List.mem_append] at hmem
  rcases hmem with hmem | hmem
  · rw [isStemChar_of_mem_stem h hmem] at hc
    cases hc.1
  · cases hb : o.base with
    | none =>
      rw [hb] at hmem
      cases hmem
    | some r =>
      rw [hb, baseText, List.mem_cons, List.mem_append, List.mem_singleton] at hmem
      rcases hmem with hmem | hmem | hmem
      · exact hc.2.1 hmem
      · rw [isStemChar_of_mem_register hmem] at hc
        cases hc.1
      · exact hc.2.2 hmem

theorem start_stem (h : ∀ l ∈ o.labels, IsLabel l) : Start.of o.stem.toList = o.start := by
  cases o with
  | register r => exact Start.of_register r
  | number n => exact Start.of_int n
  | address a =>
    cases a with
    | offset n r => exact Start.of_int n
    | indirect r => rfl
    | label l => exact Start.of_isLabel (h l (List.mem_singleton_self l))
    | indexed l r => exact Start.of_isLabel (h l (List.mem_singleton_self l))

/-- The text of an operand gives what stands in front of the parentheses and the register in them. -/
theorem stem_eq_and_base_eq (h : ∀ l ∈ o.labels, IsLabel l) (h' : ∀ l ∈ o'.labels, IsLabel l)
    (heq : o.text = o'.text) : o.stem = o'.stem ∧ o.base = o'.base := by
  -- The first parenthesis is behind the stem.
  have hparen {p : Operand} (hp : ∀ l ∈ p.labels, IsLabel l) : '(' ∉ p.stem.toList := fun hc =>
    absurd (isStemChar_of_mem_stem hp hc) (by decide)
  have hlist := congrArg String.toList heq
  rw [toList_text, toList_text] at hlist
  cases hb : o.base with
  | none =>
    cases hb' : o'.base with
    | none =>
      rw [hb, hb', baseText, List.append_nil, List.append_nil] at hlist
      exact ⟨String.toList_inj.1 hlist, rfl⟩
    | some r' =>
      rw [hb, hb', baseText, List.append_nil] at hlist
      exact absurd (by simp [hlist, baseText]) (hparen h)
  | some r =>
    cases hb' : o'.base with
    | none =>
      rw [hb, hb', baseText, baseText, List.append_nil] at hlist
      exact absurd (by simp [← hlist]) (hparen h')
    | some r' =>
      rw [hb, hb', baseText, baseText, append_cons_inj (hparen h) (hparen h')] at hlist
      obtain ⟨hstem, hbase⟩ := hlist
      rw [Register.text_injective (String.toList_inj.1 (List.append_cancel_right hbase))]
      exact ⟨String.toList_inj.1 hstem, rfl⟩

theorem address_inj_of_parts {a a' : Address} (hstart : (address a).start = (address a').start)
    (hstem : (address a).stem = (address a').stem) (hbase : (address a).base = (address a').base) :
    a = a' := by
  cases a with
  | offset n r =>
    cases a' with
    | offset n' r' => rw [Int.repr_injective hstem, Option.some.inj hbase]
    | indirect | label | indexed => cases hstart
  | indirect r =>
    cases a' with
    | indirect r' => rw [Option.some.inj hbase]
    | offset | label | indexed => cases hstart
  | label l =>
    cases a' with
    | label l' => exact congrArg Address.label hstem
    | offset | indirect => cases hstart
    | indexed => cases hbase
  | indexed l r =>
    cases a' with
    | indexed l' r' =>
      obtain rfl : l = l' := hstem
      rw [Option.some.inj hbase]
    | offset | indirect => cases hstart
    | label => cases hbase

/-- Operands whose labels are names are told apart by their texts. -/
theorem text_inj (h : ∀ l ∈ o.labels, IsLabel l) (h' : ∀ l ∈ o'.labels, IsLabel l)
    (heq : o.text = o'.text) : o = o' := by
  obtain ⟨hstem, hbase⟩ := stem_eq_and_base_eq h h' heq
  have hstart : o.start = o'.start := by rw [← start_stem h, ← start_stem h', hstem]
  cases o with
  | register r =>
    cases o' with
    | register r' => exact congrArg register (Register.text_injective hstem)
    | number n' => cases hstart
    | address a' => cases a' <;> cases hstart
  | number n =>
    cases o' with
    | register r' => cases hstart
    | number n' => exact congrArg number (Int.repr_injective hstem)
    | address a' =>
      cases a' with
      | offset | indirect | indexed => cases hbase
      | label => cases hstart
  | address a =>
    cases o' with
    | register r' => cases a <;> cases hstart
    | number n' =>
      cases a with
      | offset | indirect | indexed => cases hbase
      | label => cases hstart
    | address a' => exact congrArg address (address_inj_of_parts hstart hstem hbase)

end Operand

end ProcMips.Mips
