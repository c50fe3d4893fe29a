import ProcMips.CodeGen

/-! Code generation as work on a buffer. A generator appends its code to what was emitted before and
counts its labels on from there, so parts that stand behind each other are emitted one after the other. -/

namespace ProcMips

namespace Mips.Buffer

variable (b : Buffer)

/-- The buffer behind the code of a generator. -/
def emit (g : Gen (List Instr)) : Except CodeError Buffer :=
  (g b.labels).map fun (code, labels) => ⟨b.code ++ code, labels⟩

theorem emit_pure (code : List Instr) : b.emit (pure code) = .ok (b.append code) := rfl

theorem emit_seq (g h : Gen (List Instr)) :
    b.emit (do let front ← g; let back ← h; return front ++ back) = b.emit g >>= fun b => b.emit h := by
  change Except.map _ (g b.labels >>= fun r => h r.2 >>= fun r' => .ok (r.1 ++ r'.1, r'.2)) =
    Except.map _ (g b.labels) >>= _
  cases g b.labels with
  | error e => rfl
  | ok r =>
    change Except.map _ (h r.2 >>= fun r' => .ok (r.1 ++ r'.1, r'.2)) = Except.map _ (h r.2)
    cases h r.2 with
    | error e => rfl
    | ok r' => exact congrArg Except.ok (by simp)

/-- A generator asks the buffer for its labels, as long as there are numbers for them. -/
theorem emit_freshLabel (g : String → Gen (List Instr)) (h : b.labels + 1 < labelLimit) :
    b.emit (Gen.freshLabel >>= g) = b.freshLabel.2.emit (g b.freshLabel.1) := by
  have hlabel : Gen.freshLabel b.labels = .ok (b.freshLabel.1, b.freshLabel.2.labels) := if_pos h
  change Except.map _ (Gen.freshLabel b.labels >>= fun r => g r.1 r.2) = Except.map _ _
  rw [hlabel]
  rfl

theorem emit_freshLabel_overflow (g : String → Gen (List Instr)) (h : labelLimit ≤ b.labels + 1) :
    b.emit (Gen.freshLabel >>= g) = .error (.overflow .add) := by
  have hlabel : Gen.freshLabel b.labels = .error (.overflow .add) := if_neg (Nat.not_lt.2 h)
  change Except.map _ (Gen.freshLabel b.labels >>= fun r => g r.1 r.2) = _
  rw [hlabel]
  rfl

end Mips.Buffer

open Mips

namespace Program

theorem emit_proceduresCode (t : Tables) (ps : List Procedure) (b : Buffer) :
    b.emit (proceduresCode t ps) = ps.foldlM (fun b p => b.emit (p.code t)) b := by
  induction ps generalizing b with
  | nil => exact congrArg Except.ok (by simp)
  | cons p ps ih =>
    rw [proceduresCode, Buffer.emit_seq, List.foldlM_cons]
    exact congrArg _ (funext ih)

/-- The assembly of a program is what a buffer collects from its data and its procedures in order. -/
theorem assembly_eq_emitted (p : Program) (t : Tables) : p.assembly t =
    (p.procedures.foldlM (fun (b : Buffer) p => b.emit (p.code t)) (Buffer.empty.append (dataCode t))).map
      Buffer.text := by
  rw [← emit_proceduresCode, assembly, code, Buffer.emit]
  change _ = Except.map _ (Except.map _ (proceduresCode t p.procedures 0))
  cases proceduresCode t p.procedures 0 <;> rfl

end Program

end ProcMips
