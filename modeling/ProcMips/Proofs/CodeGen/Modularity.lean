import ProcMips.Proofs.CodeGen.Renumbering
import ProcMips.Proofs.CodeGen.Success
import ProcMips.Proofs.Lines.Code
import ProcMips.Proofs.Parse.Sizes

/-! What a procedure is compiled to does not depend on the program around it. Its frame is determined by
its parameters and its body, and its code by the frame, by the names of the globals and by the number of
labels used in front of it. -/

namespace ProcMips

open Mips

namespace Procedure

variable {r r' : Procedure} {f f' : Frame}

theorem unfinishedFrame_unlined (r : Procedure) : r.unlined.unfinishedFrame = r.unfinishedFrame := by
  unfold unfinishedFrame unlined
  rw [List.map_map, Stmt.declared_unlined]
  rfl

theorem hasFrame_unlined : r.unlined.HasFrame f ↔ r.HasFrame f := by
  unfold HasFrame
  rw [unfinishedFrame_unlined]

/-- Analysis leaves no choice of a frame. -/
theorem HasFrame.unique (h : r.HasFrame f) (h' : r.HasFrame f') : f = f' := by
  obtain ⟨g, hg, hf⟩ := h
  obtain ⟨g', hg', hf'⟩ := h'
  obtain rfl : g = g' := Except.ok.inj (hg.symm.trans hg')
  exact Except.ok.inj (hf.symm.trans hf')

theorem name_eq_of_unlined (h : r.unlined = r'.unlined) : r.name = r'.name := by
  unfold unlined at h
  exact (Procedure.mk.inj h).2.1

theorem code_eq_of_unlined (h : r.unlined = r'.unlined) (t : Tables) : r.code t = r'.code t := by
  rw [← code_unlined, h, code_unlined]

end Procedure

/-- The piece of code that was generated first, with larger numbers. -/
theorem Gen.Shifts.eq_renumbered {x y : Gen (List Instr)} {n n' m m' : Nat} {k k' : List Instr}
    (h : ∀ d, Gen.Shifts d (renumbered d) x y) (hle : n ≤ n') (hx : x n = .ok (k, m))
    (hy : y n' = .ok (k', m')) : ∃ d, k' = renumbered d k := by
  obtain ⟨d, rfl⟩ := Nat.exists_eq_add_of_le hle
  obtain ⟨k₀, i, hx₀, hk', -⟩ := h d n k' m' hy
  rw [hx] at hx₀
  cases hx₀
  exact ⟨d, hk'⟩

namespace Program

/-- `k` is what the code of a program has for its procedure `r`. -/
inductive Emits (p : Program) (t : Tables) (code : List Instr) (r : Procedure) (k : List Instr) : Prop
  | mk {before after : List Procedure} {front back : List Instr} {n m i : Nat}
    (hprocedures : p.procedures = before ++ r :: after)
    (hfront : proceduresCode t before 0 = .ok (front, n)) (hk : r.code t n = .ok (k, m))
    (hback : proceduresCode t after m = .ok (back, i))
    (hcode : code = dataCode t ++ front ++ k ++ back)

variable {p q : Program} {t u : Tables} {r r' : Procedure} {code code' k k' : List Instr}

theorem exists_emitted (hcode : p.code t = .ok code) (hr : r ∈ p.procedures) :
    ∃ k, p.Emits t code r k := by
  obtain ⟨procedures, m, hall, rfl⟩ := code_eq_ok hcode
  obtain ⟨before, after, hsplit⟩ := List.append_of_mem hr
  rw [hsplit] at hall
  obtain ⟨front, n, k, i, back, hfront, hk, hback, rfl⟩ := split_of_proceduresCode hall
  exact ⟨k, .mk hsplit hfront hk hback (by simp)⟩

theorem Emits.exists_code (h : p.Emits t code r k) : ∃ n m, r.code t n = .ok (k, m) := by
  cases h with
  | mk _ _ hk _ _ => exact ⟨_, _, hk⟩

/-- Two programs with the same names of globals and a procedure in common, up to lines: analysis gives
it one frame, and what the one program has for it is what the other has, with a constant added to the
number of every label. -/
theorem procedure_compiled_alike (hp : analyze p = .ok t) (hq : analyze q = .ok u)
    (hglobals : ∀ x, x ∈ p.globals.map Global.name ↔ x ∈ q.globals.map Global.name)
    (hr : r ∈ p.procedures) (hr' : r' ∈ q.procedures) (hsame : r.unlined = r'.unlined) :
    (∃ f, t.frame? r.name = some f ∧ u.frame? r'.name = some f) ∧
      ∀ code code', p.code t = .ok code → q.code u = .ok code' →
        (∃ k, p.Emits t code r k) ∧ (∃ k', q.Emits u code' r' k') ∧
          ∀ k k', p.Emits t code r k → q.Emits u code' r' k' →
            ∃ d, k' = renumbered d k ∨ k = renumbered d k' := by
  obtain ⟨f, hf, hlookup⟩ := exists_frame_of_analyze hp hr
  obtain ⟨f', hf', hlookup'⟩ := exists_frame_of_analyze hq hr'
  obtain rfl : f = f' := by
    rw [← Procedure.hasFrame_unlined, hsame] at hf
    exact hf.unique (Procedure.hasFrame_unlined.2 hf')
  refine ⟨⟨f, hlookup, hlookup'⟩, fun code code' hcode hcode' =>
    ⟨exists_emitted hcode hr, exists_emitted hcode' hr', fun k k' hk hk' => ?_⟩⟩
  obtain ⟨n, m, hk⟩ := hk.exists_code
  obtain ⟨n', m', hk'⟩ := hk'.exists_code
  rw [← Procedure.name_eq_of_unlined hsame] at hlookup'
  rw [← Procedure.code_eq_of_unlined hsame] at hk'
  have hisGlobal (x : String) : t.isGlobal x = u.isGlobal x := by
    rw [Bool.eq_iff_iff, isGlobal_of_analyze hp, isGlobal_of_analyze hq]
    exact hglobals x
  have hframe : t.frame? r.name = u.frame? r.name := hlookup.trans hlookup'.symm
  rcases Nat.le_total n n' with hle | hle
  · obtain ⟨d, hd⟩ := Gen.Shifts.eq_renumbered (fun _ => r.shifts_code hisGlobal hframe) hle hk hk'
    exact ⟨d, .inl hd⟩
  · obtain ⟨d, hd⟩ := Gen.Shifts.eq_renumbered
      (fun _ => r.shifts_code (fun x => (hisGlobal x).symm) hframe.symm) hle hk' hk
    exact ⟨d, .inr hd⟩

/-- A procedure whose code has four labels. -/
def countdown : Procedure :=
  ⟨1, "countdown", [⟨1, "n"⟩], .block 1 [
    .loop 2 (.binary 2 .and (.bool 2 true) (.binary 2 .greater (.scalar 2 "n") (.int 2 0)))
      (.assign 3 (.scalar "n") (.binary 3 .sub (.scalar 3 "n") (.int 3 1))),
    .ret 4 (.scalar 4 "n")]⟩

def countdownFirst : Program where
  globals := []
  procedures := [countdown, ⟨6, "main", [], .ret 6 (.call 6 "countdown" [.int 6 3])⟩]

/-- The same procedure on other lines, behind one that has a label of its own. -/
def countdownSecond : Program where
  globals := []
  procedures := [
    ⟨1, "size", [⟨1, "x"⟩], .block 1 [
      .ifThen 2 (.binary 2 .less (.scalar 2 "x") (.int 2 0)) (.ret 2 (.int 2 0)),
      .ret 3 (.scalar 3 "x")]⟩,
    countdown.unlined,
    ⟨9, "main", [], .ret 9 (.call 9 "countdown" [.call 9 "size" [.int 9 3]])⟩]

theorem countdown_compiled_alike : ∃ t u code code', analyze countdownFirst = .ok t ∧
    analyze countdownSecond = .ok u ∧ countdownFirst.code t = .ok code ∧
    countdownSecond.code u = .ok code' ∧
    (∃ f, t.frame? "countdown" = some f ∧ u.frame? "countdown" = some f) ∧
    ∃ k k', countdownFirst.Emits t code countdown k ∧
      countdownSecond.Emits u code' countdown.unlined k' ∧
      ∃ d, k' = renumbered d k ∨ k = renumbered d k' := by
  obtain ⟨t, ht⟩ : ∃ t, analyze countdownFirst = .ok t := except_exists_ok_iff.2 (by decide +kernel)
  obtain ⟨u, hu⟩ : ∃ u, analyze countdownSecond = .ok u :=
    except_exists_ok_iff.2 (by decide +kernel)
  obtain ⟨code, hcode⟩ := exists_code_of_analyze ht (by decide +kernel)
  obtain ⟨code', hcode'⟩ := exists_code_of_analyze hu (by decide +kernel)
  have hfirst : countdown ∈ countdownFirst.procedures := by simp [countdownFirst]
  have hsecond : countdown.unlined ∈ countdownSecond.procedures := by simp [countdownSecond]
  obtain ⟨hframe, hblocks⟩ :=
    procedure_compiled_alike ht hu (fun x => Iff.rfl) hfirst hsecond rfl
  obtain ⟨⟨k, hk⟩, ⟨k', hk'⟩, hall⟩ := hblocks code code' hcode hcode'
  exact ⟨t, u, code, code', ht, hu, hcode, hcode', hframe, k, k', hk, hk', hall k k' hk hk'⟩

end Program

end ProcMips
