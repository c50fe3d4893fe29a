import ProcMips.Proofs.Analysis.Programs

/-! Analysis accepts exactly the well-formed programs. The rules about names, calls and types are
those of the checks, and a procedure has a frame exactly if the largest declarations of its names fit
together. -/

namespace ProcMips

namespace Procedure

theorem valid_layout {p : Procedure} (hpos : ∀ r ∈ p.body.declared, 0 < r.2)
    (hsmall : (p.requests.bytes : Int) ≤ maxFrameSize) :
    Layout.Valid (Layout.requestAll p.requests []) := by
  refine Layout.Valid.nil.requestAll (fun r hr => ?_) (by rwa [Layout.bytes_requestAll])
  rcases List.mem_append.1 hr with hr | hr
  · obtain ⟨q, -, rfl⟩ := List.mem_map.1 hr
    exact Nat.one_pos
  · exact hpos r hr

/-- With storage for every name, the frame of a procedure is that of its layout. -/
theorem hasFrame_iff {p : Procedure} (hpos : ∀ r ∈ p.body.declared, 0 < r.2) {f : Frame} :
    p.HasFrame f ↔ (p.requests.bytes : Int) ≤ maxFrameSize ∧
      f = Frame.finishedLayout (Layout.requestAll p.requests []) (p.params.map Param.name) := by
  unfold HasFrame
  simp only [unfinishedFrame_eq_ok_iff hpos]
  have hfinish (hsmall : (p.requests.bytes : Int) ≤ maxFrameSize) :
      (Frame.ofLayout (Layout.requestAll p.requests []) (p.params.map Param.name)).finish = .ok _ :=
    Frame.finish_ofLayout (valid_layout hpos hsmall)
  constructor
  · rintro ⟨g, ⟨hsmall, rfl⟩, hg⟩
    rw [hfinish hsmall] at hg
    exact ⟨hsmall, (Except.ok.inj hg).symm⟩
  · rintro ⟨hsmall, rfl⟩
    exact ⟨_, ⟨hsmall, rfl⟩, hfinish hsmall⟩

/-- Procedures have frames exactly if each of them has one. -/
theorem exists_forall₂_hasFrame_iff {ps : List Procedure} :
    (∃ fs, List.Forall₂ HasFrame ps fs) ↔ ∀ p ∈ ps, ∃ f, p.HasFrame f := by
  induction ps with
  | nil => simp
  | cons p ps ih =>
    rw [List.forall_mem_cons, ← ih]
    constructor
    · rintro ⟨_, hfs⟩
      cases hfs with
      | cons hf hfs => exact ⟨⟨_, hf⟩, _, hfs⟩
    · rintro ⟨⟨f, hf⟩, fs, hfs⟩
      exact ⟨f :: fs, .cons hf hfs⟩

end Procedure

namespace Program

/-- A program whose arrays have elements is accepted exactly if it is well-formed. -/
theorem analyze_accepts_iff_wellFormed {p : Program} (hpos : p.Positive) :
    (∃ t, analyze p = .ok t) ↔ p.WellFormed := by
  simp only [analyze_eq_ok_iff_hasFrame]
  have hframes : (∃ fs, List.Forall₂ Procedure.HasFrame p.procedures fs) ↔
      ∀ q ∈ p.procedures, (q.requests.bytes : Int) ≤ maxFrameSize := by
    rw [Procedure.exists_forall₂_hasFrame_iff]
    refine forall₂_congr fun q hq => ?_
    simp only [Procedure.hasFrame_iff (hpos.bodies q hq)]
    exact ⟨fun ⟨_, h, _⟩ => h, fun h => ⟨_, h, rfl⟩⟩
  constructor
  · rintro ⟨t, hscoped, fs, hfs, -⟩
    exact ⟨hscoped, hframes.1 ⟨fs, hfs⟩⟩
  · rintro ⟨hscoped, hsmall⟩
    obtain ⟨fs, hfs⟩ := hframes.2 hsmall
    exact ⟨_, hscoped, fs, hfs, rfl⟩

/-- Two blocks that declare the same name, in a procedure that calls an earlier one; `inside` says
which statement ends the body. -/
def siblingBlocks (inside : Stmt) : Program where
  globals := [⟨1, "total", .array 3⟩]
  procedures := [
    ⟨2, "twice", [⟨2, "n"⟩], .ret 3 (.binary 3 .add (.scalar 3 "n") (.scalar 3 "n"))⟩,
    ⟨5, "main", [], .block 5 [
      .block 6 [.declare 6 "x" .single, .input 7 (.scalar "x")],
      .block 8 [.declare 8 "x" (.array 5),
        .assign 9 (.element "x" (.int 9 0)) (.call 9 "twice" [.int 9 4])],
      inside]⟩]

/-- Reading a global array is accepted behind the two blocks, but their own name is not visible
there. -/
theorem siblingBlocks_accepts :
    (siblingBlocks (.output 10 (.element 10 "total" (.int 10 2)))).WellFormed ∧
      ¬ (siblingBlocks (.output 10 (.scalar 10 "x"))).WellFormed := by
  constructor
  · rw [← analyze_accepts_iff_wellFormed (by decide +kernel), except_exists_ok_iff]
    decide +kernel
  · rw [← analyze_accepts_iff_wellFormed (by decide +kernel), except_exists_ok_iff]
    decide +kernel

end Program

end ProcMips
