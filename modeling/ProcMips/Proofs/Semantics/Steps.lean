import ProcMips.Proofs.Semantics.Source
import ProcMips.Proofs.Sequencing

/-! What the steps of a run do, if they have a meaning: where the state that they end in comes from. -/

namespace ProcMips

variable {σ σ' : RunState}

theorem Exec.eval_eq_some {α : Type} {e : Env → Eval α} {v : α} :
    Exec.eval e σ = some (v, σ') ↔
      ∃ w, e σ.locals σ.world = some (v, w) ∧ σ' = { σ with world := w } := by
  unfold Exec.eval
  rw [Option.map_eq_some_iff]
  constructor
  · rintro ⟨⟨_, w⟩, he, heq⟩
    cases heq
    exact ⟨w, he, rfl⟩
  · rintro ⟨w, he, rfl⟩
    exact ⟨(v, w), he, rfl⟩

theorem Exec.inScope_eq_some {α : Type} {x : Exec α} {v : α} :
    Exec.inScope x σ = some (v, σ') ↔ ∃ σ₁, x σ = some (v, σ₁) ∧
      σ' = { σ₁ with locals := fun y => if (σ.locals y).isSome then σ₁.locals y else none } := by
  unfold Exec.inScope
  rw [Option.map_eq_some_iff]
  constructor
  · rintro ⟨⟨_, σ₁⟩, hx, heq⟩
    cases heq
    exact ⟨σ₁, hx, rfl⟩
  · rintro ⟨σ₁, hx, rfl⟩
    exact ⟨(v, σ₁), hx, rfl⟩

theorem Exec.input_eq_some {inputs : List Int} {n : Int} :
    Exec.input inputs σ = some (n, σ') ↔ inputs[σ.world.reads]? = some n ∧
      σ' = { σ with world := { σ.world with reads := σ.world.reads + 1 } } := by
  unfold Exec.input
  rw [Option.map_eq_some_iff]
  constructor
  · rintro ⟨_, hn, heq⟩
    cases heq
    exact ⟨hn, rfl⟩
  · rintro ⟨hn, rfl⟩
    exact ⟨n, hn, rfl⟩

/-- What assigning a variable does: it sets a cell of the local or the global of that name. -/
theorem Exec.assign_eq_some {x : String} {index : Option Int} {n : Int}
    (h : Exec.assign x index n σ = some ((), σ')) :
    ∃ v v' : Var, v.set? index n = some v' ∧
      ((σ.locals x = some v ∧
        σ' = { σ with locals := Function.update σ.locals x (some v') }) ∨
      (σ.locals x = none ∧ σ.world.globals x = some v ∧
        σ' = { σ with world.globals := Function.update σ.world.globals x (some v') })) := by
  unfold Exec.assign at h
  cases hx : σ.locals x with
  | some v =>
    rw [hx] at h
    obtain ⟨v', hset, heq⟩ := Option.map_eq_some_iff.1 h
    cases heq
    exact ⟨v, v', hset, .inl ⟨rfl, rfl⟩⟩
  | none =>
    rw [hx] at h
    obtain ⟨v', hset, heq⟩ := Option.map_eq_some_iff.1 h
    obtain ⟨v, hv, hset⟩ := Option.bind_eq_some_iff.1 hset
    cases heq
    exact ⟨v, v', hset, .inr ⟨rfl, hv, rfl⟩⟩

theorem Expr.execInt_eq_some {call : String → List Int → Eval Int} {e : Expr} {n : Int}
    (h : e.execInt call σ = some (n, σ')) :
    ∃ w, e.eval call σ.locals σ.world = some (.int n, w) ∧ σ' = { σ with world := w } := by
  obtain ⟨w, he, rfl⟩ := Exec.eval_eq_some.1 h
  simp only [run_bind_eq_some, Eval.need_eq_some, Value.int?_eq_some] at he
  obtain ⟨_, _, he, rfl, rfl⟩ := he
  exact ⟨_, he, rfl⟩

theorem Expr.execBool_eq_some {call : String → List Int → Eval Int} {e : Expr} {b : Bool}
    (h : e.execBool call σ = some (b, σ')) :
    ∃ w, e.eval call σ.locals σ.world = some (.bool b, w) ∧ σ' = { σ with world := w } := by
  obtain ⟨w, he, rfl⟩ := Exec.eval_eq_some.1 h
  simp only [run_bind_eq_some, Eval.need_eq_some, Value.bool?_eq_some] at he
  obtain ⟨_, _, he, rfl, rfl⟩ := he
  exact ⟨_, he, rfl⟩

end ProcMips
