import ProcMips.CodeGen
import ProcMips.Scope

/-! When a sequence of steps succeeds: both steps do, the second from where the first one ends. One
law for each kind of step that can fail: plain outcomes, steps over a state, runs of a program that
may have no meaning, generators of code. -/

namespace ProcMips

theorem except_bind_eq_ok {ε α β : Type} {x : Except ε α} {f : α → Except ε β} {b : β} :
    (x >>= f) = .ok b ↔ ∃ a, x = .ok a ∧ f a = .ok b := by
  cases x with
  | error e => simp [bind, Except.bind]
  | ok a => simp [bind, Except.bind]

theorem except_seq_eq_ok {ε β : Type} {x : Except ε Unit} {y : Except ε β} {b : β} :
    (x >>= fun _ => y) = .ok b ↔ x = .ok () ∧ y = .ok b := by
  rw [except_bind_eq_ok]
  exact ⟨fun ⟨_, hx, hy⟩ => ⟨hx, hy⟩, fun ⟨hx, hy⟩ => ⟨(), hx, hy⟩⟩

theorem except_pure_eq_ok {ε α : Type} {a b : α} : (pure a : Except ε α) = .ok b ↔ a = b := by
  simp [pure, Except.pure]

theorem except_mapError_eq_ok {ε ε' α : Type} {x : Except ε α} {f : ε → ε'} {a : α} :
    x.mapError f = .ok a ↔ x = .ok a := by
  cases x with
  | error e =>
    change Except.error (f e) = .ok a ↔ _
    simp
  | ok b =>
    change Except.ok b = .ok a ↔ _
    simp

theorem except_exists_ok_iff {ε α : Type} {x : Except ε α} :
    (∃ a, x = .ok a) ↔ x.isOk = true := by
  cases x <;> simp [Except.isOk, Except.toBool]

theorem step_bind_eq_ok {ε σ α β : Type} {x : EStateM ε σ α} {f : α → EStateM ε σ β} {s t : σ}
    {b : β} : (x >>= f) s = .ok b t ↔ ∃ a u, x s = .ok a u ∧ f a u = .ok b t := by
  change EStateM.bind x f s = _ ↔ _
  unfold EStateM.bind
  cases h : x s with
  | ok a u =>
    constructor
    · intro hf
      exact ⟨a, u, rfl, hf⟩
    · rintro ⟨_, _, hx, hf⟩
      cases hx
      exact hf
  | error e u => simp

theorem step_seq_eq_ok {ε σ β : Type} {x : EStateM ε σ Unit} {y : EStateM ε σ β} {s t : σ} {b : β} :
    (x >>= fun _ => y) s = .ok b t ↔ ∃ u, x s = .ok () u ∧ y u = .ok b t := by
  rw [step_bind_eq_ok]
  exact ⟨fun ⟨_, u, hx, hy⟩ => ⟨u, hx, hy⟩, fun ⟨u, hx, hy⟩ => ⟨(), u, hx, hy⟩⟩

theorem step_pure_eq_ok {ε σ α : Type} {a b : α} {s t : σ} :
    (pure a : EStateM ε σ α) s = .ok b t ↔ a = b ∧ s = t := by
  change EStateM.Result.ok a s = _ ↔ _
  simp

theorem run_bind_eq_some {σ α β : Type} {x : StateT σ Option α} {f : α → StateT σ Option β}
    {s t : σ} {b : β} :
    (x >>= f) s = some (b, t) ↔ ∃ a u, x s = some (a, u) ∧ f a u = some (b, t) := by
  change (x s >>= fun p => f p.1 p.2) = _ ↔ _
  simp [Option.bind_eq_some_iff]

theorem run_pure_eq_some {σ α : Type} {a b : α} {s t : σ} :
    (pure a : StateT σ Option α) s = some (b, t) ↔ a = b ∧ s = t := by
  change some (a, s) = some (b, t) ↔ _
  simp

theorem gen_bind_eq_ok {α β : Type} {x : Gen α} {f : α → Gen β} {n m : Nat} {b : β} :
    (x >>= f) n = .ok (b, m) ↔ ∃ a k, x n = .ok (a, k) ∧ f a k = .ok (b, m) := by
  change (x n >>= fun p => f p.1 p.2) = _ ↔ _
  simp [except_bind_eq_ok]

theorem gen_pure_eq_ok {α : Type} {a b : α} {n m : Nat} :
    (pure a : Gen α) n = .ok (b, m) ↔ a = b ∧ n = m := by
  change (Except.ok (a, n) : Except CodeError (α × Nat)) = _ ↔ _
  simp

theorem gen_throw_ne_ok {α : Type} {e : CodeError} {n m : Nat} {b : α} :
    (throw e : Gen α) n ≠ .ok (b, m) := by
  change (Except.error e : Except CodeError (α × Nat)) ≠ _
  simp

end ProcMips
