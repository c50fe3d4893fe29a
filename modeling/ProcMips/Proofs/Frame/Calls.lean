import ProcMips.Analysis.Body
import ProcMips.Proofs.Frame.InPlace
import ProcMips.Proofs.Frame.Requests

/-! Calls that ask a frame for storage, each for at least one word. From a new frame on they lead to
frames of layouts only. Such a frame refuses a call exactly if the bytes it has and the bytes that the
slot still needs are more than a frame can have, and then it stays as it was. -/

namespace ProcMips

namespace Layout

/-- A request adds the bytes by which the slot of its name grows. -/
theorem bytes_request (x : String) (n : Nat) (l : Layout) :
    bytes (request x n l) = bytes l + max 0 (wordSize * n - wordSize * wordsOf x l) := by
  by_cases hx : x ∈ names l
  · obtain ⟨l, k, m, rfl, hxl⟩ := exists_split hx
    have hwords : wordsOf x (l ++ (x, k) :: m) = k := by
      rw [wordsOf, List.lookup_append, lookup_eq_none_iff_not_mem.2 hxl]
      simp
    rw [request_of_split hxl, hwords]
    simp only [bytes_append, bytes_cons, wordSize]
    omega
  · have hwords : wordsOf x l = 0 := by
      rw [wordsOf, lookup_eq_none_iff_not_mem.2 hx]
      rfl
    rw [request_of_not_mem hx, hwords]
    simp only [bytes_append, bytes_cons, bytes_nil, wordSize]
    omega

end Layout

namespace Frame

open Layout

/-- A call that asks for storage. -/
inductive Call where
  | insert (name : String) (words : Nat)
  | insertArg (name : String)
deriving Repr, DecidableEq

namespace Call

/-- The name and the words that a call asks for. -/
def request : Call → String × Nat
  | insert x n => (x, n)
  | insertArg x => (x, 1)

/-- What a call adds to the parameters. -/
def params : Call → List String
  | insert .. => []
  | insertArg x => [x]

def Positive (c : Call) : Prop := 0 < c.request.2

instance (c : Call) : Decidable c.Positive := inferInstanceAs (Decidable (0 < _))

def run (f : Frame) : Call → Except Refusal Frame
  | insert x n => f.insert x n
  | insertArg x => f.insertArg x

/-- The call in place. -/
def perform : Call → Update Unit
  | insert x n => Update.insert x n
  | insertArg x => Update.insertArg x

/-- The frame that a call leaves behind, whether or not it fails. -/
def after (c : Call) (f : Frame) : Frame :=
  match c.perform.run f with
  | .ok _ g => g
  | .error _ g => g

variable {c : Call} {l : Layout} {args : List String}

theorem run_ofLayout (hv : Valid l) :
    c.run (ofLayout l args) =
      if bytes (Layout.request c.request.1 c.request.2 l) ≤ maxFrameSize then
        .ok (ofLayout (Layout.request c.request.1 c.request.2 l) (args ++ c.params))
      else .error .tooLarge := by
  cases c with
  | insert x n => simp only [run, request, params, insert_ofLayout hv, List.append_nil]
  | insertArg x =>
    rw [run, Frame.insertArg, insert_ofLayout hv]
    change _ = if bytes (Layout.request x 1 l) ≤ maxFrameSize then
        Except.ok (ofLayout (Layout.request x 1 l) (args ++ [x]))
      else Except.error Refusal.tooLarge
    by_cases hsmall : bytes (Layout.request x 1 l) ≤ maxFrameSize
    · rw [if_pos hsmall, if_pos hsmall]
      rfl
    · rw [if_neg hsmall, if_neg hsmall]
      rfl

theorem perform_ofLayout (hv : Valid l) :
    c.perform.run (ofLayout l args) = Update.ending (ofLayout l args) (c.run (ofLayout l args)) := by
  cases c with
  | insert x n => exact Update.run_insert_ofLayout hv
  | insertArg x => exact Update.run_insertArg_ofLayout hv

end Call

/-- Frames that calls lead to from a new one. -/
inductive Reached : Frame → Prop
  | empty : Reached empty
  | call {f : Frame} {c : Call} (hf : Reached f) (hc : c.Positive) : Reached (c.after f)

theorem Reached.exists_layout {f : Frame} (h : Reached f) :
    ∃ l args, Valid l ∧ f = ofLayout l args := by
  induction h with
  | empty => exact ⟨[], [], Valid.nil, rfl⟩
  | @call f c _ hc ih =>
    obtain ⟨l, args, hv, rfl⟩ := ih
    rw [Call.after, Call.perform_ofLayout hv, Call.run_ofLayout hv]
    by_cases hsmall : bytes (Layout.request c.request.1 c.request.2 l) ≤ maxFrameSize
    · rw [if_pos hsmall]
      exact ⟨_, _, hv.request hc hsmall, rfl⟩
    · rw [if_neg hsmall]
      exact ⟨l, args, hv, rfl⟩

/-- The bytes of the slot of a name, none if it has no slot. -/
def bytesOf (f : Frame) (x : String) : Int := (f.slot? x).elim 0 Slot.size

theorem bytesOf_ofLayout (l : Layout) (args : List String) (x : String) :
    (ofLayout l args).bytesOf x = wordSize * wordsOf x l := by
  rw [bytesOf, slot?, wordsOf]
  by_cases hx : x ∈ names l
  · obtain ⟨l, k, m, rfl, hxl⟩ := exists_split hx
    rw [ofLayout, lookup_packed hxl, List.lookup_append, lookup_eq_none_iff_not_mem.2 hxl]
    simp
  · rw [ofLayout, lookup_packed_eq_none.2 hx, lookup_eq_none_iff_not_mem.2 hx]
    simp

/-- A frame that calls lead to refuses `n` words for `x` exactly if the bytes that it has and those that
the slot still lacks exceed the largest frame, and the declaration of `x` is then refused in its name. No
call that fails has changed a field. -/
theorem Reached.insert_refused_iff {f : Frame} (hf : Reached f) (x : String) (n : Nat) :
    f.size = .ok (f.lastOffset + f.lastSize) ∧
      (f.insert x n = .error .tooLarge ↔
        maxFrameSize < f.lastOffset + f.lastSize + max 0 (4 * n - f.bytesOf x)) ∧
      (∀ line s, s.frame = f →
        (BodyCheck.layOut line x (·.insert x n) s = .error (.rejected ⟨line, .frameTooLarge x⟩) s ↔
          f.insert x n = .error .tooLarge)) ∧
      ∀ c : Call, c.perform.run f = Update.ending f (c.run f) ∧
        ∀ e g, c.perform.run f = .error e g → e = .tooLarge ∧ g = f := by
  obtain ⟨l, args, hv, rfl⟩ := hf.exists_layout
  refine ⟨?_, ?_, fun line s hs => ?_, fun c => ⟨Call.perform_ofLayout hv, fun e g h => ?_⟩⟩
  · rw [last_ofLayout]
    exact size_eq_ok (last_ofLayout l args) hv.small
  · rw [insert_ofLayout hv, bytes_request, bytesOf_ofLayout, last_ofLayout, wordSize]
    split_ifs with hsmall
    · simpa using hsmall
    · simpa using hsmall
  · rw [BodyCheck.layOut, hs, insert_ofLayout hv]
    split_ifs with hsmall
    · simp
    · simp
  · rw [Call.perform_ofLayout hv, Call.run_ofLayout hv] at h
    split_ifs at h
    · cases h
    · obtain ⟨rfl, rfl⟩ := EStateM.Result.error.inj h
      exact ⟨rfl, rfl⟩

/-- Three words of a frame are laid out; the first name can have two words less than fit in a frame. -/
theorem reached_insert_refused :
    ∃ f, Reached f ∧ f.size = .ok 12 ∧ f.insert "xs" 536870901 = .error .tooLarge ∧
      f.insert "xs" 536870900 ≠ .error .tooLarge := by
  have hf : Reached ((Call.insertArg "x").after ((Call.insert "xs" 2).after empty)) :=
    (Reached.empty.call (by decide)).call (by decide)
  obtain ⟨hsize, -⟩ := hf.insert_refused_iff "xs" 0
  refine ⟨_, hf, hsize.trans (by decide), ?_, ?_⟩
  · exact (hf.insert_refused_iff "xs" 536870901).2.1.2 (by decide)
  · exact mt (hf.insert_refused_iff "xs" 536870900).2.1.1 (by decide)

end Frame

end ProcMips
