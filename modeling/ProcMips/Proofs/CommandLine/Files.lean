import ProcMips.CommandLine.FileTree
import ProcMips.Proofs.Sequencing

/-! A text that is put where a path leads is what is read at the path afterwards. -/

namespace ProcMips

namespace FileTree

variable {t t' : FileTree} {p q : Place} {e : Entry} {path text : String}

theorem lookup_filter_of_ne (h : q ≠ p) (entries : List (Place × Entry)) :
    (entries.filter (·.1 ≠ p)).lookup q = entries.lookup q := by
  induction entries with
  | nil => rfl
  | cons entry entries ih =>
    rw [List.filter_cons]
    split
    · rw [List.lookup_cons, List.lookup_cons, ih]
    · have hp : entry.1 = p := by simpa using ‹¬decide (entry.1 ≠ p) = true›
      have hq : (q == entry.1) = false := beq_eq_false_iff_ne.2 (hp ▸ h)
      rw [ih, List.lookup_cons, hq]

theorem find?_put_of_ne (t : FileTree) (e : Entry) (h : q ≠ p) : (t.put p e).find? q = t.find? q := by
  have hq : (q == p) = false := beq_eq_false_iff_ne.2 h
  simp only [find?, put, List.lookup_cons, hq, lookup_filter_of_ne h]

/-- A directory of the one tree is a directory of the other. -/
def KeepsDirectories (t t' : FileTree) : Prop :=
  ∀ q, t.find? q = some .directory → t'.find? q = some .directory

theorem keepsDirectories_put (e : Entry) (h : t.find? p ≠ some .directory) :
    t.KeepsDirectories (t.put p e) := by
  intro q hq
  rwa [find?_put_of_ne]
  rintro rfl
  exact h hq

namespace KeepsDirectories

/-- Only directories are left on the way to a place. -/
theorem follow (h : t.KeepsDirectories t') {name : String} (hq : t.follow p name = .ok q) :
    t'.follow p name = .ok q := by
  cases hp : t.find? p with
  | none => simp [FileTree.follow, hp] at hq
  | some e =>
    cases e with
    | directory =>
      simp only [FileTree.follow, hp] at hq
      simpa only [FileTree.follow, h p hp] using hq
    | file | device => simp [FileTree.follow, hp] at hq

theorem foldlM_follow (h : t.KeepsDirectories t') (names : List String)
    (hq : names.foldlM t.follow p = .ok q) : names.foldlM t'.follow p = .ok q := by
  induction names generalizing p with
  | nil => exact hq
  | cons name names ih =>
    rw [List.foldlM_cons, except_bind_eq_ok] at hq ⊢
    obtain ⟨r, hr, hq⟩ := hq
    exact ⟨r, h.follow hr, ih hq⟩

theorem locate (h : t.KeepsDirectories t') (hq : t.locate path = .ok q) :
    t'.locate path = .ok q := by
  unfold FileTree.locate walk at *
  split at hq
  · cases hq
  · split at hq
    · cases hq
    · rw [if_neg ‹_›, if_neg ‹_›]
      exact h.foldlM_follow _ hq

end KeepsDirectories

/-- The path of a file does not end in a separator. -/
theorem target_eq_file (h : t.target path = .ok (.file p)) :
    Path.endsInSeparator path = false ∧ t.locate path = .ok p ∧ t.find? p ≠ some .directory := by
  unfold target at h
  split at h
  · obtain ⟨_, -, h⟩ := except_bind_eq_ok.1 h
    cases h
  · obtain ⟨q, hq, h⟩ := except_bind_eq_ok.1 h
    split at h
    · cases h
    · cases h
    · cases h
      exact ⟨by simpa using ‹¬Path.endsInSeparator path = true›, hq, ‹_›⟩

theorem read_put_of_target (h : t.target path = .ok (.file p)) :
    (t.put p (.file text)).read path = .ok text := by
  obtain ⟨hends, hp, hdirectory⟩ := target_eq_file h
  have hput := (keepsDirectories_put (.file text) hdirectory).locate hp
  rw [read, except_bind_eq_ok]
  refine ⟨p, hput, ?_⟩
  dsimp only
  rw [hends, if_neg Bool.false_ne_true, except_bind_eq_ok]
  exact ⟨p, rfl, by rw [find?_put_self]⟩

/-- The path leads to a file, or to where one can be made, once the directories above it stand. -/
def Writable (t : FileTree) (path : String) : Prop :=
  ∃ t' p, t.ensureDirectories (Path.directories path) = .ok t' ∧ t'.target path = .ok (.file p)

end FileTree

end ProcMips
