import SomeOs.Vfs.Entries

/-! # Removing directories

A directory with two links is checked to be empty before it is removed, and then its entry
and the two entries in it are removed one after another. A directory with more links is
removed from its parent without the check, and the removal of the entries in an empty one
can fail after it has lost its entry.
-/
namespace SomeOs.Vfs
open Filesystem

/-- The directory `dir` has the name in `parent`, and the two entries that every directory has. -/
structure DirectoryAt (s : Filesystem) (parent : ℕ) (name : Name) (dir : ℕ) : Prop where
  isDir : s.isDir dir = true
  ne : dir ≠ parent
  notRoot : dir ≠ s.root
  name : s.lookup parent name = some dir
  dot : s.lookup dir dot = some dir
  dotDot : s.lookup dir dotDot = some parent
  once : (s.entries dir).countP (·.1 = Vfs.dot) = 1 ∧ (s.entries dir).countP (·.1 = Vfs.dotDot) = 1
  nlinks : 2 ≤ (s.stat dir).nlinks ∧ (s.stat dir).nlinks < 2 ^ 16
  parentNlinks : 2 ≤ (s.stat parent).nlinks ∧ (s.stat parent).nlinks < 2 ^ 16

def Unchanged (s t : Filesystem) : Prop :=
  ∀ i, t.entries i = s.entries i ∧ (t.stat i).nlinks = (s.stat i).nlinks ∧ t.used i = s.used i

def Permitted (s : Filesystem) (process : Option User) (parent dir : ℕ) : Prop :=
  s.access process dir { r := true, dir := true } = .ok () ∧ s.unlinkAccess process parent dir = .ok ()

section Unchanged
variable {s t u : Filesystem} {i : ℕ}

theorem Unchanged.refl (s : Filesystem) : Unchanged s s := fun _ => ⟨rfl, rfl, rfl⟩

theorem Unchanged.trans (h : Unchanged s t) (h' : Unchanged t u) : Unchanged s u := by
  intro i
  obtain ⟨h1, h2, h3⟩ := h i
  obtain ⟨h1', h2', h3'⟩ := h' i
  exact ⟨h1'.trans h1, h2'.trans h2, h3'.trans h3⟩

end Unchanged

section Close
variable {s : Filesystem} {i j : ℕ}

end Close

section Directory
variable {s u : Filesystem} {process : Option User} {parent dir : ℕ} {name : Name} {path : List Name}

theorem DirectoryAt.pos (h : DirectoryAt s parent name dir) :
    (s.unlinked parent name dir).stat dir = { s.stat dir with nlinks := (s.stat dir).nlinks - 1 } := by
  have hd := h.nlinks
  exact unlinked_stat_self (by omega) (by omega)

end Directory

end SomeOs.Vfs
