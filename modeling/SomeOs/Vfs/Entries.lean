import SomeOs.Vfs.Namespace

/-! # Entries and links

What the changes of single entries do to the directories and link counts.
-/
namespace SomeOs.Vfs
open Filesystem

section Fields
variable (s : Filesystem) (i j n : ℕ) (l : List (Name × ℕ)) (f : Faults)

@[simp] theorem setNlinks_entries : (s.setNlinks i n).entries j = s.entries j := by
  by_cases h : j = i
  · subst h
    simp [entries, setNlinks]
  · simp [entries, setNlinks, h]

theorem setNlinks_stat_self : (s.setNlinks i n).stat i = { s.stat i with nlinks := n } := by
  simp [stat, setNlinks]

theorem setNlinks_stat_of_ne (h : j ≠ i) : (s.setNlinks i n).stat j = s.stat j := by
  simp [stat, setNlinks, h]

@[simp] theorem setEntries_stat : (s.setEntries i l).stat j = s.stat j := by
  by_cases h : j = i
  · subst h
    simp [stat, setEntries]
  · simp [stat, setEntries, h]

theorem setEntries_entries_self : (s.setEntries i l).entries i = l := by
  simp [entries, setEntries]

theorem setEntries_entries_of_ne (h : j ≠ i) : (s.setEntries i l).entries j = s.entries j := by
  simp [entries, setEntries, h]

@[simp] theorem vfsNodeCopy_entries : (s.vfsNodeCopy i).entries j = s.entries j := rfl
@[simp] theorem vfsNodeCopy_stat : (s.vfsNodeCopy i).stat j = s.stat j := rfl
@[simp] theorem changeZones_entries (c : ZoneChange) : (s.changeZones i c).entries j = s.entries j := rfl
@[simp] theorem changeZones_stat (c : ZoneChange) : (s.changeZones i c).stat j = s.stat j := rfl
@[simp] theorem nextZones_entries : (s.nextZones i).entries j = s.entries j := rfl
@[simp] theorem nextZones_stat : (s.nextZones i).stat j = s.stat j := rfl

end Fields

section Remove
variable {l : List (Name × ℕ)} {name : Name} {i : ℕ} {e : Name × ℕ}

/-- The removed record is the first one with the name; the others are kept. -/
theorem removeEntry_perm (h : l.find? (·.1 = name) = some e) : (e :: removeEntry l name).Perm l := by
  obtain ⟨hname, l₁, l₂, rfl, hbefore⟩ := List.find?_eq_some_iff_append.mp h
  have hidx : (l₁ ++ e :: l₂).findIdx? (·.1 = name) = some l₁.length := by
    rw [List.findIdx?_eq_some_iff_getElem]
    refine ⟨by simp, by simpa using hname, ?_⟩
    intro j hj
    rw [List.getElem_append_left hj]
    have := hbefore _ (List.getElem_mem hj)
    simpa using this
  unfold removeEntry
  rw [hidx]
  rcases List.eq_nil_or_concat l₂ with rfl | ⟨l₃, last, rfl⟩
  · simp only [List.getLast?_append, List.getLast?_singleton, Option.some_or, List.set_append_right _ _ (le_refl _),
      Nat.sub_self, List.set_cons_zero, List.dropLast_concat]
    exact (List.perm_append_singleton e l₁).symm
  · simp only [List.concat_eq_append]
    have hlast : (l₁ ++ e :: (l₃ ++ [last])).getLast? = some last := by
      rw [← List.cons_append, ← List.append_assoc, List.getLast?_concat]
    rw [hlast]
    simp only [List.set_append_right _ _ (le_refl _), Nat.sub_self, List.set_cons_zero]
    have hdrop : (l₁ ++ last :: (l₃ ++ [last])).dropLast = l₁ ++ last :: l₃ := by
      rw [← List.cons_append, ← List.append_assoc, List.dropLast_concat]
    rw [hdrop]
    refine (List.Perm.cons e ?_).trans List.perm_middle.symm
    refine (List.perm_middle).trans ?_
    rw [← List.append_assoc]
    exact (List.perm_append_singleton last (l₁ ++ l₃)).symm

theorem addEntry_absent (h : l.find? (·.1 = name) = none) :
    addEntry l name i = l ++ [(if 60 ≤ name.length then name.take 59 else name, i)] := by
  have hidx : l.findIdx? (·.1 = name) = none := by
    rw [List.findIdx?_eq_none_iff]
    intro x hx
    simpa using List.find?_eq_none.mp h x hx
  unfold addEntry
  rw [hidx]

end Remove

section Lookup
variable {s : Filesystem} {node : ℕ} {name : Name} {i : ℕ}

theorem find_of_lookup (h : s.lookup node name = some i) :
    (s.entries node).find? (·.1 = name) = some (name, i) := by
  obtain ⟨e, he, rfl⟩ := Option.map_eq_some_iff.mp h
  have := List.find?_some he
  rw [he]
  congr 1
  exact Prod.ext (by simpa using this) rfl

theorem find_none_of_lookup (h : s.lookup node name = none) : (s.entries node).find? (·.1 = name) = none := by
  cases hf : (s.entries node).find? (·.1 = name) with
  | none => rfl
  | some e =>
    rw [Filesystem.lookup, hf] at h
    cases h

theorem mem_of_lookup (h : s.lookup node name = some i) : (name, i) ∈ s.entries node :=
  List.mem_of_find?_eq_some (find_of_lookup h)

end Lookup

def Filesystem.popUnlink (s : Filesystem) : Filesystem :=
  { s with faults := { s.faults with unlink := s.faults.unlink.tail } }

def Filesystem.popLink (s : Filesystem) : Filesystem :=
  { s with faults := { s.faults with link := s.faults.link.tail } }

/-- An entry has been removed, and the count of `entry` is one less. -/
def Filesystem.unlinked (s : Filesystem) (node : ℕ) (name : Name) (entry : ℕ) : Filesystem :=
  ((s.popUnlink.setEntries node (removeEntry (s.entries node) name)).nextZones node).setNlinks entry
    (((s.stat entry).nlinks + (2 ^ 64 - 1)) % 2 ^ 64)

/-- An entry has been made, and the count of `entry` is one more. -/
def Filesystem.linked (s : Filesystem) (node : ℕ) (name : Name) (entry : ℕ) : Filesystem :=
  (((s.setNlinks entry (((s.stat entry).nlinks + 1) % 2 ^ 64)).popLink).setEntries node
    (addEntry (s.entries node) name entry)).nextZones node

section Steps
variable {s : Filesystem} {process : Option User} {node entry i : ℕ} {name : Name}

theorem unlinked_entries_self : (s.unlinked node name entry).entries node = removeEntry (s.entries node) name := by
  rw [unlinked, setNlinks_entries, nextZones_entries, setEntries_entries_self]

theorem unlinked_entries_of_ne (h : i ≠ node) : (s.unlinked node name entry).entries i = s.entries i := by
  rw [unlinked, setNlinks_entries, nextZones_entries, setEntries_entries_of_ne _ _ _ _ h]
  rfl

theorem unlinked_stat_of_ne (h : i ≠ entry) : (s.unlinked node name entry).stat i = s.stat i := by
  rw [unlinked, setNlinks_stat_of_ne _ _ _ _ h, nextZones_stat, setEntries_stat]
  rfl

theorem unlinked_stat_self (hpos : 0 < (s.stat entry).nlinks) (hlt : (s.stat entry).nlinks < 2 ^ 64) :
    (s.unlinked node name entry).stat entry = { s.stat entry with nlinks := (s.stat entry).nlinks - 1 } := by
  rw [unlinked, setNlinks_stat_self, nextZones_stat, setEntries_stat]
  have : ((s.stat entry).nlinks + (2 ^ 64 - 1)) % 2 ^ 64 = (s.stat entry).nlinks - 1 := by omega
  rw [this]
  rfl

end Steps

end SomeOs.Vfs
