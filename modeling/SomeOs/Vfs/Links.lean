import SomeOs.Vfs.Zones

/-! # Link counts

The link count of an inode against the entries that refer to it. Single changes of entries
and references keep both equal, as long as the entry that is removed or made is the one that
is counted.
-/
namespace SomeOs.Vfs
open Filesystem

def Filesystem.links (s : Filesystem) (i : ℕ) : ℕ :=
  ∑ d ∈ Finset.range s.ninodes, (s.entries d).countP fun e => e.2 = i

def Named (s : Filesystem) (i : ℕ) : Prop :=
  i = s.root ∨ ∃ d, ∃ e ∈ s.entries d, e.2 = i ∧ e.1 ≠ dot ∧ e.1 ≠ dotDot

/-- The counts are exact, and the inodes in use are those that have links or references. -/
structure Counted (s : Filesystem) : Prop where
  root_used : s.used s.root = true
  small : ∀ i, s.used i = true → i < s.ninodes
  count : ∀ i, s.used i = true → (s.stat i).nlinks = s.links i
  narrow : ∀ i, s.used i = true → (s.stat i).nlinks < 2 ^ 16
  unused : ∀ i, s.used i = false → s.entries i = []
  target : ∀ d, ∀ e ∈ s.entries d, s.used e.2 = true
  kept : ∀ i, s.used i = true → i = s.root ∨ 0 < s.links i ∨ 0 < s.refs i
  held : ∀ i, 0 < s.refs i → s.used i = true
  dots : ∀ d, (s.entries d).countP (·.1 = dot) ≤ 1 ∧ (s.entries d).countP (·.1 = dotDot) ≤ 1

def Emptied (s : Filesystem) (i : ℕ) : Prop :=
  i ≠ s.root → s.used i = true → s.links i = 0 → s.entries i = []

section Frame
variable (s : Filesystem) (node entry i : ℕ) (name : Name) (l : List (Name × ℕ))

@[simp] theorem unlinked_refs : (s.unlinked node name entry).refs = s.refs := rfl
@[simp] theorem unlinked_used : (s.unlinked node name entry).used = s.used := rfl
@[simp] theorem unlinked_root : (s.unlinked node name entry).root = s.root := rfl
@[simp] theorem unlinked_ninodes : (s.unlinked node name entry).ninodes = s.ninodes := rfl
@[simp] theorem linked_refs : (s.linked node name entry).refs = s.refs := rfl
@[simp] theorem linked_used : (s.linked node name entry).used = s.used := rfl
@[simp] theorem linked_root : (s.linked node name entry).root = s.root := rfl
@[simp] theorem linked_ninodes : (s.linked node name entry).ninodes = s.ninodes := rfl

theorem linked_entries_self : (s.linked node name entry).entries node = addEntry (s.entries node) name entry := by
  rw [linked, nextZones_entries, setEntries_entries_self]

theorem linked_entries_of_ne (h : i ≠ node) : (s.linked node name entry).entries i = s.entries i := by
  rw [linked, nextZones_entries, setEntries_entries_of_ne _ _ _ _ h]
  exact setNlinks_entries _ _ _ _

theorem linked_stat_self (hlt : (s.stat entry).nlinks + 1 < 2 ^ 64) :
    (s.linked node name entry).stat entry = { s.stat entry with nlinks := (s.stat entry).nlinks + 1 } := by
  rw [linked, nextZones_stat, setEntries_stat]
  change (s.setNlinks entry _).stat entry = _
  rw [setNlinks_stat_self, Nat.mod_eq_of_lt hlt]

theorem linked_stat_of_ne (h : i ≠ entry) : (s.linked node name entry).stat i = s.stat i := by
  rw [linked, nextZones_stat, setEntries_stat]
  exact setNlinks_stat_of_ne _ _ _ _ h

theorem links_setEntries (h : node < s.ninodes) :
    (s.setEntries node l).links i + (s.entries node).countP (fun e => e.2 = i) =
      s.links i + l.countP (fun e => e.2 = i) := by
  have hmem : node ∈ Finset.range s.ninodes := Finset.mem_range.mpr h
  have hrest : ∑ d ∈ (Finset.range s.ninodes).erase node, ((s.setEntries node l).entries d).countP (fun e => e.2 = i) =
      ∑ d ∈ (Finset.range s.ninodes).erase node, (s.entries d).countP (fun e => e.2 = i) := by
    refine Finset.sum_congr rfl fun d hd => ?_
    rw [setEntries_entries_of_ne _ _ _ _ (Finset.ne_of_mem_erase hd)]
  have hnew := Finset.add_sum_erase (Finset.range s.ninodes)
    (fun d => ((s.setEntries node l).entries d).countP (fun e => e.2 = i)) hmem
  have hold := Finset.add_sum_erase (Finset.range s.ninodes) (fun d => (s.entries d).countP (fun e => e.2 = i)) hmem
  rw [hrest, setEntries_entries_self] at hnew
  have hl : (s.setEntries node l).links i =
      ∑ d ∈ Finset.range s.ninodes, ((s.setEntries node l).entries d).countP (fun e => e.2 = i) := rfl
  unfold Filesystem.links at hl ⊢
  omega

end Frame

section Changes
variable {s t : Filesystem} {node entry i : ℕ} {name : Name}

theorem links_congr (hn : t.ninodes = s.ninodes) (he : ∀ d, t.entries d = s.entries d) (i : ℕ) : t.links i = s.links i := by
  unfold Filesystem.links
  rw [hn]
  exact Finset.sum_congr rfl fun d _ => by rw [he]

theorem links_unlinked (h : s.lookup node name = some entry) (hnode : node < s.ninodes) (j i : ℕ) :
    (s.unlinked node name j).links i + (if entry = i then 1 else 0) = s.links i := by
  have hset := links_setEntries s.popUnlink node i (removeEntry (s.entries node) name) hnode
  have hperm := (removeEntry_perm (find_of_lookup h)).countP_eq (fun e => decide (e.2 = i))
  rw [List.countP_cons] at hperm
  have hl : (s.unlinked node name j).links i =
      (s.popUnlink.setEntries node (removeEntry (s.entries node) name)).links i := by
    apply links_congr
    · rfl
    · exact fun d => setNlinks_entries _ _ _ _
  have hs : s.popUnlink.links i = s.links i := rfl
  have he : s.popUnlink.entries node = s.entries node := rfl
  simp only [decide_eq_true_eq] at hperm
  rw [hl]
  rw [hs, he] at hset
  omega

theorem links_linked (h : s.lookup node name = none) (hnode : node < s.ninodes) (i : ℕ) :
    (s.linked node name entry).links i = s.links i + if entry = i then 1 else 0 := by
  have hset := links_setEntries ((s.setNlinks entry (((s.stat entry).nlinks + 1) % 2 ^ 64)).popLink) node i
    (addEntry (s.entries node) name entry) hnode
  rw [addEntry_absent (find_none_of_lookup h), List.countP_append, List.countP_singleton] at hset
  have hl : (s.linked node name entry).links i = ((s.setNlinks entry (((s.stat entry).nlinks + 1) % 2 ^ 64)).popLink.setEntries
      node (addEntry (s.entries node) name entry)).links i := rfl
  have hs : (s.setNlinks entry (((s.stat entry).nlinks + 1) % 2 ^ 64)).popLink.links i = s.links i := by
    apply links_congr
    · rfl
    · exact fun d => setNlinks_entries _ _ _ _
  have he : (s.setNlinks entry (((s.stat entry).nlinks + 1) % 2 ^ 64)).popLink.entries node = s.entries node :=
    setNlinks_entries _ _ _ _
  rw [hs, he] at hset
  rw [hl, addEntry_absent (find_none_of_lookup h)]
  simp only [decide_eq_true_eq] at hset
  omega

theorem links_pos {d : ℕ} {e : Name × ℕ} (hd : d < s.ninodes) (he : e ∈ s.entries d) : 0 < s.links e.2 := by
  refine Nat.lt_of_lt_of_le (List.countP_pos_iff.mpr ⟨e, he, by simp⟩)
    (Finset.single_le_sum (f := fun d => (s.entries d).countP fun x => x.2 = e.2) (fun _ _ => Nat.zero_le _)
      (Finset.mem_range.mpr hd))

end Changes

section Keep
variable {s : Filesystem} {node entry i j : ℕ} {name : Name}

theorem Counted.links_pos (h : Counted s) {d : ℕ} {e : Name × ℕ} (he : e ∈ s.entries d) : 0 < s.links e.2 := by
  refine Vfs.links_pos (d := d) ?_ he
  apply h.small
  by_contra hno
  rw [h.unused d (by simpa using hno)] at he
  cases he

theorem Counted.node_used (h : Counted s) {e : Name × ℕ} (he : e ∈ s.entries node) : s.used node = true := by
  by_contra hno
  rw [h.unused node (by simpa using hno)] at he
  cases he

theorem Counted.links_unused (h : Counted s) (hi : s.used i = false) : s.links i = 0 := by
  unfold Filesystem.links
  refine Finset.sum_eq_zero fun d _ => List.countP_eq_zero.mpr fun e he => ?_
  intro heq
  have := h.target d e he
  simp only [decide_eq_true_eq] at heq
  rw [heq, hi] at this
  cases this

theorem Named.links_pos (h : Counted s) (hn : Named s i) : i = s.root ∨ 0 < s.links i := by
  rcases hn with hroot | ⟨d, e, he, rfl, -⟩
  · exact Or.inl hroot
  · exact Or.inr (h.links_pos he)

theorem Named.used (h : Counted s) (hn : Named s i) : s.used i = true := by
  rcases hn with rfl | ⟨d, e, he, rfl, -⟩
  · exact h.root_used
  · exact h.target d e he

theorem Named.emptied (h : Counted s) (hn : Named s i) : Emptied s i := by
  intro hroot _ hzero
  rcases hn.links_pos h with hn | hn
  · exact absurd hn hroot
  · omega

/-- A change of the references, with inodes that are freed for it. -/
theorem Counted.of_entries {t : Filesystem} (h : Counted s) (hroot : t.root = s.root) (hn : t.ninodes = s.ninodes)
    (he : ∀ d, t.entries d = s.entries d) (hstat : ∀ j, (t.stat j).nlinks = (s.stat j).nlinks)
    (hused : ∀ j, t.used j = true → s.used j = true) (hfree : ∀ j, s.used j = true → t.used j = false →
      j ≠ s.root ∧ s.links j = 0 ∧ s.entries j = [])
    (hkept : ∀ j, t.used j = true → j = s.root ∨ 0 < s.links j ∨ 0 < t.refs j)
    (hheld : ∀ j, 0 < t.refs j → t.used j = true) : Counted t := by
  have hlinks : ∀ j, t.links j = s.links j := links_congr hn he
  have hstays : ∀ j, s.used j = true → j = s.root ∨ 0 < s.links j → t.used j = true := by
    intro j hj hor
    by_contra hno
    obtain ⟨hne, hzero, -⟩ := hfree j hj (by simpa using hno)
    rcases hor with hor | hor
    · exact hne hor
    · omega
  refine ⟨?_, fun j hj => ?_, fun j hj => ?_, fun j hj => ?_, fun j hj => ?_, fun d e hd => ?_, fun j hj => ?_, hheld,
    fun d => ?_⟩
  · rw [hroot]
    exact hstays _ h.root_used (Or.inl rfl)
  · rw [hn]
    exact h.small j (hused j hj)
  · rw [hstat, hlinks]
    exact h.count j (hused j hj)
  · rw [hstat]
    exact h.narrow j (hused j hj)
  · rw [he]
    by_cases hs : s.used j = true
    · exact (hfree j hs hj).2.2
    · exact h.unused j (by simpa using hs)
  · rw [he] at hd
    exact hstays _ (h.target d e hd) (Or.inr (h.links_pos hd))
  · rw [hroot, hlinks]
    exact hkept j hj
  · rw [he]
    exact h.dots d

theorem Counted.faults (h : Counted s) (f : Faults) : Counted { s with faults := f } :=
  ⟨h.root_used, h.small, h.count, h.narrow, h.unused, h.target, h.kept, h.held, h.dots⟩

theorem copy_refs (s : Filesystem) (i j : ℕ) : (s.vfsNodeCopy i).refs j = if j = i then s.refs i + 1 else s.refs j := by
  simp [vfsNodeCopy, Function.update_apply]

theorem Counted.copy (h : Counted s) (hi : s.used i = true) : Counted (s.vfsNodeCopy i) := by
  refine h.of_entries rfl rfl (fun _ => rfl) (fun _ => rfl) (fun _ hj => hj) (fun j hj hno => ?_) (fun j hj => ?_) fun j hj => ?_
  · change s.used j = false at hno
    rw [hj] at hno
    cases hno
  · rw [copy_refs]
    rcases h.kept j hj with hroot | hlinks | hrefs
    · exact Or.inl hroot
    · exact Or.inr (Or.inl hlinks)
    · refine Or.inr (Or.inr ?_)
      split_ifs
      · exact Nat.succ_pos _
      · exact hrefs
  · rw [copy_refs] at hj
    split_ifs at hj with hji
    · rw [hji]
      exact hi
    · exact h.held j hj

def Filesystem.release (s : Filesystem) (i : ℕ) : Filesystem :=
  { s with refs := Function.update s.refs i (s.refs i - 1) }

theorem release_refs (s : Filesystem) (i j : ℕ) : (s.release i).refs j = if j = i then s.refs i - 1 else s.refs j := by
  simp [release, Function.update_apply]

theorem vfsSuperFreeNode_done (h : DriverSafe s) (i : ℕ) : s.vfsSuperFreeNode i =
    (.ok (), { (s.setEntries i []).changeZones i { freed := s.zones i, dropped := s.zones i } with
      used := Function.update s.used i false }) := by
  have hfree : ((s.setEntries i []).changeZones i { freed := s.zones i, dropped := s.zones i }).faults.freeNode i = none :=
    h.frees i
  unfold vfsSuperFreeNode vfsNodeTrunc
  rw [h.truncates i]
  simp only [Result.checked, hfree]
  rfl

theorem DriverSafe.release (h : DriverSafe s) (i : ℕ) : DriverSafe (s.release i) :=
  h.of_same rfl rfl rfl rfl fun _ hz => hz

theorem close_eq (h : DriverSafe s) (i : ℕ) : s.vfsNodeClose i =
    if s.refs i - 1 ≠ 0 ∨ i = s.root then s.release i
    else if (s.stat i).nlinks = 0 then
      { ((s.release i).setEntries i []).changeZones i { freed := s.zones i, dropped := s.zones i } with
        used := Function.update s.used i false }
    else { s.release i with inodes := Function.update s.inodes i (written (s.inodes i)) } := by
  have hrefs : (s.release i).refs i = s.refs i - 1 := Function.update_self ..
  have hfreed := congrArg Prod.snd (vfsSuperFreeNode_done (h.release i) i)
  rw [← hrefs]
  change (if (s.release i).refs i ≠ 0 ∨ i = s.root then s.release i
    else if (s.stat i).nlinks = 0 then ((s.release i).vfsSuperFreeNode i).2
    else { s.release i with inodes := Function.update s.inodes i (written (s.inodes i)) }) = _
  rw [hfreed]
  rfl

theorem close_refs (h : DriverSafe s) (i j : ℕ) : (s.vfsNodeClose i).refs j = if j = i then s.refs i - 1 else s.refs j := by
  rw [← release_refs, close_eq h]
  split_ifs <;> rfl

theorem close_root (h : DriverSafe s) (i : ℕ) : (s.vfsNodeClose i).root = s.root := by
  rw [close_eq h]
  split_ifs <;> rfl

theorem close_ninodes (h : DriverSafe s) (i : ℕ) : (s.vfsNodeClose i).ninodes = s.ninodes := by
  rw [close_eq h]
  split_ifs <;> rfl

theorem Counted.close_same (h : Counted s) (hd : DriverSafe s) (hr : 0 < s.refs i) (he : Emptied s i) (j : ℕ) :
    (s.vfsNodeClose i).entries j = s.entries j ∧ ((s.vfsNodeClose i).stat j).nlinks = (s.stat j).nlinks := by
  have hused := h.held i hr
  rw [close_eq hd]
  split_ifs with hstay hzero
  · exact ⟨rfl, rfl⟩
  · push Not at hstay
    have hnil := he hstay.2 hused (by rw [← h.count i hused, hzero])
    by_cases hji : j = i
    · subst hji
      refine ⟨?_, by simp [stat, changeZones, setEntries, release]⟩
      change ((s.release j).setEntries j []).entries j = _
      rw [setEntries_entries_self, hnil]
    · simp [entries, stat, changeZones, setEntries, release, hji]
  · by_cases hji : j = i
    · subst hji
      refine ⟨by simp [entries, written], ?_⟩
      simp only [stat, Function.update_self, written]
      exact Nat.mod_eq_of_lt (h.narrow j hused)
    · simp [entries, stat, hji]

theorem close_used (h : DriverSafe s) (i j : ℕ) : (s.vfsNodeClose i).used j =
    if j = i ∧ s.refs i - 1 = 0 ∧ i ≠ s.root ∧ (s.stat i).nlinks = 0 then false else s.used j := by
  rw [close_eq h]
  by_cases hstay : s.refs i - 1 ≠ 0 ∨ i = s.root
  · rw [if_pos hstay, if_neg (by omega)]
    rfl
  · rw [if_neg hstay]
    push Not at hstay
    by_cases hzero : (s.stat i).nlinks = 0
    · rw [if_pos hzero]
      by_cases hji : j = i
      · rw [if_pos ⟨hji, hstay.1, hstay.2, hzero⟩, hji]
        exact Function.update_self ..
      · rw [if_neg fun hc => hji hc.1]
        exact Function.update_of_ne hji ..
    · rw [if_neg hzero, if_neg fun hc => hzero hc.2.2.2]
      rfl

/-- A close frees the inode when it has neither links nor references. -/
theorem Counted.close (h : Counted s) (hd : DriverSafe s) (hr : 0 < s.refs i) (he : Emptied s i) :
    Counted (s.vfsNodeClose i) := by
  have hused := h.held i hr
  have hsame := h.close_same hd hr he
  refine h.of_entries (close_root hd i) (close_ninodes hd i) (fun j => (hsame j).1) (fun j => (hsame j).2) (fun j hj => ?_)
    (fun j hj hno => ?_) (fun j hj => ?_) fun j hj => ?_
  · rw [close_used hd] at hj
    split_ifs at hj
    exact hj
  · rw [close_used hd] at hno
    split_ifs at hno with hfreed
    · obtain ⟨rfl, -, hroot, hzero⟩ := hfreed
      have hlinks : s.links j = 0 := by rw [← h.count j hused, hzero]
      exact ⟨hroot, hlinks, he hroot hused hlinks⟩
    · rw [hj] at hno
      cases hno
  · rw [close_used hd] at hj
    rw [close_refs hd]
    by_cases hji : j = i
    · subst hji
      have hcount := h.count j hused
      split_ifs at hj with hfreed
      rw [if_pos rfl]
      omega
    · rw [if_neg hji]
      rw [if_neg fun hc => hji hc.1] at hj
      exact h.kept j hj
  · rw [close_refs hd] at hj
    rw [close_used hd]
    by_cases hji : j = i
    · subst hji
      rw [if_pos rfl] at hj
      rw [if_neg (by omega)]
      exact hused
    · rw [if_neg hji] at hj
      rw [if_neg fun hc => hji hc.1]
      exact h.held j hj

theorem Emptied.close (h : Counted s) (hd : DriverSafe s) (hr : 0 < s.refs i) (he : Emptied s i) (hj : Emptied s j) :
    Emptied (s.vfsNodeClose i) j := by
  have hsame := h.close_same hd hr he
  have hlinks : ∀ k, (s.vfsNodeClose i).links k = s.links k := links_congr (close_ninodes hd i) fun k => (hsame k).1
  intro hroot hused hzero
  rw [close_root hd] at hroot
  rw [hlinks] at hzero
  rw [(hsame j).1]
  rw [close_used hd] at hused
  split_ifs at hused
  exact hj hroot hused hzero

theorem ZonesOwned.close (h : ZonesOwned s) (hd : DriverSafe s) (i : ℕ) : ZonesOwned (s.vfsNodeClose i) := by
  rw [close_eq hd]
  split_ifs
  · exact h.of_same rfl rfl rfl
  · refine h.freed (i := i) rfl rfl fun j => ?_
    dsimp only
    rw [Function.update_apply]
  · exact h.of_same rfl rfl rfl

theorem DriverSafe.close (h : DriverSafe s) (i : ℕ) : DriverSafe (s.vfsNodeClose i) := by
  rw [close_eq h]
  split_ifs
  · exact h.release i
  · refine h.of_same rfl rfl rfl rfl fun z hz => ?_
    rcases changeZones_zoneUsed.mp hz with ⟨hz, -⟩ | hz
    · exact hz
    · cases hz
  · exact h.of_same rfl rfl rfl rfl fun _ hz => hz

/-- The entry that is removed is the one that is counted. -/
theorem Counted.unlinked (h : Counted s) (hl : s.lookup node name = some entry)
    (hr : entry = s.root ∨ 0 < s.refs entry) : Counted (s.unlinked node name entry) := by
  have hmem := mem_of_lookup hl
  have hnode := h.node_used hmem
  have hentry := h.target node _ hmem
  have hlinks := links_unlinked hl (h.small node hnode) entry
  have hpos := h.links_pos hmem
  have hcount := h.count entry hentry
  have hnarrow := h.narrow entry hentry
  dsimp only at hpos hentry
  have hself : ((s.unlinked node name entry).stat entry).nlinks = (s.stat entry).nlinks - 1 := by
    rw [unlinked_stat_self (by omega) (by omega)]
  have hsub : ∀ d, ((s.unlinked node name entry).entries d).Subperm (s.entries d) := by
    intro d
    by_cases hd : d = node
    · subst hd
      rw [unlinked_entries_self]
      exact (List.subperm_cons_self).trans (removeEntry_perm (find_of_lookup hl)).subperm
    · rw [unlinked_entries_of_ne hd]
  refine ⟨h.root_used, h.small, fun j hj => ?_, fun j hj => ?_, fun j hj => ?_, fun d e he => ?_, fun j hj => ?_, h.held,
    fun d => ?_⟩
  · have hj' := hlinks j
    by_cases hje : j = entry
    · subst hje
      rw [if_pos rfl] at hj'
      omega
    · rw [if_neg (Ne.symm hje)] at hj'
      rw [unlinked_stat_of_ne hje, h.count j hj]
      omega
  · by_cases hje : j = entry
    · subst hje
      omega
    · rw [unlinked_stat_of_ne hje]
      exact h.narrow j hj
  · have hnil := hsub j
    rw [h.unused j hj] at hnil
    exact List.subperm_nil.mp hnil
  · exact h.target d e ((hsub d).subset he)
  · have hj' := hlinks j
    by_cases hje : j = entry
    · subst hje
      rcases hr with hr | hr
      · exact Or.inl hr
      · exact Or.inr (Or.inr hr)
    · rw [if_neg (Ne.symm hje)] at hj'
      rw [unlinked_root, unlinked_refs, show (s.unlinked node name entry).links j = s.links j by omega]
      exact h.kept j hj
  · have hd := h.dots d
    exact ⟨((hsub d).countP_le _).trans hd.1, ((hsub d).countP_le _).trans hd.2⟩

def cutName (name : Name) : Name := if 60 ≤ name.length then name.take 59 else name

theorem cutName_eq {name short : Name} (h : cutName name = short) (hshort : short.length ≤ 2) : name = short := by
  unfold cutName at h
  split_ifs at h with hlong
  · rw [← h, List.length_take] at hshort
    omega
  · exact h

theorem linked_entries (hl : s.lookup node name = none) (entry d : ℕ) : (s.linked node name entry).entries d =
    if d = node then s.entries d ++ [(cutName name, entry)] else s.entries d := by
  split_ifs with hd
  · subst hd
    rw [linked_entries_self, addEntry_absent (find_none_of_lookup hl)]
    rfl
  · exact linked_entries_of_ne _ _ _ _ _ hd

theorem countP_of_lookup (hl : s.lookup node name = none) : (s.entries node).countP (·.1 = name) = 0 :=
  List.countP_eq_zero.mpr fun e he => List.find?_eq_none.mp (find_none_of_lookup hl) e he

theorem Counted.linked (h : Counted s) (hl : s.lookup node name = none) (hnode : s.used node = true)
    (hentry : s.used entry = true) (hlt : (s.stat entry).nlinks + 1 < 2 ^ 16) : Counted (s.linked node name entry) := by
  have hlinks := fun j => @links_linked s node entry name hl (h.small node hnode) j
  have hself := linked_stat_self s node entry name (by omega)
  have hentries := linked_entries hl entry
  -- A record more of a short name is the only one.
  have hdots : ∀ short : Name, short.length ≤ 2 → (∀ d, (s.entries d).countP (·.1 = short) ≤ 1) →
      ∀ d, ((s.linked node name entry).entries d).countP (·.1 = short) ≤ 1 := by
    intro short hshort hone d
    rw [hentries]
    split_ifs with hd
    · rw [List.countP_append, List.countP_singleton]
      split_ifs with hname
      · have hname' := cutName_eq (by simpa using hname) hshort
        rw [hd, ← hname', countP_of_lookup hl]
      · exact hone d
    · exact hone d
  refine ⟨h.root_used, h.small, fun j hj => ?_, fun j hj => ?_, fun j hj => ?_, fun d e he => ?_, fun j hj => ?_, h.held,
    fun d => ⟨hdots dot (by decide) (fun d => (h.dots d).1) d, hdots dotDot (by decide) (fun d => (h.dots d).2) d⟩⟩
  · rw [hlinks]
    by_cases hje : j = entry
    · subst hje
      rw [hself, if_pos rfl, ← h.count j hj]
    · rw [linked_stat_of_ne _ _ _ _ _ hje, if_neg (Ne.symm hje)]
      exact h.count j hj
  · by_cases hje : j = entry
    · subst hje
      rw [hself]
      exact hlt
    · rw [linked_stat_of_ne _ _ _ _ _ hje]
      exact h.narrow j hj
  · have hne : j ≠ node := by
      rintro rfl
      rw [linked_used, hnode] at hj
      cases hj
    rw [hentries, if_neg hne]
    exact h.unused j hj
  · rw [hentries] at he
    split_ifs at he
    · rcases List.mem_append.mp he with he | he
      · exact h.target d e he
      · rw [List.mem_singleton.mp he]
        exact hentry
    · exact h.target d e he
  · rw [hlinks]
    rcases h.kept j hj with hroot | hpos | hrefs
    · exact Or.inl hroot
    · exact Or.inr (Or.inl (by omega))
    · exact Or.inr (Or.inr hrefs)

theorem Emptied.unlinked (h : Counted s) (hl : s.lookup node name = some entry) (hj : Emptied s j) (hne : j ≠ entry) :
    Emptied (s.unlinked node name entry) j := by
  intro hroot hused hzero
  have hlinks := links_unlinked hl (h.small node (h.node_used (mem_of_lookup hl))) entry j
  rw [if_neg hne.symm, hzero] at hlinks
  have hnil := hj hroot hused hlinks.symm
  by_cases hjn : j = node
  · subst hjn
    have hmem := mem_of_lookup hl
    rw [hnil] at hmem
    cases hmem
  · rw [unlinked_entries_of_ne hjn, hnil]

theorem Emptied.linked (h : Counted s) (hl : s.lookup node name = none) (hnode : s.used node = true) (hj : Emptied s j)
    (hnamed : j = node → j = s.root ∨ 0 < s.links j) : Emptied (s.linked node name entry) j := by
  intro hroot hused hzero
  rw [links_linked hl (h.small node hnode)] at hzero
  have hjn : j ≠ node := by
    intro hjn
    rcases hnamed hjn with hjr | hpos
    · exact hroot hjr
    · omega
  rw [linked_entries_of_ne _ _ _ _ _ hjn]
  exact hj hroot hused (by omega)

theorem Named.unlinked (hn : Named s i) (hl : s.lookup node name = some entry)
    (hother : name = dot ∨ name = dotDot ∨ entry ≠ i) : Named (s.unlinked node name j) i := by
  rcases hn with hroot | ⟨d, e, he, rfl, hdot, hdotDot⟩
  · exact Or.inl hroot
  · refine Or.inr ⟨d, e, ?_, rfl, hdot, hdotDot⟩
    by_cases hd : d = node
    · subst hd
      rw [unlinked_entries_self]
      rcases List.mem_cons.mp ((removeEntry_perm (find_of_lookup hl)).symm.subset he) with heq | hmem
      · subst heq
        simp_all
      · exact hmem
    · rw [unlinked_entries_of_ne hd]
      exact he

theorem Named.linked (hn : Named s i) (hl : s.lookup node name = none) : Named (s.linked node name entry) i := by
  rcases hn with hroot | ⟨d, e, he, rfl, hdots⟩
  · exact Or.inl hroot
  · refine Or.inr ⟨d, e, ?_, rfl, hdots⟩
    rw [linked_entries hl]
    split_ifs
    · exact List.mem_append_left _ he
    · exact he

def Filesystem.created (s : Filesystem) (i : ℕ) (stat : Minix.VfsStat) : Filesystem :=
  { vfsNodeCopy { s with used := Function.update s.used i true } i with inodes := Function.update s.inodes i { stat := stat } }

theorem freeInode_spec (h : s.freeInode = some i) : i < s.ninodes ∧ s.used i = false := by
  have hmem := List.mem_of_find?_eq_some h
  have hfree := List.find?_some h
  exact ⟨List.mem_range.mp hmem, by simpa using hfree⟩

theorem created_used (s : Filesystem) (i j : ℕ) (stat : Minix.VfsStat) :
    (s.created i stat).used j = if j = i then true else s.used j := by
  simp [created, vfsNodeCopy, Function.update_apply]

theorem created_refs (s : Filesystem) (i j : ℕ) (stat : Minix.VfsStat) :
    (s.created i stat).refs j = if j = i then s.refs i + 1 else s.refs j := by
  simp [created, vfsNodeCopy, Function.update_apply]

theorem created_stat (s : Filesystem) (i j : ℕ) (stat : Minix.VfsStat) :
    (s.created i stat).stat j = if j = i then stat else s.stat j := by
  unfold Filesystem.stat created
  simp only [Function.update_apply]
  split_ifs <;> rfl

theorem Counted.created_entries (h : Counted s) (hfree : s.freeInode = some i) (stat : Minix.VfsStat) (j : ℕ) :
    (s.created i stat).entries j = s.entries j := by
  unfold Filesystem.entries created
  simp only [Function.update_apply]
  split_ifs with hji
  · rw [hji]
    exact (h.unused i (freeInode_spec hfree).2).symm
  · rfl

theorem Counted.created (h : Counted s) (hfree : s.freeInode = some i) {stat : Minix.VfsStat} (hstat : stat.nlinks = 0) :
    Counted (s.created i stat) := by
  obtain ⟨hlt, hunused⟩ := freeInode_spec hfree
  have hentries := h.created_entries hfree stat
  have hlinks : ∀ j, (s.created i stat).links j = s.links j := links_congr rfl hentries
  refine ⟨?_, fun j hj => ?_, fun j hj => ?_, fun j hj => ?_, fun j hj => ?_, fun d e he => ?_, fun j hj => ?_, fun j hj => ?_,
    fun d => ?_⟩
  · rw [created_used]
    split_ifs
    · rfl
    · exact h.root_used
  · rw [created_used] at hj
    split_ifs at hj with hji
    · rw [hji]
      exact hlt
    · exact h.small j hj
  · rw [created_used] at hj
    rw [created_stat, hlinks]
    split_ifs at hj ⊢ with hji
    · rw [hji, hstat, h.links_unused hunused]
    · exact h.count j hj
  · rw [created_used] at hj
    rw [created_stat]
    split_ifs at hj ⊢ with hji
    · rw [hstat]
      decide
    · exact h.narrow j hj
  · rw [created_used] at hj
    rw [hentries]
    split_ifs at hj
    exact h.unused j hj
  · rw [hentries] at he
    rw [created_used]
    split_ifs
    · rfl
    · exact h.target d e he
  · rw [created_used] at hj
    rw [hlinks, created_refs]
    split_ifs at hj ⊢ with hji
    · exact Or.inr (Or.inr (Nat.succ_pos _))
    · exact h.kept j hj
  · rw [created_refs] at hj
    rw [created_used]
    split_ifs at hj ⊢ with hji
    · rfl
    · exact h.held j hj
  · rw [hentries]
    exact h.dots d

theorem Emptied.created (h : Counted s) (hfree : s.freeInode = some i) (stat : Minix.VfsStat) (hj : Emptied s j) :
    Emptied (s.created i stat) j := by
  have hlinks : ∀ j, (s.created i stat).links j = s.links j := links_congr rfl (h.created_entries hfree stat)
  intro hroot hused hzero
  rw [hlinks] at hzero
  rw [h.created_entries hfree]
  rw [created_used] at hused
  split_ifs at hused with hji
  · rw [hji]
    exact h.unused i (freeInode_spec hfree).2
  · exact hj hroot hused hzero

end Keep

end SomeOs.Vfs
