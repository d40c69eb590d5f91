import SomeOs.Vfs.SplitPath
import SomeOs.Vfs.Walks

/-! # Lookups as functions of the tree

What a lookup finds, and which mount points it passes, are functions of the tree. Whatever follows
the references through copies and closes follows them through a lookup: they are those to what was
found and to the mount points.
-/
namespace SomeOs.Vfs
open Segments

def Tree.mountPoints (t : Tree) : ℕ → NodeId → List NodeId
  | 0, _ => []
  | depth + 1, n =>
    match t.mounted n with
    | none => []
    | some sb => n :: t.mountPoints depth (sb, t.rootNode sb)

def goUp (curr : NodeId) (dirs : List NodeId) : NodeId := if 1 < dirs.length then dirs.headD curr else curr

/-- What a walk finds, and the mount points that it passes. -/
def Tree.lookup (t : Tree) (process : Option User) (skip : Bool) :
    List Name → NodeId → List NodeId → List Name → Except ErrorKind (NodeId × List Name) × List NodeId
  | [], curr, _, segs =>
    (.ok (t.followMounts (t.depth curr) curr skip, segs.reverse), if skip then [] else t.mountPoints (t.depth curr) curr)
  | name :: rest, curr, dirs, segs =>
    if t.isDir curr = false then (.error .ENOTDIR, [])
    else if name = dot then t.lookup process skip rest curr dirs segs
    else if name = dotDot then t.lookup process skip rest (goUp curr dirs) (if 1 < dirs.length then dirs.tail else dirs) segs.tail
    else
      match t.below process curr name with
      | .error e => (.error e, t.mountPoints (t.depth curr) curr)
      | .ok n =>
        let r := t.lookup process skip rest n (curr :: dirs) (name :: segs)
        (r.1, t.mountPoints (t.depth curr) curr ++ r.2)

namespace VirtualFilesystem

/-- What `vfsLookupNodeAt` and the functions below it find, and the mount points that they pass. -/
def lookupExactAbs (s : VirtualFilesystem) (process : Option User) (path : List UInt8) (flags : LookupFlags) :
    Except ErrorKind (NodeId × List UInt8 × List Name) × List NodeId :=
  match s.mountFor path with
  | none => (.error .ENOENT, [])
  | some ( at_prefix, sb) =>
    let r := s.tree.lookup process flags.skipLastMount (segments slash (path.drop at_prefix.length)) (sb, s.tree.rootNode sb)
      [(sb, s.tree.rootNode sb)] []
    (match r.1 with
      | .error e => .error e
      | .ok (n, segs) => .ok (n, at_prefix, segs), r.2)

def lookupAbs (s : VirtualFilesystem) (process : Option User) (path : List UInt8) (flags : LookupFlags) :
    Except ErrorKind (NodeId × List UInt8 × List Name) × List NodeId :=
  s.lookupExactAbs process (if flags.parent then cString ((getParentPath (path ++ [0])).getD []) else path) flags

def lookupAt (s : VirtualFilesystem) (process : Option User) (file : Option (List UInt8)) (path : List UInt8)
    (flags : LookupFlags) : Except ErrorKind (NodeId × List UInt8 × List Name) × List NodeId :=
  match absolutePath file path with
  | some absolute_path => s.lookupAbs process absolute_path flags
  | none => (.error .EINVAL, [])

end VirtualFilesystem

def found {α : Type} (r : Except ErrorKind (NodeId × α)) : List NodeId :=
  match r with
  | .error _ => []
  | .ok (n, _) => [n]

structure Accounts (R : VirtualFilesystem → Multiset NodeId → Prop) : Prop where
  copy : ∀ {s held} n, R s held → R (s.vfsNodeCopy n) (n ::ₘ held)
  close : ∀ {s held} n, R s (n ::ₘ held) → R (s.vfsNodeClose n) held

section Walk
variable {R : VirtualFilesystem → Multiset NodeId → Prop} {s : VirtualFilesystem} {process : Option User} {start n : NodeId}
  {w : Walk} {held : Multiset NodeId}

theorem Accounts.closeAll (hR : Accounts R) {dirs : List NodeId} (h : R s (↑dirs + held)) :
    R (dirs.foldl VirtualFilesystem.vfsNodeClose s) held := by
  induction dirs generalizing s with
  | nil => simpa using h
  | cons d dirs ih =>
    rw [← Multiset.cons_coe, Multiset.cons_add] at h
    exact ih (hR.close d h)

theorem Accounts.followAll (hR : Accounts R) (depth : ℕ) (h : R s (n ::ₘ held)) :
    R (VirtualFilesystem.vfsFollowMounts depth s n false).2
      (s.tree.followMounts depth n false ::ₘ (↑(s.tree.mountPoints depth n) + held)) := by
  induction depth generalizing s n held with
  | zero => simpa [VirtualFilesystem.vfsFollowMounts, Tree.followMounts, Tree.mountPoints] using h
  | succ depth ih =>
    unfold VirtualFilesystem.vfsFollowMounts Tree.followMounts Tree.mountPoints
    cases s.tree.mounted n with
    | none => simpa using h
    | some sb =>
      have hnext := ih (hR.copy (sb, s.tree.rootNode sb) h)
      rw [vfsNodeCopy_tree, Multiset.add_cons] at hnext
      simpa [← Multiset.cons_coe, Multiset.cons_add] using hnext

theorem Accounts.followLast (hR : Accounts R) (depth : ℕ) (h : R s (n ::ₘ held)) :
    R (VirtualFilesystem.vfsFollowMounts depth s n true).2 (s.tree.followMounts depth n true ::ₘ held) := by
  induction depth generalizing s n with
  | zero => exact h
  | succ depth ih =>
    unfold VirtualFilesystem.vfsFollowMounts Tree.followMounts
    cases s.tree.mounted n with
    | none => exact h
    | some sb =>
      have hcopy := hR.copy (sb, s.tree.rootNode sb) h
      dsimp only
      rw [vfsNodeCopy_tree]
      cases s.tree.mounted (sb, s.tree.rootNode sb) with
      | none => simpa using hR.close _ hcopy
      | some sb' =>
        rw [Multiset.cons_swap] at hcopy
        simpa using ih (hR.close n hcopy)

theorem cons_held (n : NodeId) (dirs passed : List NodeId) (held : Multiset NodeId) :
    n ::ₘ ((passed : Multiset NodeId) + (↑dirs + held)) = ↑(n :: dirs) + (↑passed + held) := by
  rw [← Multiset.cons_coe, Multiset.cons_add, add_left_comm]

/-- A walk holds the current node and the directories, and all that is kept of the others is the mount points. -/
theorem walkSegments_accounts (hR : Accounts R) (skip : Bool) (names : List Name) {t : Tree}
    (h : Walking t process start w) (hvfs : R w.vfs (↑(w.curr :: w.dirs) + held)) :
    ∃ (err : Option ErrorKind) (w' : Walk) (passed : List NodeId),
      walkSegments process names w = some (err, w') ∧ w'.vfs.tree = t ∧ R w'.vfs (↑(w'.curr :: w'.dirs) + (↑passed + held)) ∧
      t.lookup process skip names w.curr w.dirs w.segs = match err with
        | some e => (.error e, passed)
        | none => (.ok (t.followMounts (t.depth w'.curr) w'.curr skip, w'.segs.reverse),
            passed ++ if skip then [] else t.mountPoints (t.depth w'.curr) w'.curr) := by
  induction names generalizing w held with
  | nil => exact ⟨none, w, [], rfl, h.tree, by simpa using hvfs, by simp [Tree.lookup]⟩
  | cons name names ih =>
    obtain ⟨err₁, w₁, hstep, htree₁, hok⟩ := walkSegment_spec h name
    rw [Tree.lookup]
    rcases walkSegment_cases h name with ⟨hdir, he⟩ | ⟨hdir, hc⟩
    · exact ⟨some .ENOTDIR, w, [], by simp [walkSegments, he], h.tree, by simpa using hvfs, by simp [hdir]⟩
    simp only [hdir, Bool.true_eq_false, if_false]
    rcases hc with ⟨hdot, he⟩ | ⟨hdots, hdirs, hsegs, he⟩ | ⟨hdots, d, dirs, seg, segs, hdirs, hsegs, htrail, he⟩ |
      ⟨hdot, hdots, hc⟩
    · obtain ⟨err, w', passed, hwalk, htree, hrefs, hlookup⟩ := ih h hvfs
      exact ⟨err, w', passed, by simp [walkSegments, he, hwalk], htree, hrefs, by rw [if_pos hdot]; exact hlookup⟩
    · obtain ⟨err, w', passed, hwalk, htree, hrefs, hlookup⟩ := ih h hvfs
      refine ⟨err, w', passed, by simp [walkSegments, he, hwalk], htree, hrefs, ?_⟩
      rw [if_neg (by rw [hdots]; decide), if_pos hdots, ← hlookup, hdirs, hsegs]
      rfl
    · rw [he] at hstep
      cases hstep
      obtain ⟨e, dirs, rfl⟩ := List.exists_cons_of_length_eq_add_one htrail.length
      have hclosed : R (w.vfs.vfsNodeClose w.curr) (↑(d :: e :: dirs) + held) := by
        rw [hdirs, ← Multiset.cons_coe, Multiset.cons_add] at hvfs
        exact hR.close w.curr hvfs
      obtain ⟨err, w', passed, hwalk, htree, hrefs, hlookup⟩ := ih (hok rfl).1 hclosed
      refine ⟨err, w', passed, by simp [walkSegments, he, hwalk], htree, hrefs, ?_⟩
      rw [if_neg (by rw [hdots]; decide), if_pos hdots, hdirs, hsegs, ← hlookup]
      simp [goUp]
    · have hroot : w.mountedRoot = t.followMounts (t.depth w.curr) w.curr false := by rw [Walk.mountedRoot, h.tree]
      have henter : R (enter w) (w.mountedRoot ::ₘ
        (↑(t.mountPoints (t.depth w.curr) w.curr) + (↑(w.curr :: w.dirs) + held))) := by
        have hfollow := hR.followAll (w.vfs.tree.depth w.curr) (hR.copy w.curr hvfs)
        rw [vfsNodeCopy_tree, h.tree, ← hroot] at hfollow
        rw [enter, h.tree]
        exact hfollow
      rw [if_neg hdot, if_neg hdots]
      rcases hc with ⟨e, hbelow, he⟩ | ⟨n, hbelow, he⟩
      · rw [hbelow]
        rw [he] at hstep
        cases hstep
        refine ⟨some e, w.push (enter w) w.mountedRoot name, t.mountPoints (t.depth w.curr) w.curr,
          by simp [walkSegments, he], htree₁, ?_, rfl⟩
        rw [cons_held] at henter
        exact henter
      · rw [he] at hstep
        cases hstep
        have hfound : R (((enter w).vfsNodeCopy n).vfsNodeClose w.mountedRoot)
            (↑(n :: w.curr :: w.dirs) + (↑(t.mountPoints (t.depth w.curr) w.curr) + held)) := by
          have hcopy := hR.copy n henter
          rw [Multiset.cons_swap] at hcopy
          rw [← cons_held]
          exact hR.close _ hcopy
        obtain ⟨err, w', passed, hwalk, htree, hrefs, hlookup⟩ := ih (hok rfl).1 hfound
        refine ⟨err, w', t.mountPoints (t.depth w.curr) w.curr ++ passed, by simp [walkSegments, he, hwalk], htree, ?_, ?_⟩
        · rwa [← Multiset.coe_add, add_assoc, add_left_comm (t.mountPoints (t.depth w.curr) w.curr : Multiset NodeId)]
        · rw [hbelow]
          dsimp only [Walk.push] at hlookup
          simp only [hlookup]
          cases err <;> simp

theorem vfsLookupNode_accounts (hR : Accounts R) (h : R s held) (process : Option User) (start : NodeId) (path : List UInt8)
    (flags : LookupFlags) :
    ∃ u, s.vfsLookupNode process start path flags =
        some ((s.tree.lookup process flags.skipLastMount (segments slash path) start [start] []).1, u) ∧
      R u (↑(found (s.tree.lookup process flags.skipLastMount (segments slash path) start [start] []).1 ++
        (s.tree.lookup process flags.skipLastMount (segments slash path) start [start] []).2) + held) := by
  have hstart : R (startWalk s start).vfs (↑((startWalk s start).curr :: (startWalk s start).dirs) + held) := by
    change R _ (↑[start, start] + held)
    rw [← Multiset.cons_coe, Multiset.cons_add, ← Multiset.cons_coe, Multiset.cons_add, Multiset.coe_nil, zero_add]
    exact hR.copy start (hR.copy start h)
  obtain ⟨err, w, passed, hwalk, htree, hrefs, hlookup⟩ :=
    walkSegments_accounts hR flags.skipLastMount (segments slash path) (@walking_start s process start) hstart
  have hlookup : s.tree.lookup process flags.skipLastMount (segments slash path) start [start] [] = _ := hlookup
  have hclosed : R (w.dirs.reverse.foldl VirtualFilesystem.vfsNodeClose w.vfs) (w.curr ::ₘ (↑passed + held)) := by
    refine hR.closeAll ?_
    rwa [Multiset.coe_reverse, Multiset.add_cons, ← Multiset.cons_add, Multiset.cons_coe]
  have htree' := (@foldl_vfsNodeClose_tree w.vfs w.dirs.reverse).trans htree
  unfold VirtualFilesystem.vfsLookupNode
  change ∃ u, (walkSegments process (pathSegments path) (startWalk s start)).map _ = _ ∧ _
  rw [pathSegments_eq, hwalk, Option.map_some, hlookup]
  dsimp only
  cases err with
  | some e => exact ⟨_, rfl, hR.close _ hclosed⟩
  | none =>
    dsimp only
    rw [vfsFollowMounts_fst, htree']
    refine ⟨_, rfl, ?_⟩
    cases flags.skipLastMount with
    | true =>
      have := hR.followLast (s.tree.depth w.curr) hclosed
      rw [htree'] at this
      simpa [found, ← Multiset.cons_coe, Multiset.cons_add] using this
    | false =>
      have := hR.followAll (s.tree.depth w.curr) hclosed
      rw [htree', add_left_comm] at this
      simpa [found, ← Multiset.cons_coe, Multiset.cons_add, ← Multiset.coe_add, add_assoc] using this

end Walk

section Strings
variable {path : List UInt8}

theorem scanBack_le (p : UInt8 → Bool) {n : ℕ} (hn : n < path.length) : ∃ m ≤ n, scanBack p path n = some m := by
  induction n with
  | zero => exact ⟨0, le_refl 0, rfl⟩
  | succ n ih =>
    rw [scanBack, List.getElem?_eq_getElem hn, Option.bind_some]
    split_ifs
    · obtain ⟨m, hm, he⟩ := ih (by omega)
      exact ⟨m, by omega, he⟩
    · exact ⟨n + 1, le_refl _, rfl⟩

theorem dropSlashes_le {n : ℕ} (hn : n ≤ path.length) : ∃ m ≤ n, dropSlashes path n = some m := by
  induction n with
  | zero => exact ⟨0, le_refl 0, rfl⟩
  | succ n ih =>
    rw [dropSlashes, List.getElem?_eq_getElem (by omega), Option.bind_some]
    split_ifs
    · obtain ⟨m, hm, he⟩ := ih (by omega)
      exact ⟨m, by omega, he⟩
    · exact ⟨n + 1, le_refl _, rfl⟩

theorem exists_parentPath (h0 : 0 ∉ path) (hne : path ≠ []) : ∃ parent_path, getParentPath (path ++ [0]) = some parent_path := by
  obtain ⟨last, hlast⟩ := Nat.exists_eq_add_one_of_ne_zero (List.length_pos_of_ne_nil hne).ne'
  have hlen : (path ++ [0]).length = last + 2 := by simp [hlast]
  obtain ⟨m₁, h₁, e₁⟩ := scanBack_le (· = slash) (show last < (path ++ [0]).length by omega)
  obtain ⟨m₂, h₂, e₂⟩ := scanBack_le (· ≠ slash) (show m₁ < (path ++ [0]).length by omega)
  obtain ⟨m₃, h₃, e₃⟩ := dropSlashes_le (show m₂ ≤ (path ++ [0]).length by omega)
  unfold getParentPath
  rw [cString_string h0, hlast]
  dsimp only
  rw [e₁, Option.bind_some, e₂, Option.bind_some, e₃, Option.bind_some, List.getElem?_eq_getElem (by omega), Option.bind_some,
    store, if_pos (by split_ifs <;> omega)]
  exact ⟨_, rfl⟩

theorem absolutePath_string {file : Option (List UInt8)} {absolute_path : List UInt8} (h0 : 0 ∉ path)
    (hfile : ∀ cwd ∈ file, 0 ∉ cwd)
    (h : absolutePath file path = some absolute_path) : 0 ∉ absolute_path ∧ absolute_path ≠ [] := by
  unfold absolutePath at h
  split_ifs at h with habs
  · cases h
    exact ⟨h0, fun hnil => by simp [hnil, isAbsolute] at habs⟩
  · obtain ⟨cwd, hcwd, rfl⟩ := Option.map_eq_some_iff.mp h
    exact ⟨by simpa [hfile cwd hcwd, h0] using by decide, by simp⟩

end Strings

section Lookups
variable {R : VirtualFilesystem → Multiset NodeId → Prop} {s : VirtualFilesystem} {process : Option User}
  {file : Option (List UInt8)} {path : List UInt8} {flags : LookupFlags} {held : Multiset NodeId}

theorem vfsLookupNodeAtExactAbs_accounts (hR : Accounts R) (h : R s held) :
    ∃ u, s.vfsLookupNodeAtExactAbs process path flags = some ((s.lookupExactAbs process path flags).1, u) ∧
      R u (↑(found (s.lookupExactAbs process path flags).1 ++ (s.lookupExactAbs process path flags).2) + held) := by
  unfold VirtualFilesystem.vfsLookupNodeAtExactAbs VirtualFilesystem.lookupExactAbs
  cases s.mountFor path with
  | none => exact ⟨s, rfl, by simpa [found] using h⟩
  | some mount =>
    obtain ⟨ at_prefix, sb⟩ := mount
    dsimp only
    obtain ⟨u, hlookup, hu⟩ := vfsLookupNode_accounts hR (hR.copy (sb, s.tree.rootNode sb) h) process (sb, s.tree.rootNode sb)
      (path.drop at_prefix.length) flags
    rw [vfsNodeCopy_tree] at hlookup hu
    rw [hlookup, Option.map_some]
    rw [Multiset.add_cons] at hu
    refine ⟨_, rfl, ?_⟩
    cases hr : (s.tree.lookup process flags.skipLastMount (segments slash (path.drop at_prefix.length)) (sb, s.tree.rootNode sb)
        [(sb, s.tree.rootNode sb)] []).1 <;> rw [hr] at hu <;> exact hR.close _ hu

/-- What is found is that of the tree, and the references are those to it and to the mount points. -/
theorem vfsLookupNodeAt_accounts (hR : Accounts R) (h : R s held) (process : Option User) (flags : LookupFlags) (h0 : 0 ∉ path)
    (hfile : ∀ cwd ∈ file, 0 ∉ cwd) :
    ∃ u, s.vfsLookupNodeAt process file path flags = some ((s.lookupAt process file path flags).1, u) ∧
      R u (↑(found (s.lookupAt process file path flags).1 ++ (s.lookupAt process file path flags).2) + held) := by
  unfold VirtualFilesystem.vfsLookupNodeAt VirtualFilesystem.lookupAt
  cases hpath : absolutePath file path with
  | none => exact ⟨s, rfl, by simpa [found] using h⟩
  | some absolute_path =>
    obtain ⟨habs0, hne⟩ := absolutePath_string h0 hfile hpath
    obtain ⟨parent_path, hparent⟩ := exists_parentPath habs0 hne
    dsimp only
    unfold VirtualFilesystem.vfsLookupNodeAtAbs VirtualFilesystem.lookupAbs
    cases flags.parent with
    | true => simpa [hparent] using vfsLookupNodeAtExactAbs_accounts hR h
    | false => simpa using vfsLookupNodeAtExactAbs_accounts hR h

end Lookups

end SomeOs.Vfs
