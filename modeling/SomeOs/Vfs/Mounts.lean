import SomeOs.Vfs.MountTree

/-! # Mounting and unmounting

A mount hangs a superblock on the node that a path leads to, on top of what is mounted there, and
unmounting takes off the last one. A path that leads through the node it is mounted on is lost to
the mount. What a failing call leaves of the references of its lookup is left out here.
-/
namespace SomeOs.Vfs
open Segments

namespace VirtualFilesystem

def vfsSuperClose (s : VirtualFilesystem) (sb : ℕ) : VirtualFilesystem :=
  { s with superRefs := Function.update s.superRefs sb (s.superRefs sb - 1) }

/-- `vfsMount` when there is a root. The node stays referenced, as does the superblock. -/
def vfsMountAt (s : VirtualFilesystem) (process : Option User) (file : Option (List UInt8)) (path : List UInt8) (sb : ℕ) :
    Option (Except ErrorKind Unit × VirtualFilesystem) :=
  (s.vfsLookupNodeAt process file path {}).map fun
  | (.error e, s) => (.error e, s)
  | (.ok (node, _), s) =>
    if (s.tree.mounted node).isSome then (.error .EINVAL, s.vfsNodeClose node)
    else if ¬s.tree.isDir node then (.error .ENOTDIR, s.vfsNodeClose node)
    else (.ok (), { s with tree := s.tree.mount node sb })

/-- The temporary mounts are made again when there is a root, without a process. One that cannot be
made is thrown away. -/
def mountTmp : List (List UInt8 × ℕ) → VirtualFilesystem → Option VirtualFilesystem
  | [], s => some s
  | ( at_prefix, sb) :: mounts, s =>
    if isAbsolute at_prefix then
      (vfsMountAt { s with tmp_mounted := mounts } none none at_prefix sb).bind fun
      | (.error _, s) => mountTmp mounts (s.vfsSuperClose sb)
      | (.ok _, s) => mountTmp mounts s
    else none

def vfsMount (fuel : ℕ) (s : VirtualFilesystem) (process : Option User) (file : Option (List UInt8)) (path : List UInt8)
    (sb : ℕ) : Option (Except ErrorKind Unit × VirtualFilesystem) :=
  match s.root_mounted with
  | none =>
    (inlineReducePath fuel (path ++ [0])).bind fun path_copy =>
      if cString path_copy = [slash] then
        (mountTmp s.tmp_mounted { s with root_mounted := some sb }).map fun s => (.ok (), s)
      else some (.ok (), { s with tmp_mounted := (cString path_copy, sb) :: s.tmp_mounted })
  | some _ => s.vfsMountAt process file path sb

def vfsUmount (fuel : ℕ) (s : VirtualFilesystem) (process : Option User) (file : Option (List UInt8)) (path : List UInt8) :
    Option (Except ErrorKind Unit × VirtualFilesystem) :=
  match s.root_mounted with
  | none =>
    (inlineReducePath fuel (path ++ [0])).map fun path_copy =>
      match s.tmp_mounted.find? (·.1 = cString path_copy) with
      | none => (.error .ENOENT, s)
      | some (_, sb) => (.ok (), { s with tmp_mounted := s.tmp_mounted.eraseP (·.1 = cString path_copy) }.vfsSuperClose sb)
  | some root =>
    if path = [slash] ∧ s.tree.mounted (root, s.tree.rootNode root) = none then
      some (.ok (), { s with root_mounted := none }.vfsSuperClose root)
    else
      (s.vfsLookupNodeAt process file path { skipLastMount := true }).map fun
      | (.error e, s) => (.error e, s)
      | (.ok (node, _), s) =>
        match s.tree.mounted node with
        | none => (.error .EINVAL, s.vfsNodeClose node)
        | some sb =>
          let s := s.vfsSuperClose sb
          -- the second reference is that of the mount
          (.ok (), ({ s with tree := s.tree.umount node }.vfsNodeClose node).vfsNodeClose node)

def pathNode (s : VirtualFilesystem) (process : Option User) (file : Option (List UInt8)) (path : List UInt8) :
    Option (Except ErrorKind NodeId) :=
  (s.vfsLookupNodeAt process file path {}).map fun r => r.1.map Prod.fst

/-- A name of the path is looked up in `n`. -/
def PassesThrough (s : VirtualFilesystem) (process : Option User) (file : Option (List UInt8)) (path : List UInt8) (n : NodeId) :
    Prop :=
  ∃ root absolute_path, s.root_mounted = some root ∧ absolutePath file path = some absolute_path ∧
    s.tree.Enters process n (segments slash absolute_path) (root, s.tree.rootNode root) [(root, s.tree.rootNode root)]

def Unused (s : VirtualFilesystem) (sb : ℕ) : Prop := s.tree.Unused sb ∧ s.root_mounted ≠ some sb

def SameNodes (s u : VirtualFilesystem) : Prop :=
  ∀ process file path, 0 ∉ path → (∀ cwd ∈ file, 0 ∉ cwd) → u.pathNode process file path = s.pathNode process file path

/-- The superblocks are mounted at the path, one on the other. -/
def mountAll (fuel : ℕ) (process : Option User) (file : Option (List UInt8)) (path : List UInt8) :
    List ℕ → VirtualFilesystem → Option VirtualFilesystem
  | [], s => some s
  | sb :: sbs, s =>
    match s.vfsMount fuel process file path sb with
    | some (.ok _, u) => mountAll fuel process file path sbs u
    | _ => none

/-- The path is unmounted as often as `k` says. -/
def umountAll (fuel : ℕ) (process : Option User) (file : Option (List UInt8)) (path : List UInt8) (s : VirtualFilesystem) :
    ℕ → Option VirtualFilesystem
  | 0 => some s
  | k + 1 => (umountAll fuel process file path s k).bind fun s =>
    match s.vfsUmount fuel process file path with
    | some (.ok _, u) => some u
    | _ => none

/-- What the path leads to when superblocks are mounted on `n`, the last one on top. -/
def onTop (s : VirtualFilesystem) (n : NodeId) (sbs : List ℕ) : NodeId :=
  match sbs.getLast? with
  | none => n
  | some sb => (sb, s.tree.rootNode sb)

structure Alike (s u : VirtualFilesystem) : Prop where
  tree : s.tree.Alike u.tree
  root_mounted : s.root_mounted = u.root_mounted
  tmp_mounted : s.tmp_mounted = u.tmp_mounted

/-- Where a path leads to from the root, before the mounts of the last node. -/
def rootWalk (s : VirtualFilesystem) (process : Option User) (file : Option (List UInt8)) (path : List UInt8) (root : ℕ) :
    Except ErrorKind NodeId :=
  match absolutePath file path with
  | none => .error .EINVAL
  | some absolute_path => (s.tree.walkTo process (segments slash absolute_path) (root, s.tree.rootNode root)
      [(root, s.tree.rootNode root)] []).map Prod.fst

section
variable {s u v : VirtualFilesystem} {process : Option User} {file : Option (List UInt8)} {path : List UInt8}
  {flags : LookupFlags} {root sb fuel k : ℕ} {n : NodeId} {sbs : List ℕ}

theorem lookup_frame (h0 : 0 ∉ path) (hfile : ∀ cwd ∈ file, 0 ∉ cwd) (flags : LookupFlags) :
    ∃ u, s.vfsLookupNodeAt process file path flags = some ((s.lookupAt process file path flags).1, u) ∧
      u.tree = s.tree ∧ u.root_mounted = s.root_mounted ∧ u.tmp_mounted = s.tmp_mounted := by
  have hframe : Accounts fun u _ => u.tree = s.tree ∧ u.root_mounted = s.root_mounted ∧ u.tmp_mounted = s.tmp_mounted :=
    ⟨fun _ h => h, fun _ h => h⟩
  exact @vfsLookupNodeAt_accounts _ s file path 0 hframe ⟨rfl, rfl, rfl⟩ process flags h0 hfile

theorem lookupAt_root (hroot : s.root_mounted = some root) (skip : Bool) :
    (s.lookupAt process file path { skipLastMount := skip }).1.map Prod.fst =
      (s.rootWalk process file path root).map fun c => s.tree.followMounts (s.tree.depth c) c skip := by
  unfold lookupAt rootWalk
  cases habs : absolutePath file path with
  | none => rfl
  | some absolute_path =>
    have hmount : s.mountFor absolute_path = some ([], root) := by rw [mountFor, hroot]
    simp only [lookupAbs, Bool.false_eq_true, if_false, lookupExactAbs, hmount, List.length_nil, List.drop_zero, Tree.lookup_fst]
    cases s.tree.walkTo process (segments slash absolute_path) (root, s.tree.rootNode root)
      [(root, s.tree.rootNode root)] [] <;> rfl

theorem pathNode_eq (hroot : s.root_mounted = some root) (h0 : 0 ∉ path) (hfile : ∀ cwd ∈ file, 0 ∉ cwd) :
    s.pathNode process file path = some ((s.rootWalk process file path root).map s.tree.top) := by
  obtain ⟨u, hu, -⟩ := @lookup_frame s process file path h0 hfile {}
  rw [pathNode, hu, Option.map_some]
  exact congrArg some (lookupAt_root hroot false)

theorem Alike.rootWalk (h : s.Alike u) : u.rootWalk process file path root = s.rootWalk process file path root := by
  unfold VirtualFilesystem.rootWalk
  rw [← h.tree.rootNode]
  simp only [h.tree.walkTo]

theorem Alike.sameNodes (h : s.Alike u) (hroot : s.root_mounted = some root) : s.SameNodes u := by
  intro process file path h0 hfile
  rw [pathNode_eq hroot h0 hfile, pathNode_eq (h.root_mounted.symm.trans hroot) h0 hfile, h.rootWalk]
  have htop : u.tree.top = s.tree.top := funext fun x => h.tree.top
  rw [htop]

theorem Alike.refl (s : VirtualFilesystem) : s.Alike s := ⟨.refl _, rfl, rfl⟩

theorem vfsMount_cases (hroot : s.root_mounted = some root) (h0 : 0 ∉ path) (hfile : ∀ cwd ∈ file, 0 ∉ cwd) (fuel sb : ℕ) :
    ∃ r u, s.vfsMount fuel process file path sb = some (r, u) ∧ u.root_mounted = s.root_mounted ∧ u.tmp_mounted = s.tmp_mounted ∧
      ((∃ e, r = .error e ∧ u.tree = s.tree) ∨
        ∃ n, r = .ok () ∧ s.pathNode process file path = some (.ok n) ∧ s.tree.mounted n = none ∧
          u.tree = s.tree.mount n sb) := by
  obtain ⟨u, hu, htree, hur, hut⟩ := @lookup_frame s process file path h0 hfile {}
  have hcall : s.vfsMount fuel process file path sb = s.vfsMountAt process file path sb := by rw [vfsMount, hroot]
  have hnode : s.pathNode process file path = some ((s.lookupAt process file path {}).1.map Prod.fst) := by
    rw [pathNode, hu]
    rfl
  rw [hcall, vfsMountAt, hu, Option.map_some, hnode]
  cases (s.lookupAt process file path {}).1 with
  | error e => exact ⟨_, _, rfl, hur, hut, Or.inl ⟨e, rfl, htree⟩⟩
  | ok r =>
    obtain ⟨node, x⟩ := r
    dsimp only
    rw [htree]
    split_ifs with hmounted hdir
    · exact ⟨_, _, rfl, hur, hut, Or.inl ⟨_, rfl, htree⟩⟩
    · exact ⟨_, _, rfl, hur, hut, Or.inr ⟨node, rfl, rfl, by simpa using hmounted, rfl⟩⟩
    · exact ⟨_, _, rfl, hur, hut, Or.inl ⟨_, rfl, htree⟩⟩

/-- All that unmounting can do when there is a root. -/
theorem vfsUmount_cases (hroot : s.root_mounted = some root) (h0 : 0 ∉ path) (hfile : ∀ cwd ∈ file, 0 ∉ cwd) (fuel : ℕ) :
    path = [slash] ∧ s.tree.mounted (root, s.tree.rootNode root) = none ∧
        (∃ u, s.vfsUmount fuel process file path = some (.ok (), u)) ∨
      ¬(path = [slash] ∧ s.tree.mounted (root, s.tree.rootNode root) = none) ∧
      ∃ r u, s.vfsUmount fuel process file path = some (r, u) ∧ u.root_mounted = s.root_mounted ∧ u.tmp_mounted = s.tmp_mounted ∧
        ((∃ e, r = .error e ∧ u.tree = s.tree ∧
            ∀ c, s.rootWalk process file path root = .ok c → s.tree.mounted (s.tree.lastPoint c) = none) ∨
          ∃ c, r = .ok () ∧ s.rootWalk process file path root = .ok c ∧ u.tree = s.tree.umount (s.tree.lastPoint c)) := by
  by_cases hspecial : path = [slash] ∧ s.tree.mounted (root, s.tree.rootNode root) = none
  · refine Or.inl ⟨hspecial.1, hspecial.2, ?_⟩
    rw [vfsUmount, hroot]
    dsimp only
    rw [if_pos hspecial]
    exact ⟨_, rfl⟩
  · refine Or.inr ⟨hspecial, ?_⟩
    obtain ⟨u, hu, htree, hur, hut⟩ := @lookup_frame s process file path h0 hfile { skipLastMount := true }
    have hlookup := @lookupAt_root s process file path root hroot true
    rw [vfsUmount, hroot]
    dsimp only
    rw [if_neg hspecial, hu, Option.map_some]
    cases hwalk : s.rootWalk process file path root with
    | error e =>
      cases hr : (s.lookupAt process file path { skipLastMount := true }).1 with
      | error e => exact ⟨_, _, rfl, hur.trans hroot, hut, Or.inl ⟨e, rfl, htree, by simp⟩⟩
      | ok r =>
        rw [hwalk, hr] at hlookup
        cases hlookup
    | ok c =>
      cases hr : (s.lookupAt process file path { skipLastMount := true }).1 with
      | error e =>
        rw [hwalk, hr] at hlookup
        cases hlookup
      | ok r =>
        obtain ⟨node, x⟩ := r
        rw [hwalk, hr] at hlookup
        obtain rfl : node = s.tree.lastPoint c := Except.ok.inj hlookup
        dsimp only
        rw [htree]
        cases hm : s.tree.mounted (s.tree.lastPoint c) with
        | none =>
          refine ⟨_, _, rfl, hur.trans hroot, hut, Or.inl ⟨_, rfl, htree, fun c' hc' => ?_⟩⟩
          cases hc'
          exact hm
        | some sb =>
          refine ⟨_, _, rfl, hur.trans hroot, hut, Or.inr ⟨c, rfl, rfl, ?_⟩⟩
          simp only [vfsNodeClose_tree]
          change u.tree.umount _ = _
          rw [htree]

theorem rootWalk_congr (htree : u.tree = s.tree.mount n sb) :
    u.rootWalk process file path root = match absolutePath file path with
      | none => .error .EINVAL
      | some absolute_path => ((s.tree.mount n sb).walkTo process (segments slash absolute_path) (root, s.tree.rootNode root)
          [(root, s.tree.rootNode root)] []).map Prod.fst := by
  rw [rootWalk, htree, (s.tree.mount_stat n sb).2.2.1]

theorem rootWalk_mount (hroot : s.root_mounted = some root) (hsb : s.tree.Unused sb) (hn : n.1 ≠ sb)
    (hnone : s.tree.mounted n = none) (htree : u.tree = s.tree.mount n sb) (hpass : ¬s.PassesThrough process file path n) :
    u.rootWalk process file path root = s.rootWalk process file path root := by
  rw [rootWalk_congr htree, rootWalk]
  cases habs : absolutePath file path with
  | none => rfl
  | some absolute_path =>
    have henters := fun h => hpass ⟨root, absolute_path, hroot, habs, h⟩
    dsimp only
    rw [(Tree.mount_walkTo hsb hn hnone henters).1]

theorem passesThrough_mount (hsb : s.tree.Unused sb) (hn : n.1 ≠ sb) (hnone : s.tree.mounted n = none)
    (htree : u.tree = s.tree.mount n sb) (hu : u.root_mounted = s.root_mounted)
    (hpass : ¬s.PassesThrough process file path n) (m : NodeId) :
    u.PassesThrough process file path m ↔ s.PassesThrough process file path m := by
  have hsame : ∀ root' absolute_path, s.root_mounted = some root' → absolutePath file path = some absolute_path →
      (u.tree.Enters process m (segments slash absolute_path) (root', u.tree.rootNode root') [(root', u.tree.rootNode root')] ↔
        s.tree.Enters process m (segments slash absolute_path) (root', s.tree.rootNode root')
          [(root', s.tree.rootNode root')]) := by
    intro root' absolute_path hroot' habs
    have henters := fun h => hpass ⟨root', absolute_path, hroot', habs, h⟩
    rw [htree, (s.tree.mount_stat n sb).2.2.1]
    exact (@Tree.mount_walkTo s.tree n sb process _ _ _ [] hsb hn hnone henters).2 m
  constructor
  · rintro ⟨root', absolute_path, hroot', habs, h⟩
    rw [hu] at hroot'
    exact ⟨root', absolute_path, hroot', habs, (hsame root' absolute_path hroot' habs).mp h⟩
  · rintro ⟨root', absolute_path, hroot', habs, h⟩
    exact ⟨root', absolute_path, hu.trans hroot', habs, (hsame root' absolute_path hroot' habs).mpr h⟩

theorem pathNode_unused (hroot : s.root_mounted = some root) (hsb : s.Unused sb) (h0 : 0 ∉ path) (hfile : ∀ cwd ∈ file, 0 ∉ cwd)
    (h : s.pathNode process file path = some (.ok n)) : n.1 ≠ sb := by
  have hne : (root, s.tree.rootNode root).1 ≠ sb := fun heq => hsb.2 (hroot.trans (congrArg some heq))
  rw [pathNode_eq hroot h0 hfile, rootWalk] at h
  cases habs : absolutePath file path with
  | none =>
    rw [habs] at h
    cases h
  | some absolute_path =>
    rw [habs] at h
    dsimp only at h
    cases hwalk : s.tree.walkTo process (segments slash absolute_path) (root, s.tree.rootNode root)
      [(root, s.tree.rootNode root)] [] with
    | error e =>
      rw [hwalk] at h
      cases h
    | ok r =>
      rw [hwalk] at h
      obtain rfl : s.tree.top r.1 = n := Except.ok.inj (Option.some.inj h)
      exact Tree.top_fst_ne hsb.1 (Tree.walkTo_fst_ne hsb.1 hne (by simpa using hne) hwalk)

theorem not_passesThrough_unused (hsb : s.Unused sb) (hn : n.1 = sb) : ¬s.PassesThrough process file path n := by
  rintro ⟨root, absolute_path, hroot, -, h⟩
  have hne : (root, s.tree.rootNode root).1 ≠ sb := fun heq => hsb.2 (hroot.trans (congrArg some heq))
  exact Tree.not_enters_unused hsb.1 hne (by simpa using hne) hn h

theorem unused_mount (hsb : s.Unused sb) (hn : n.1 ≠ sb) {sb' : ℕ} (hsb' : s.Unused sb') (hn' : n.1 ≠ sb') (hne : sb ≠ sb')
    (htree : u.tree = s.tree.mount n sb) (hu : u.root_mounted = s.root_mounted) : u.Unused sb' :=
  ⟨htree ▸ Tree.mount_unused hsb.1 hn hsb'.1 hn' hne, hu ▸ hsb'.2⟩

/-- Unmounting takes a mount off again that the path leads to. -/
theorem vfsUmount_mount (hroot : s.root_mounted = some root) (hsb : s.tree.Unused sb) (hn : n.1 ≠ sb)
    (hnone : s.tree.mounted n = none)
    (h0 : 0 ∉ path) (hfile : ∀ cwd ∈ file, 0 ∉ cwd) (hnode : s.pathNode process file path = some (.ok n))
    (hpass : ¬s.PassesThrough process file path n) (htree : u.tree = s.tree.mount n sb) (hu : u.root_mounted = s.root_mounted)
    (htmp : u.tmp_mounted = s.tmp_mounted) (halike : u.Alike v) (fuel : ℕ) :
    ∃ w, v.vfsUmount fuel process file path = some (.ok (), w) ∧ s.Alike w := by
  have hv : v.root_mounted = some root := halike.root_mounted.symm.trans (hu.trans hroot)
  rw [pathNode_eq hroot h0 hfile] at hnode
  have hwalk : v.rootWalk process file path root = s.rootWalk process file path root :=
    halike.rootWalk.trans (rootWalk_mount hroot hsb hn hnone htree hpass)
  have hmounted : v.tree.mounted = Function.update s.tree.mounted n (some sb) := by
    rw [← halike.tree.mounted, htree, Tree.mount_mounted hsb hn]
  have hlast : ∀ c, s.rootWalk process file path root = .ok c → v.tree.lastPoint c = n := by
    intro c hc
    rw [hc] at hnode
    have htop : s.tree.top c = n := Except.ok.inj (Option.some.inj hnode)
    have hpoint : v.tree.lastPoint c = u.tree.lastPoint c := halike.tree.followMounts true
    rw [hpoint, htree, Tree.mount_lastPoint hsb hn hnone, if_pos htop]
  rcases @vfsUmount_cases v process file path root hv h0 hfile fuel with ⟨hslash, hnomount, -⟩ |
    ⟨-, r, w, hcall, hwr, hwt, hcases⟩
  · -- the root has a mount, since the path leads to it
    exfalso
    have hrootNode : v.tree.rootNode root = s.tree.rootNode root := by
      rw [← halike.tree.rootNode, htree, (s.tree.mount_stat n sb).2.2.1]
    have habs : s.rootWalk process file path root = .ok (root, s.tree.rootNode root) := by
      subst hslash
      rfl
    rw [hmounted, hrootNode] at hnomount
    have hne : (root, s.tree.rootNode root) ≠ n := by
      intro heq
      rw [heq, Function.update_self] at hnomount
      cases hnomount
    rw [Function.update_of_ne hne] at hnomount
    rw [habs] at hnode
    have htop : s.tree.top (root, s.tree.rootNode root) = n := Except.ok.inj (Option.some.inj hnode)
    exact hne ((Tree.top_of_none hnomount).symm.trans htop)
  · rcases hcases with ⟨e, -, -, hlost⟩ | ⟨c, rfl, hc, hw⟩
    · exfalso
      rw [hwalk] at hlost
      cases hwalk' : s.rootWalk process file path root with
      | error e =>
        rw [hwalk'] at hnode
        cases hnode
      | ok c =>
        have hnomount := hlost c hwalk'
        rw [hlast c hwalk', hmounted, Function.update_self] at hnomount
        cases hnomount
    · refine ⟨w, hcall, ⟨?_, ?_, ?_⟩⟩
      · rw [hw, hlast c (hwalk.symm.trans hc)]
        exact (Tree.alike_umount_mount hsb hn hnone).trans ((htree ▸ halike.tree).umount n)
      · rw [hwr, hv, hroot]
      · rw [hwt, ← halike.tmp_mounted, htmp]

/-- Mounts at a path that does not come by the node that it leads to are on top of each other, other
paths keep theirs, and they come off in the opposite order. -/
theorem mountAll_spec (hroot : s.root_mounted = some root) (h0 : 0 ∉ path) (hfile : ∀ cwd ∈ file, 0 ∉ cwd) (hnodup : sbs.Nodup)
    (hsbs : ∀ sb ∈ sbs, s.Unused sb) (hnode : s.pathNode process file path = some (.ok n))
    (hpass : ¬s.PassesThrough process file path n) (hall : mountAll fuel process file path sbs s = some u) :
    u.pathNode process file path = some (.ok (s.onTop n sbs)) ∧
      (∀ process' file' q, 0 ∉ q → (∀ cwd ∈ file', 0 ∉ cwd) → ¬s.PassesThrough process' file' q n →
        s.pathNode process' file' q ≠ some (.ok n) → u.pathNode process' file' q = s.pathNode process' file' q) ∧
      ∀ k ≤ sbs.length, ∃ v w, umountAll fuel process file path u k = some v ∧
        mountAll fuel process file path (sbs.take (sbs.length - k)) s = some w ∧ w.Alike v := by
  induction sbs generalizing s n with
  | nil =>
    obtain rfl : s = u := Option.some.inj hall
    refine ⟨hnode, fun _ _ _ _ _ _ _ => rfl, fun k hk => ?_⟩
    obtain rfl := Nat.le_zero.mp hk
    exact ⟨s, s, rfl, rfl, .refl s⟩
  | cons sb sbs ih =>
    have hsb := hsbs sb List.mem_cons_self
    have hn : n.1 ≠ sb := pathNode_unused hroot hsb h0 hfile hnode
    obtain ⟨r, s₁, hcall, hr₁, ht₁, hmount⟩ := @vfsMount_cases s process file path root hroot h0 hfile fuel sb
    rw [mountAll, hcall] at hall
    rcases hmount with ⟨e, rfl, -⟩ | ⟨m, rfl, hm, hnone, htree⟩
    · cases hall
    obtain rfl : n = m := Except.ok.inj (Option.some.inj (hnode.symm.trans hm))
    have hroot₁ : s₁.root_mounted = some root := hr₁.trans hroot
    have hfst : s₁.tree.rootNode = s.tree.rootNode := by rw [htree, (s.tree.mount_stat n sb).2.2.1]
    -- another way that does not come by the node is as it was, and one that leads there leads to the new root
    have hothers : ∀ process' file' q, 0 ∉ q → (∀ cwd ∈ file', 0 ∉ cwd) → ¬s.PassesThrough process' file' q n →
        s₁.pathNode process' file' q = (s.pathNode process' file' q).map fun r => r.map fun x => if x =
          n then (sb, s.tree.rootNode sb) else x := by
      intro process' file' q hq hfile' hpass'
      rw [pathNode_eq hroot₁ hq hfile', pathNode_eq hroot hq hfile', rootWalk_mount hroot hsb.1 hn hnone htree hpass', htree]
      cases s.rootWalk process' file' q root with
      | error e => rfl
      | ok c => exact congrArg (some ∘ Except.ok) (Tree.mount_top hsb.1 hn hnone c)
    have hnode₁ : s₁.pathNode process file path = some (.ok (sb, s.tree.rootNode sb)) := by
      rw [hothers process file path h0 hfile hpass, hnode]
      exact congrArg (some ∘ Except.ok) (if_pos rfl)
    have hkept : ∀ process' file' q, ¬s.PassesThrough process' file' q n →
        ¬s₁.PassesThrough process' file' q (sb, s.tree.rootNode sb) := fun process' file' q hpass' h =>
      not_passesThrough_unused hsb rfl ((passesThrough_mount hsb.1 hn hnone htree hr₁ hpass' _).mp h)
    have hsbs₁ : ∀ sb' ∈ sbs, s₁.Unused sb' := by
      intro sb' hsb'
      have hsb'_unused := hsbs sb' (List.mem_cons_of_mem _ hsb')
      have hne : sb ≠ sb' := fun heq => (List.nodup_cons.mp hnodup).1 (heq ▸ hsb')
      exact unused_mount hsb hn hsb'_unused (pathNode_unused hroot hsb'_unused h0 hfile hnode) hne htree hr₁
    obtain ⟨htop, hrest, hundo⟩ := ih hroot₁ (List.nodup_cons.mp hnodup).2 hsbs₁ hnode₁ (hkept process file path hpass) hall
    refine ⟨?_, fun process' file' q hq hfile' hpass' hne => ?_, fun k hk => ?_⟩
    · rw [htop, onTop, onTop, hfst]
      cases sbs with
      | nil => rfl
      | cons sb' sbs =>
        rw [List.getLast?_cons_cons]
        cases hlast : (sb' :: sbs).getLast? with
        | none => exact absurd (List.getLast?_eq_none_iff.mp hlast) (List.cons_ne_nil _ _)
        | some x => rfl
    · have hother : s₁.pathNode process' file' q = s.pathNode process' file' q := by
        rw [hothers process' file' q hq hfile' hpass']
        obtain ⟨x, hx⟩ : ∃ x, s.pathNode process' file' q = some x := ⟨_, pathNode_eq hroot hq hfile'⟩
        rw [hx, Option.map_some]
        cases x with
        | error e => rfl
        | ok x => exact congrArg (some ∘ Except.ok) (if_neg fun heq : x = n => hne (heq ▸ hx))
      refine (hrest process' file' q hq hfile' (hkept process' file' q hpass') fun hlead => ?_).trans hother
      rw [hother] at hlead
      exact pathNode_unused hroot hsb hq hfile' hlead rfl
    · rcases Nat.lt_or_eq_of_le hk with hlt | rfl
      · obtain ⟨v, w, hv, hw, halike⟩ := hundo k (Nat.le_of_lt_succ hlt)
        refine ⟨v, w, hv, ?_, halike⟩
        have htake : (sb :: sbs).length - k = (sbs.length - k) + 1 := by
          have hle := Nat.le_of_lt_succ hlt
          rw [List.length_cons]
          omega
        rw [htake, List.take_succ_cons, mountAll, hcall]
        exact hw
      · obtain ⟨v, w, hv, hw, halike⟩ := hundo sbs.length le_rfl
        rw [Nat.sub_self, List.take_zero] at hw
        obtain rfl : s₁ = w := Option.some.inj hw
        obtain ⟨w, hcallw, hw⟩ := @vfsUmount_mount s s₁ v process file path root sb n hroot hsb.1 hn hnone h0 hfile hnode hpass
          htree hr₁ ht₁ halike fuel
        refine ⟨w, s, ?_, ?_, hw⟩
        · rw [List.length_cons, umountAll, hv, Option.bind_some, hcallw]
        · rw [Nat.sub_self, List.take_zero]
          rfl

/-- Unmounting undoes mounting for every path that does not come by the node it leads to. A mount or
an unmounting that fails changes no path. -/
theorem mounts_undone (hroot : s.root_mounted = some root) (process : Option User) (file : Option (List UInt8))
    (path : List UInt8) (h0 : 0 ∉ path) (hfile : ∀ cwd ∈ file, 0 ∉ cwd) (fuel : ℕ) :
    (∀ sb e u, s.vfsMount fuel process file path sb = some (.error e, u) → s.SameNodes u) ∧
      (∀ e u, s.vfsUmount fuel process file path = some (.error e, u) → s.SameNodes u) ∧
      ∀ sbs n u, sbs.Nodup → (∀ sb ∈ sbs, s.Unused sb) → s.pathNode process file path = some (.ok n) →
        ¬s.PassesThrough process file path n → mountAll fuel process file path sbs s = some u →
        u.pathNode process file path = some (.ok (s.onTop n sbs)) ∧
          (∀ process' file' q, 0 ∉ q → (∀ cwd ∈ file', 0 ∉ cwd) → ¬s.PassesThrough process' file' q n →
            s.pathNode process' file' q ≠ some (.ok n) → u.pathNode process' file' q = s.pathNode process' file' q) ∧
          ∀ k ≤ sbs.length, ∃ v w, umountAll fuel process file path u k = some v ∧
            mountAll fuel process file path (sbs.take (sbs.length - k)) s = some w ∧ w.Alike v ∧ w.SameNodes v := by
  refine ⟨fun sb e u hcall => ?_, fun e u hcall => ?_, fun sbs n u hnodup hsbs hnode hpass hall => ?_⟩
  · obtain ⟨r, u', hcall', hur, hut, hcases⟩ := @vfsMount_cases s process file path root hroot h0 hfile fuel sb
    obtain ⟨rfl, rfl⟩ := Prod.mk.inj (Option.some.inj (hcall.symm.trans hcall'))
    obtain ⟨e', -, htree⟩ | ⟨n, hr, -⟩ := hcases
    · exact Alike.sameNodes ⟨htree ▸ .refl _, hur.symm, hut.symm⟩ hroot
    · cases hr
  · rcases @vfsUmount_cases s process file path root hroot h0 hfile fuel with ⟨-, -, u', hcall'⟩ |
      ⟨-, r, u', hcall', hur, hut, hcases⟩
    · rw [hcall] at hcall'
      cases hcall'
    · obtain ⟨rfl, rfl⟩ := Prod.mk.inj (Option.some.inj (hcall.symm.trans hcall'))
      obtain ⟨e', -, htree, -⟩ | ⟨n, hr, -⟩ := hcases
      · exact Alike.sameNodes ⟨htree ▸ .refl _, hur.symm, hut.symm⟩ hroot
      · cases hr
  · obtain ⟨htop, hothers, hundo⟩ := mountAll_spec hroot h0 hfile hnodup hsbs hnode hpass hall
    refine ⟨htop, hothers, fun k hk => ?_⟩
    obtain ⟨v, w, hv, hw, halike⟩ := hundo k hk
    have hw_root : ∀ sbs (s w : VirtualFilesystem), s.root_mounted = some root → mountAll fuel process file path sbs s = some w →
        w.root_mounted = some root := by
      intro sbs
      induction sbs with
      | nil => exact fun s w hs hw => Option.some.inj hw ▸ hs
      | cons sb sbs ih =>
        intro s w hs hw
        obtain ⟨r, s₁, hcall, hr₁, -⟩ := @vfsMount_cases s process file path root hs h0 hfile fuel sb
        rw [mountAll, hcall] at hw
        cases r with
        | error e => cases hw
        | ok x => exact ih s₁ w (hr₁.trans hs) hw
    exact ⟨v, w, hv, hw, halike, halike.sameNodes (hw_root _ _ _ hroot hw)⟩

theorem two_mounts_undone : ∃ u v, mountAll 0 none none [47, 97] [1, 2] ⟨twoDirectories none, 0, fun _ => 1, some 0, []⟩ =
    some u ∧ u.pathNode none none [47, 97] = some (.ok (2, 1)) ∧ umountAll 0 none none [47, 97] u 2 = some v ∧
    SameNodes ⟨twoDirectories none, 0, fun _ => 1, some 0, []⟩ v := by
  have hunused : ∀ sb ∈ [1, 2], Unused ⟨twoDirectories none, 0, fun _ => 1, some 0, []⟩ sb := by
    intro sb hsb
    have hsb' : sb ≠ 0 := by rintro rfl; simp at hsb
    exact ⟨⟨fun n => by simp [twoDirectories], fun n _ => by simp [twoDirectories]⟩, by simpa using hsb'.symm⟩
  obtain ⟨u, hu⟩ : ∃ u, mountAll 0 none none [47, 97] [1, 2] ⟨twoDirectories none, 0, fun _ => 1, some 0, []⟩ = some u :=
    Option.isSome_iff_exists.mp (by decide)
  have hnode : pathNode ⟨twoDirectories none, 0, fun _ => 1, some 0, []⟩ none none [47, 97] = some (.ok (0, 2)) := by
    rw [pathNode_eq rfl (by decide) (by simp)]
    rfl
  have hpass : ¬PassesThrough ⟨twoDirectories none, 0, fun _ => 1, some 0, []⟩ none none [47, 97] (0, 2) := by
    rintro ⟨root, absolute_path, hroot, habs, h⟩
    obtain rfl : 0 = root := Option.some.inj hroot
    obtain rfl : [47, 97] = absolute_path := Option.some.inj habs
    have hsegs : segments slash [47, 97] = [[97]] := by decide
    have htop : (twoDirectories none).top (0, 1) ≠ (0, 2) := by decide
    rw [hsegs, Tree.Enters] at h
    split_ifs at h
    · exact h
    · exact h
    · exact h.elim htop id
  obtain ⟨htop, -, hundo⟩ := (mounts_undone rfl none none [47, 97] (by decide) (by simp) 0).2.2
    [1, 2] (0, 2) u (by decide) hunused
    hnode hpass hu
  obtain ⟨v, w, hv, hw, -, hsame⟩ := hundo 2 le_rfl
  obtain rfl := Option.some.inj hw
  exact ⟨u, v, hu, htop, hv, hsame⟩

/-- The path of a mount on the root goes down and up again. It is lost to the mount, which stays. -/
theorem mount_hides_its_path : ∃ u e v, vfsMount 0 ⟨twoDirectories none, 0, fun _ => 1, some 0, []⟩ none none
    [47, 97, 47, 46, 46] 1 = some (.ok (), u) ∧ u.vfsUmount 0 none none [47, 97, 47, 46, 46] = some (.error e, v) ∧
    v.pathNode none none [47, 97] ≠ pathNode ⟨twoDirectories none, 0, fun _ => 1, some 0, []⟩ none none [47, 97] := by
  have hcall : ((vfsMount 0 ⟨twoDirectories none, 0, fun _ => 1, some 0, []⟩ none none [47, 97, 47, 46, 46] 1).bind fun r =>
      if r.1.isOk then (r.2.vfsUmount 0 none none [47, 97, 47, 46, 46]).bind fun r =>
        if r.1.isOk then none else r.2.pathNode none none [47, 97]
      else none) = some (.error .ENOENT) := by decide
  obtain ⟨⟨r, u⟩, hu, hcall⟩ := Option.bind_eq_some_iff.mp hcall
  cases r with
  | error e => cases hcall
  | ok x =>
    obtain ⟨⟨r, v⟩, hv, hcall⟩ := Option.bind_eq_some_iff.mp hcall
    cases r with
    | error e =>
      refine ⟨u, e, v, hu, hv, fun heq => ?_⟩
      have hlost := hcall.symm.trans heq
      rw [pathNode_eq rfl (by decide) (by simp)] at hlost
      cases hlost
    | ok x => cases hcall

end

end VirtualFilesystem

end SomeOs.Vfs
