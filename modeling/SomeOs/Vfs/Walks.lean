import SomeOs.Vfs.Lookup
import SomeOs.Vfs.ReducePath

/-! # The way of a lookup through the tree

A lookup does not change the tree, and what it finds does not depend on the references. After any
number of segments the walk has come down a trail of directories, whose names are those that are
left of the path. The room for them never runs out.
-/
namespace SomeOs.Vfs
open Segments

/-- Where mounts lead to. -/
def Tree.followMounts (t : Tree) : ℕ → NodeId → Bool → NodeId
  | 0, n, _ => n
  | depth + 1, n, last_mountpoint =>
    match t.mounted n with
    | none => n
    | some sb =>
      if last_mountpoint ∧ (t.mounted (sb, t.rootNode sb)).isNone then n
      else t.followMounts depth (sb, t.rootNode sb) last_mountpoint

def Tree.below (t : Tree) (process : Option User) (d : NodeId) (name : Name) : Except ErrorKind NodeId :=
  t.vfsNodeLookup process (t.followMounts (t.depth d) d false) name

/-- A node with the directories and the names on the way to it, the last ones first. -/
inductive Trail (t : Tree) (process : Option User) (start : NodeId) : NodeId → List NodeId → List Name → Prop
  | start : Trail t process start start [start] []
  | step {d n : NodeId} {dirs : List NodeId} {segs : List Name} {name : Name} (h : Trail t process start d dirs segs)
      (hdir : t.isDir d = true) (hname : name ≠ dot ∧ name ≠ dotDot) (hbelow : t.below process d name = .ok n) :
      Trail t process start n (d :: dirs) (name :: segs)

structure Walking (t : Tree) (process : Option User) (start : NodeId) (w : Walk) : Prop where
  tree : w.vfs.tree = t
  trail : Trail t process start w.curr w.dirs w.segs
  room : w.dirs.length ≤ w.dirs_capacity
  capacity : 2 ≤ w.dirs_capacity

section Cursor

/-- The cursor stops at the segments of the path. -/
theorem nextSegments_eq {n : ℕ} {path : List UInt8} (hn : path.length ≤ n) (hhead : path.head? ≠ some slash) :
    nextSegments n path = segments slash path := by
  induction n generalizing path with
  | zero =>
    obtain rfl := List.length_eq_zero_iff.mp (Nat.le_zero.mp hn)
    rfl
  | succ n ih =>
    cases path with
    | nil => rfl
    | cons c path =>
      have hc : c ≠ slash := by simpa using hhead
      have hsplit := List.takeWhile_append_dropWhile (p := (· ≠ slash)) (l := c :: path)
      have hne : (c :: path).takeWhile (· ≠ slash) ≠ [] := by
        rw [List.takeWhile_cons_of_pos (by simpa using hc)]
        exact List.cons_ne_nil _ _
      have hw : slash ∉ (c :: path).takeWhile (· ≠ slash) := fun hin => by simpa using List.mem_takeWhile_imp hin
      have hcut : Cut ((c :: path).dropWhile (· ≠ slash)) := by
        cases hrest : (c :: path).dropWhile (· ≠ slash) with
        | nil => exact Or.inl rfl
        | cons d rest =>
          have hd := List.head?_dropWhile_not (p := (· ≠ slash)) (l := c :: path)
          rw [hrest] at hd
          exact Or.inr ⟨rest, by simpa using hd⟩
      rw [nextSegments, ih, segments_dropWhile]
      · conv_rhs => rw [← hsplit, segments_cut hw hne hcut]
      · have hlen := congrArg List.length hsplit
        have hpos := List.length_pos_of_ne_nil hne
        rw [List.length_append] at hlen
        have := List.length_dropWhile_le (p := (· = slash)) (l := (c :: path).dropWhile (· ≠ slash))
        simp only [List.length_cons] at hlen hn
        omega
      · intro hslash
        have := List.head?_dropWhile_not (p := (· = slash)) (l := (c :: path).dropWhile (· ≠ slash))
        rw [hslash] at this
        simp at this

theorem pathSegments_eq (path : List UInt8) : pathSegments path = segments slash path := by
  rw [pathSegments, nextSegments_eq, segments_dropWhile]
  · exact List.length_dropWhile_le _ _
  · intro hslash
    have := List.head?_dropWhile_not (p := (· = slash)) (l := path)
    rw [hslash] at this
    simp at this

end Cursor

section Tree
variable {s : VirtualFilesystem} {process : Option User} {n : NodeId} {name : Name}

@[simp] theorem vfsNodeCopy_tree : (s.vfsNodeCopy n).tree = s.tree := rfl

@[simp] theorem vfsNodeClose_tree : (s.vfsNodeClose n).tree = s.tree := rfl

theorem vfsNodeLookup_error {e : ErrorKind} (h : s.tree.vfsNodeLookup process n name = .error e) :
    s.vfsNodeLookup process n name = (.error e, s) := by
  rw [VirtualFilesystem.vfsNodeLookup, h]

theorem vfsNodeLookup_ok {next : NodeId} (h : s.tree.vfsNodeLookup process n name = .ok next) :
    s.vfsNodeLookup process n name = (.ok next, s.vfsNodeCopy next) := by
  rw [VirtualFilesystem.vfsNodeLookup, h]

theorem foldl_vfsNodeClose_tree (dirs : List NodeId) : (dirs.foldl VirtualFilesystem.vfsNodeClose s).tree = s.tree := by
  induction dirs generalizing s with
  | nil => rfl
  | cons d dirs ih => exact ih

theorem vfsFollowMounts_tree (depth : ℕ) (last_mountpoint : Bool) :
    (VirtualFilesystem.vfsFollowMounts depth s n last_mountpoint).2.tree = s.tree := by
  induction depth generalizing s n with
  | zero => rfl
  | succ depth ih =>
    unfold VirtualFilesystem.vfsFollowMounts
    split
    · rfl
    · dsimp only
      split_ifs
      · exact ih
      · rfl
      · exact ih

theorem vfsFollowMounts_fst (depth : ℕ) (last_mountpoint : Bool) :
    (VirtualFilesystem.vfsFollowMounts depth s n last_mountpoint).1 = s.tree.followMounts depth n last_mountpoint := by
  induction depth generalizing s n with
  | zero => rfl
  | succ depth ih =>
    unfold VirtualFilesystem.vfsFollowMounts Tree.followMounts
    cases hm : s.tree.mounted n with
    | none => rfl
    | some sb =>
      dsimp only
      cases last_mountpoint with
      | false => simp [ih]
      | true =>
        cases hroot : s.tree.mounted (sb, s.tree.rootNode sb) with
        | none => simp [hroot]
        | some sb' => simp [hroot, ih]

end Tree

section Step
variable {t : Tree} {process : Option User} {start : NodeId} {w : Walk} {name : Name}

theorem Trail.names {n : NodeId} {dirs : List NodeId} {segs : List Name} (h : Trail t process start n dirs segs) :
    ∀ seg ∈ segs, seg ≠ dot ∧ seg ≠ dotDot := by
  induction h with
  | start => simp
  | step h hdir hname hbelow ih => simpa [hname] using ih

theorem Trail.length {n : NodeId} {dirs : List NodeId} {segs : List Name} (h : Trail t process start n dirs segs) :
    dirs.length = segs.length + 1 := by
  induction h with
  | start => rfl
  | step h hdir hname hbelow ih => simp [ih]

theorem Walking.grows (h : Walking t process start w) :
    w.dirs.length < if w.dirs.length = w.dirs_capacity then w.dirs_capacity * 3 / 2 else w.dirs_capacity := by
  have := h.room
  have := h.capacity
  split_ifs <;> omega

theorem Walking.capacity_grows (h : Walking t process start w) :
    2 ≤ if w.dirs.length = w.dirs_capacity then w.dirs_capacity * 3 / 2 else w.dirs_capacity := by
  have := h.capacity
  split_ifs <;> omega

/-- The references after the mounts of a directory, and of its copy in `dirs`. -/
def enter (w : Walk) : VirtualFilesystem :=
  (VirtualFilesystem.vfsFollowMounts (w.vfs.tree.depth w.curr) (w.vfs.vfsNodeCopy w.curr) w.curr false).2

def Walk.mountedRoot (w : Walk) : NodeId := w.vfs.tree.followMounts (w.vfs.tree.depth w.curr) w.curr false

def Walk.push (w : Walk) (vfs : VirtualFilesystem) (curr : NodeId) (name : Name) : Walk :=
  ⟨vfs, curr, w.curr :: w.dirs, name :: w.segs,
    if w.dirs.length = w.dirs_capacity then w.dirs_capacity * 3 / 2 else w.dirs_capacity⟩

/-- All that a segment can do. -/
theorem walkSegment_cases (h : Walking t process start w) (name : Name) :
    t.isDir w.curr = false ∧ walkSegment process name w = some (some .ENOTDIR, w) ∨
    t.isDir w.curr = true ∧ (
      name = dot ∧ walkSegment process name w = some (none, w) ∨
      name = dotDot ∧ w.dirs = [start] ∧ w.segs = [] ∧ walkSegment process name w = some (none, w) ∨
      name = dotDot ∧ (∃ d dirs seg segs, w.dirs = d :: dirs ∧ w.segs = seg :: segs ∧ Trail t process start d dirs segs ∧
        walkSegment process name w = some (none, ⟨w.vfs.vfsNodeClose w.curr, d, dirs, segs, w.dirs_capacity⟩)) ∨
      name ≠ dot ∧ name ≠ dotDot ∧ (
        (∃ e, t.below process w.curr name = .error e ∧
          walkSegment process name w = some (some e, w.push (enter w) w.mountedRoot name)) ∨
        ∃ n, t.below process w.curr name = .ok n ∧
          walkSegment process name w = some (none, w.push (((enter w).vfsNodeCopy n).vfsNodeClose w.mountedRoot) n name))) := by
  have htree := h.tree
  subst htree
  unfold walkSegment
  cases hdir : w.vfs.tree.isDir w.curr with
  | false => simp
  | true =>
    refine Or.inr ⟨rfl, ?_⟩
    simp only [not_true, if_false]
    by_cases hdot : name = dot
    · exact Or.inl ⟨hdot, by simp [hdot]⟩
    by_cases hdots : name = dotDot
    · obtain ⟨vfs, curr, dirs, segs, cap⟩ := w
      have htrail : Trail vfs.tree process start curr dirs segs := h.trail
      refine Or.inr ?_
      simp only [if_neg hdot, if_pos hdots]
      cases htrail with
      | start => exact Or.inl ⟨hdots, rfl, rfl, rfl⟩
      | @step d n dirs segs name h' hdir hname hbelow =>
        refine Or.inr (Or.inl ⟨hdots, d, dirs, name, segs, rfl, rfl, h', ?_⟩)
        obtain ⟨e, dirs, rfl⟩ := List.exists_cons_of_length_eq_add_one h'.length
        rfl
    · refine Or.inr (Or.inr (Or.inr ⟨hdot, hdots, ?_⟩))
      rw [if_neg hdot, if_neg hdots, if_neg (not_le.mpr h.grows)]
      rw [show (VirtualFilesystem.vfsFollowMounts (w.vfs.tree.depth w.curr) (w.vfs.vfsNodeCopy w.curr) w.curr false).1 =
        w.mountedRoot from vfsFollowMounts_fst _ _]
      cases hbelow : w.vfs.tree.below process w.curr name with
      | error e =>
        have hlookup : (enter w).vfsNodeLookup process w.mountedRoot name = (.error e, enter w) :=
          vfsNodeLookup_error ((congrArg (Tree.vfsNodeLookup · process w.mountedRoot name) (vfsFollowMounts_tree _ _)).trans
            hbelow)
        exact Or.inl ⟨e, rfl, by rw [enter] at hlookup; rw [hlookup]; rfl⟩
      | ok n =>
        have hlookup : (enter w).vfsNodeLookup process w.mountedRoot name = (.ok n, (enter w).vfsNodeCopy n) :=
          vfsNodeLookup_ok ((congrArg (Tree.vfsNodeLookup · process w.mountedRoot name) (vfsFollowMounts_tree _ _)).trans hbelow)
        exact Or.inr ⟨n, rfl, by rw [enter] at hlookup; rw [hlookup]; rfl⟩

/-- A segment leaves the walk between two segments, and does to the names what it does to the path. -/
theorem walkSegment_spec (h : Walking t process start w) (name : Name) :
    ∃ err w', walkSegment process name w = some (err, w') ∧ w'.vfs.tree = t ∧
      (err = none → Walking t process start w' ∧ ∀ rest, resolve true w.segs (name :: rest) = resolve true w'.segs rest) := by
  have htree := h.tree
  rcases walkSegment_cases h name with ⟨-, he⟩ | ⟨hdir, hc⟩
  · exact ⟨_, w, he, htree, fun hn => by cases hn⟩
  rcases hc with ⟨rfl, he⟩ | ⟨rfl, hdirs, hsegs, he⟩ | ⟨rfl, d, dirs, seg, segs, hdirs, hsegs, htrail, he⟩ | ⟨hdot, hdots, hc⟩
  · exact ⟨none, w, he, htree, fun _ => ⟨h, fun rest => resolve_dot⟩⟩
  · refine ⟨none, w, he, htree, fun _ => ⟨h, fun rest => ?_⟩⟩
    rw [hsegs]
    exact resolve_absolute (stack_nil true)
  · refine ⟨none, _, he, htree, fun _ => ⟨⟨htree, htrail, ?_, h.capacity⟩, fun rest => ?_⟩⟩
    · have := h.room
      rw [hdirs] at this
      exact Nat.le_of_succ_le this
    · rw [hsegs]
      exact resolve_remove (h.trail.names seg (by rw [hsegs]; exact List.mem_cons_self)).2
  · have hroom := h.grows
    rcases hc with ⟨e, -, he⟩ | ⟨n, hbelow, he⟩
    · exact ⟨some e, _, he, (vfsFollowMounts_tree _ _).trans htree, fun hn => by cases hn⟩
    · refine ⟨none, _, he, (vfsFollowMounts_tree _ _).trans htree,
        fun _ => ⟨⟨(vfsFollowMounts_tree _ _).trans htree, ?_, hroom, h.capacity_grows⟩, ?_⟩⟩
      · exact .step h.trail hdir ⟨hdot, hdots⟩ hbelow
      · exact fun rest => resolve_name hdot hdots

theorem walkSegments_spec (h : Walking t process start w) (names : List Name) :
    ∃ err w', walkSegments process names w = some (err, w') ∧ w'.vfs.tree = t ∧
      (err = none → Walking t process start w' ∧ resolve true w.segs names = w'.segs.reverse) := by
  induction names generalizing w with
  | nil => exact ⟨none, w, rfl, h.tree, fun _ => ⟨h, rfl⟩⟩
  | cons name names ih =>
    obtain ⟨err, w₁, he, htree, hok⟩ := walkSegment_spec h name
    cases err with
    | some e => exact ⟨some e, w₁, by simp [walkSegments, he], htree, fun hn => by cases hn⟩
    | none =>
      obtain ⟨hw₁, hres⟩ := hok rfl
      obtain ⟨err, w₂, he₂, htree₂, hok₂⟩ := ih hw₁
      refine ⟨err, w₂, by simp [walkSegments, he, he₂], htree₂, fun hn => ?_⟩
      obtain ⟨hw₂, hres₂⟩ := hok₂ hn
      exact ⟨hw₂, (hres names).trans hres₂⟩

end Step

section Lookup
variable {s : VirtualFilesystem} {process : Option User} {start : NodeId} {path : List UInt8} {flags : LookupFlags}

def startWalk (s : VirtualFilesystem) (start : NodeId) : Walk := ⟨(s.vfsNodeCopy start).vfsNodeCopy start, start, [start], [], 64⟩

theorem walking_start : Walking s.tree process start (startWalk s start) :=
  ⟨rfl, .start, by simp [startWalk], by simp [startWalk]⟩

/-- Every lookup returns. The names of a node that is found are those that the path is resolved to. -/
theorem vfsLookupNode_spec (s : VirtualFilesystem) (process : Option User) (start : NodeId) (path : List UInt8)
    (flags : LookupFlags) : ∃ r u, s.vfsLookupNode process start path flags = some (r, u) ∧ u.tree = s.tree ∧
      ∀ n segs, r = .ok (n, segs) → segs = resolve true [] (segments slash path) ∧
        ∃ d dirs, Trail s.tree process start d dirs segs.reverse ∧
          n = s.tree.followMounts (s.tree.depth d) d flags.skipLastMount := by
  obtain ⟨err, w, he, htree, hok⟩ := walkSegments_spec (@walking_start s process start) (pathSegments path)
  unfold VirtualFilesystem.vfsLookupNode
  change ∃ r u, (walkSegments process (pathSegments path) (startWalk s start)).map _ = some (r, u) ∧ _
  rw [he, Option.map_some]
  have hclosed := (@foldl_vfsNodeClose_tree w.vfs w.dirs.reverse).trans htree
  cases err with
  | some e => exact ⟨_, _, rfl, hclosed, fun n segs hr => by cases hr⟩
  | none =>
    refine ⟨_, _, rfl, (vfsFollowMounts_tree _ _).trans hclosed, fun n segs hr => ?_⟩
    obtain ⟨hw, hres⟩ := hok rfl
    rw [vfsFollowMounts_fst, hclosed] at hr
    simp only [Except.ok.injEq, Prod.mk.injEq] at hr
    obtain ⟨rfl, rfl⟩ := hr
    rw [pathSegments_eq] at hres
    exact ⟨hres.symm, w.curr, w.dirs, by rw [List.reverse_reverse]; exact hw.trail, rfl⟩

theorem walkSegments_append (xs ys : List Name) (w : Walk) : walkSegments process (xs ++ ys) w =
    (walkSegments process xs w).bind fun r => match r.1 with
      | some e => some (some e, r.2)
      | none => walkSegments process ys r.2 := by
  induction xs generalizing w with
  | nil => rfl
  | cons x xs ih =>
    rw [List.cons_append, walkSegments, walkSegments]
    cases walkSegment process x w with
    | none => rfl
    | some r =>
      obtain ⟨err, w⟩ := r
      cases err with
      | some e => rfl
      | none => exact ih w

/-- The names of a trail lead along it. -/
theorem Trail.walked {n : NodeId} {dirs : List NodeId} {segs : List Name} (h : Trail s.tree process start n dirs segs) :
    ∃ w, walkSegments process segs.reverse (startWalk s start) = some (none, w) ∧
      Walking s.tree process start w ∧ w.curr = n ∧ w.segs = segs := by
  induction h with
  | start => exact ⟨_, rfl, walking_start, rfl, rfl⟩
  | @step d n dirs segs name h hdir hname hbelow ih =>
    obtain ⟨w, he, hw, hcurr, hsegs⟩ := ih
    rw [← hcurr] at hdir hbelow
    rw [List.reverse_cons, walkSegments_append, he, Option.bind_some]
    rcases walkSegment_cases hw name with ⟨hn, -⟩ | ⟨-, hc⟩
    · rw [hdir] at hn
      cases hn
    rcases hc with ⟨hn, -⟩ | ⟨hn, -⟩ | ⟨hn, -⟩ | ⟨-, -, ⟨e, hn, -⟩ | ⟨m, hm, hstep⟩⟩
    · exact absurd hn hname.1
    · exact absurd hn hname.2
    · exact absurd hn hname.2
    · rw [hbelow] at hn
      cases hn
    · obtain ⟨err, w', hstep', -, hok⟩ := walkSegment_spec hw name
      rw [hstep] at hstep'
      cases hstep'
      rw [hbelow] at hm
      cases hm
      exact ⟨_, by rw [walkSegments, hstep]; rfl, (hok rfl).1, rfl, by rw [← hsegs]; rfl⟩

theorem Trail.found {n : NodeId} {dirs : List NodeId} {segs : List Name} (h : Trail s.tree process start n dirs segs.reverse)
    (hpath : segments slash path = segs) : ∃ u, s.vfsLookupNode process start path flags =
      some (.ok (s.tree.followMounts (s.tree.depth n) n flags.skipLastMount, segs), u) := by
  obtain ⟨w, he, hw, hcurr, hsegs⟩ := h.walked
  rw [List.reverse_reverse, ← hpath, ← pathSegments_eq] at he
  unfold VirtualFilesystem.vfsLookupNode
  change ∃ u, (walkSegments process (pathSegments path) (startWalk s start)).map _ = some (_, u)
  rw [he, Option.map_some]
  have hclosed := (@foldl_vfsNodeClose_tree w.vfs w.dirs.reverse).trans hw.tree
  dsimp only
  rw [vfsFollowMounts_fst, hclosed, hcurr, hsegs, List.reverse_reverse]
  exact ⟨_, rfl⟩

/-- The root has a directory `a` and another one `b`. The mount, if there is one, is on `a`. -/
def twoDirectories (mount : Option ℕ) : Tree where
  stat _ := { mode := typeDir <<< 12, nlinks := 1 }
  entries n := if n = (0, 1) then [([97], 2), ([98], 3)] else []
  rootNode _ := 1
  mounted n := if n = (0, 2) ∧ mount = some 1 then some 1 else none
  depth n := if n = (0, 2) then 1 else 0
  stacked n sb h := by
    obtain ⟨rfl, -, rfl⟩ : n = (0, 2) ∧ _ ∧ sb = 1 := by
      split_ifs at h with hn
      exact ⟨hn.1, trivial, by simpa using h.symm⟩
    decide
  newNode _ := .ok 4
  lookupError _ := none
  readError _ := none
  linkError _ := none
  unlinkError _ := none
  truncError _ := none
  freeError _ := false
  device _ := false

end Lookup

end SomeOs.Vfs
