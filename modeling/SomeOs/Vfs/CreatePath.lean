import SomeOs.Vfs.Create
import SomeOs.Vfs.LookupAt

/-! # The path of a created file

The block that the path is recorded in is filled by the parent's path, a slash and the name, so that
nothing is left for a terminator. Only below the root is there a byte left, which is not written.
-/
namespace SomeOs.Vfs
open Minix Segments

/-- The drivers give out inodes that are not used, and do not fail with the error for a name that is missing. -/
structure Sound (t : Tree) : Prop where
  missing : ∀ n, t.lookupError n ≠ some .ENOENT
  unused : ∀ sb i, t.newNode sb = .ok i → i ≠ t.rootNode sb ∧ t.mounted (sb, i) = none ∧
    ∀ n e, n.1 = sb → e ∈ t.entries n → e.2 ≠ i

/-- The path that is recorded is a string within its block, the canonical one, and leads to the node. -/
def RecordsPath (u : VirtualFilesystem) (process : Option User) (f : VfsFile) (path : List UInt8) : Prop :=
  ∃ real_path rest, f.path = real_path ++ 0 :: rest ∧ 0 ∉ real_path ∧ real_path = canonicalPath path ∧
    ∃ x v, u.vfsLookupNodeAtExactAbs process real_path {} = some (.ok (f.node, x), v)

section Strings
variable {garbage : ℕ → UInt8} {parent filename junk : List UInt8}

theorem kalloc_length (size : ℕ) : (kalloc garbage size).length = size := by simp [kalloc]

theorem kalloc_last (size : ℕ) : (kalloc garbage (size + 1)).drop size = [garbage size] := by
  have hsplit : kalloc garbage (size + 1) = kalloc garbage size ++ [garbage size] := by simp [kalloc, List.range_succ]
  rw [hsplit, List.drop_append_of_le_length (kalloc_length size).ge, List.drop_eq_nil_of_le (kalloc_length size).le,
    List.nil_append]

theorem newNodePath_eq (hparent : 0 ∉ parent) (hname : 0 ∉ filename) :
    newNodePath garbage (parent ++ [0]) (filename ++ 0 :: junk) =
      some (if parent.length = 1 then parent ++ filename ++ [garbage (1 + filename.length)]
        else parent ++ slash :: filename) := by
  have hlen := @kalloc_length garbage (parent.length + 1 + filename.length)
  have hall := @storeAll_eq [] (kalloc garbage (parent.length + 1 + filename.length)) parent (by omega)
  rw [List.nil_append, List.nil_append, List.length_nil] at hall
  unfold newNodePath
  simp only [cString_append hparent, cString_append hname]
  rw [hall, Option.bind_some]
  split_ifs with hone
  · have hrest := @storeAll_eq parent ((kalloc garbage (parent.length + 1 + filename.length)).drop parent.length) filename
      (by simp [hlen]; omega)
    rw [List.drop_drop, hone] at hrest
    rw [hone, hrest, show 1 + 1 + filename.length = 1 + filename.length + 1 by omega, kalloc_last]
  · have hslash := @store_eq parent ((kalloc garbage (parent.length + 1 + filename.length)).drop parent.length) slash
      (by rw [List.length_drop]; omega)
    have hrest := @storeAll_eq (parent ++ [slash]) (((kalloc garbage (parent.length + 1 + filename.length)).drop
      parent.length).drop 1) filename
      (by simp [hlen])
    rw [List.length_append, List.length_singleton] at hrest
    rw [hslash, Option.bind_some, ← List.singleton_append, ← List.append_assoc, hrest]
    rw [List.drop_eq_nil_of_le (by simp [hlen])]
    simp

end Strings

section Tree
variable {t : Tree} {process : Option User} {start curr n : NodeId} {dirs : List NodeId} {segs segs' init : List Name}
  {name : Name}

theorem Trail.up (h : Trail t process start curr dirs segs) :
    Trail t process start (goUp curr dirs) (if 1 < dirs.length then dirs.tail else dirs) segs.tail := by
  cases h with
  | start => exact .start
  | @step d n dirs segs name h hdir hname hbelow =>
    have hlen : 1 < (d :: dirs).length := by simp [h.length]
    rw [goUp, if_pos hlen, if_pos hlen]
    exact h

theorem lookup_notDir {skip : Bool} {rest : List Name} (h : t.isDir curr = false) :
    t.lookup process skip (name :: rest) curr dirs segs = (.error .ENOTDIR, []) := by
  rw [Tree.lookup, if_pos h]

theorem lookup_dot {skip : Bool} {rest : List Name} (h : t.isDir curr = true) :
    t.lookup process skip (dot :: rest) curr dirs segs = t.lookup process skip rest curr dirs segs := by
  rw [Tree.lookup, if_neg (by simp [h]), if_pos rfl]

theorem lookup_dotDot {skip : Bool} {rest : List Name} (h : t.isDir curr = true) :
    t.lookup process skip (dotDot :: rest) curr dirs segs =
    t.lookup process skip rest (goUp curr dirs) (if 1 < dirs.length then dirs.tail else dirs) segs.tail := by
  rw [Tree.lookup, if_neg (by simp [h]), if_neg (by decide), if_pos rfl]

theorem lookup_name {skip : Bool} {rest : List Name} (h : t.isDir curr = true) (hname : name ≠ dot ∧ name ≠ dotDot) :
    (t.lookup process skip (name :: rest) curr dirs segs).1 = (match t.below process curr name with
      | .error e => .error e
      | .ok n => (t.lookup process skip rest n (curr :: dirs) (name :: segs)).1) := by
  rw [Tree.lookup, if_neg (by simp [h]), if_neg hname.1, if_neg hname.2]
  cases t.below process curr name <;> rfl

/-- Where the directory is found but not the name in it. -/
theorem lookup_missing {skip skip' : Bool} (h : Trail t process start curr dirs segs)
    (hdir : (t.lookup process skip init curr dirs segs).1 = .ok (n, segs'))
    (hmissing : (t.lookup process skip' (init ++ [name]) curr dirs segs).1 = .error .ENOENT) :
    ∃ d dirs', Trail t process start d dirs' segs'.reverse ∧ n = t.followMounts (t.depth d) d skip ∧ t.isDir d = true ∧
      (name ≠ dot ∧ name ≠ dotDot) ∧ t.below process d name = .error .ENOENT := by
  induction init generalizing curr dirs segs with
  | nil =>
    cases hdir
    cases hd : t.isDir curr with
    | false => simp [lookup_notDir hd] at hmissing
    | true =>
      by_cases h1 : name = dot
      · simp [h1, lookup_dot hd, Tree.lookup] at hmissing
      · by_cases h2 : name = dotDot
        · simp [h2, lookup_dotDot hd, Tree.lookup] at hmissing
        · refine ⟨curr, dirs, by rw [List.reverse_reverse]; exact h, rfl, hd, ⟨h1, h2⟩, ?_⟩
          rw [List.nil_append, lookup_name hd ⟨h1, h2⟩] at hmissing
          cases hbelow : t.below process curr name with
          | error e => simpa [hbelow] using hmissing
          | ok m => simp [hbelow, Tree.lookup] at hmissing
  | cons x init ih =>
    rw [List.cons_append] at hmissing
    cases hd : t.isDir curr with
    | false => simp [lookup_notDir hd] at hdir
    | true =>
      by_cases h1 : x = dot
      · subst h1
        rw [lookup_dot hd] at hdir hmissing
        exact ih h hdir hmissing
      · by_cases h2 : x = dotDot
        · subst h2
          rw [lookup_dotDot hd] at hdir hmissing
          exact ih h.up hdir hmissing
        · rw [lookup_name hd ⟨h1, h2⟩] at hdir hmissing
          cases hbelow : t.below process curr x with
          | error e => simp [hbelow] at hdir
          | ok m =>
            rw [hbelow] at hdir hmissing
            exact ih (.step h hd ⟨h1, h2⟩ hbelow) hdir hmissing

theorem followMounts_cases (depth : ℕ) (skip : Bool) :
    t.followMounts depth n skip = n ∨ ∃ sb, t.followMounts depth n skip = (sb, t.rootNode sb) := by
  induction depth generalizing n with
  | zero => exact Or.inl rfl
  | succ depth ih =>
    unfold Tree.followMounts
    cases t.mounted n with
    | none => exact Or.inl rfl
    | some sb =>
      dsimp only
      split_ifs
      · exact Or.inl rfl
      · rcases @ih (sb, t.rootNode sb) with h | h
        · exact Or.inr ⟨sb, h⟩
        · exact Or.inr h

end Tree

/-- A tree with one more entry. Of the new node nothing is said. -/
structure Extended (t t' : Tree) (parent new : NodeId) (name : Name) : Prop where
  stat : ∀ n, n ≠ new → t'.stat n = t.stat n
  entries : t'.entries parent = Filesystem.addEntry (t.entries parent) name new.2
  mounted : t'.mounted = t.mounted
  rootNode : t'.rootNode = t.rootNode
  depth : t'.depth = t.depth
  lookupError : t'.lookupError = t.lookupError
  readError : t'.readError = t.readError

section Create
variable {s u : VirtualFilesystem} {process : Option User} {umask mode : ℕ} {garbage : ℕ → UInt8} {file : Option (List UInt8)}
  {path : List UInt8} {flags : Filesystem.OpenFlags} {node new parent : NodeId} {real_path : List UInt8} {f : VfsFile}
  {name : Name} {t t' : Tree} {stat : VfsStat}

theorem vfsNodeLink_extended (h : (t.setStat new stat).vfsNodeLink process parent name new = (.ok (), t')) :
    Extended t t' parent new name := by
  unfold Tree.vfsNodeLink at h
  by_cases hsb : parent.1 ≠ new.1
  · rw [if_pos hsb] at h
    cases h
  rw [if_neg hsb] at h
  cases haccess : (t.setStat new stat).access process parent { w := true, dir := true } with
  | error e =>
    rw [haccess] at h
    cases h
  | ok x =>
    rw [haccess] at h
    dsimp only at h
    split at h
    · cases h
    · simp only [Prod.mk.injEq, true_and] at h
      subst h
      refine ⟨fun n hn => ?_, ?_, rfl, rfl, rfl, rfl, rfl⟩
      · simp [Tree.setStat, Tree.setEntries, Function.update_of_ne hn]
      · simp [Tree.setStat, Tree.setEntries]

theorem vfsOpenNode_ok (h : s.vfsOpenNode process node real_path flags = (.ok f, u)) :
    f = ⟨node, real_path⟩ ∧ (u = s ∨ u = { s with tree := s.tree.setEntries node [] }) := by
  unfold VirtualFilesystem.vfsOpenNode at h
  split at h
  · cases h
  · dsimp only at h
    split_ifs at h
    · cases h
      exact ⟨rfl, Or.inl rfl⟩
    · cases h
      exact ⟨rfl, Or.inl rfl⟩
    · cases h
    · split at h
      · cases h
      · cases h
      · cases h
        exact ⟨rfl, Or.inr rfl⟩
    · cases h
      exact ⟨rfl, Or.inl rfl⟩

theorem lookupAt_keeps (h0 : 0 ∉ path) (hfile : ∀ cwd ∈ file, 0 ∉ cwd) (flags : LookupFlags) :
    ∃ u, s.vfsLookupNodeAt process file path flags = some ((s.lookupAt process file path flags).1, u) ∧
      u.tree = s.tree ∧ u.root_mounted = s.root_mounted :=
  @vfsLookupNodeAt_accounts (fun u _ => u.tree = s.tree ∧ u.root_mounted = s.root_mounted) s file path 0
    ⟨fun _ h => h, fun _ h => h⟩ ⟨rfl, rfl⟩ process flags h0 hfile

/-- What is known of a node that was created. -/
theorem vfsCreateNewNode_ok (h0 : 0 ∉ path) (hfile : ∀ cwd ∈ file, 0 ∉ cwd) (hmode : modeType mode ≠ typeDir)
    (h : s.vfsCreateNewNode process umask garbage file path mode = some (.ok (new, real_path), u)) :
    ∃ parent at_prefix segs real_parent_path filename,
      (s.lookupAt process file path { parent := true }).1 = .ok (parent, at_prefix, segs) ∧
      VirtualFilesystem.lookupRealPath garbage at_prefix segs = some real_parent_path ∧
      getBaseFilename (path ++ [0]) = some filename ∧ newNodePath garbage real_parent_path filename = some real_path ∧
      s.tree.newNode parent.1 = .ok new.2 ∧ s.tree.readError new = none ∧ parent.1 = new.1 ∧
      Extended s.tree u.tree parent new (cString filename) ∧ u.root_mounted = s.root_mounted := by
  obtain ⟨u₁, hlookup, htree, hroot⟩ := @lookupAt_keeps s process file path h0 hfile { parent := true }
  unfold VirtualFilesystem.vfsCreateNewNode at h
  rw [hlookup, Option.bind_some] at h
  cases hr : (s.lookupAt process file path { parent := true }).1 with
  | error e =>
    rw [hr] at h
    cases h
  | ok r =>
    obtain ⟨parent, at_prefix, segs⟩ := r
    rw [hr] at h
    dsimp only at h
    cases hreal : VirtualFilesystem.lookupRealPath garbage at_prefix segs with
    | none =>
      rw [hreal] at h
      cases h
    | some real_parent_path =>
      rw [hreal, Option.bind_some, VirtualFilesystem.vfsSuperNewNode, htree] at h
      cases hnew : s.tree.newNode parent.1 with
      | error e =>
        rw [hnew] at h
        cases h
      | ok i =>
        rw [hnew] at h
        cases hread : s.tree.readError (parent.1, i) with
        | some e =>
          simp only [hread] at h
          cases h
        | none =>
          simp only [hread] at h
          cases hname : getBaseFilename (path ++ [0]) with
          | none =>
            rw [hname] at h
            cases h
          | some filename =>
            rw [hname, Option.bind_some, VirtualFilesystem.change] at h
            dsimp only at h
            rw [vfsNodeCopy_tree, htree] at h
            cases hlink : (s.tree.setStat (parent.1, i) (Filesystem.newStat process umask mode)).vfsNodeLink process parent
                (cString filename) (parent.1, i) with
            | mk err t =>
              rw [hlink] at h
              cases err with
              | error e => cases h
              | ok x =>
                simp only [if_neg hmode] at h
                obtain ⟨bytes, hpath, heq⟩ := Option.map_eq_some_iff.mp h
                cases heq
                exact ⟨parent, at_prefix, segs, real_parent_path, filename, rfl, hreal, rfl, hpath, hnew, hread, rfl,
                  vfsNodeLink_extended hlink, hroot⟩

end Create

/-- All that is known after a file was created. -/
structure Creation (s u : VirtualFilesystem) (process : Option User) (garbage : ℕ → UInt8) (root : NodeId) (path : List UInt8)
    (f : VfsFile) (init : List Name) (name : Name) (parent : NodeId) : Prop where
  segments_eq : segments slash path = init ++ [name]
  found : ∃ d dirs, Trail s.tree process root d dirs (resolve true [] init).reverse ∧
    parent = s.tree.followMounts (s.tree.depth d) d false ∧
    s.tree.isDir d = true ∧ (name ≠ dot ∧ name ≠ dotDot) ∧ s.tree.below process d name = .error .ENOENT
  path_eq : f.path = if resolve true [] init = [] then slash :: name ++ [garbage (1 + name.length)]
    else joined (resolve true [] init) ++ slash :: name
  new : s.tree.newNode parent.1 = .ok f.node.2
  read : s.tree.readError f.node = none
  superblock : parent.1 = f.node.1
  extended : parent ≠ f.node → Extended s.tree u.tree parent f.node name
  mounted : u.root_mounted = s.root_mounted

section Open
variable {s u : VirtualFilesystem} {process : Option User} {umask mode sb : ℕ} {garbage : ℕ → UInt8} {file : Option (List UInt8)}
  {path absolute_path : List UInt8} {flags : Filesystem.OpenFlags} {f : VfsFile}

def withPrefix (r : Except ErrorKind (NodeId × List Name)) : Except ErrorKind (NodeId × List UInt8 × List Name) :=
  match r with
  | .error e => .error e
  | .ok (n, segs) => .ok (n, [], segs)

theorem withPrefix_ok {r : Except ErrorKind (NodeId × List Name)} {n : NodeId} { at_prefix : List UInt8} {segs : List Name}
    (h : withPrefix r = .ok (n, at_prefix, segs)) : r = .ok (n, segs) ∧ at_prefix = [] := by
  cases r with
  | error e => cases h
  | ok r =>
    cases h
    exact ⟨rfl, rfl⟩

theorem withPrefix_error {r : Except ErrorKind (NodeId × List Name)} {e : ErrorKind} (h : withPrefix r = .error e) :
    r = .error e := by
  cases r with
  | error e =>
    cases h
    rfl
  | ok r => cases h

theorem lookupExactAbs_root (hroot : s.root_mounted = some sb) (lookup : LookupFlags) : (s.lookupExactAbs process path lookup).1 =
    withPrefix (s.tree.lookup process lookup.skipLastMount (segments slash path) (sb, s.tree.rootNode sb)
      [(sb, s.tree.rootNode sb)] []).1 := by
  rw [VirtualFilesystem.lookupExactAbs, VirtualFilesystem.mountFor, hroot]
  rfl

theorem lookupAt_plain (hroot : s.root_mounted = some sb) (habs : absolutePath file path = some absolute_path) :
    (s.lookupAt process file path {}).1 = withPrefix
      (s.tree.lookup process false (segments slash absolute_path) (sb, s.tree.rootNode sb) [(sb, s.tree.rootNode sb)] []).1 := by
  rw [VirtualFilesystem.lookupAt, habs]
  exact lookupExactAbs_root hroot {}

theorem lookupAt_parent {dir base : List UInt8} {n : ℕ} (hroot : s.root_mounted = some sb)
    (habs : absolutePath file path = some absolute_path)
    (h0 : 0 ∉ absolute_path) (hsplit : Split absolute_path dir base n) : (s.lookupAt process file path { parent := true }).1 =
      withPrefix (s.tree.lookup process false (segments slash dir) (sb, s.tree.rootNode sb) [(sb, s.tree.rootNode sb)] []).1 := by
  obtain ⟨parent_path, junk, hpath, hpath0, hsegs, -⟩ := hsplit.parentPath h0
  rw [VirtualFilesystem.lookupAt, habs]
  simp only [VirtualFilesystem.lookupAbs, if_true, hpath, Option.getD_some, cString_append hpath0]
  rw [lookupExactAbs_root hroot, hsegs]

theorem lookup_names {root n : NodeId} {segs : List Name} {skip : Bool} (s : VirtualFilesystem)
    (h : (s.tree.lookup process skip (segments slash path) root [root] []).1 = .ok (n, segs)) :
    segs = resolve true [] (segments slash path) := by
  obtain ⟨u, hu, -⟩ := @vfsLookupNode_accounts (fun _ _ => True) s 0 ⟨fun _ h => h, fun _ h => h⟩ trivial process root path
    { skipLastMount := skip }
  obtain ⟨r, v, hv, -, hok⟩ := vfsLookupNode_spec s process root path { skipLastMount := skip }
  rw [hu] at hv
  cases hv
  exact (hok n segs h).1

theorem absolutePath_segments (h : absolutePath file path = some absolute_path) :
    ∃ before, segments slash absolute_path = before ++ segments slash path := by
  unfold absolutePath at h
  split_ifs at h
  · cases h
    exact ⟨[], rfl⟩
  · obtain ⟨cwd, -, rfl⟩ := Option.map_eq_some_iff.mp h
    exact ⟨segments slash cwd, segments_append_sep cwd path⟩

theorem absolutePath_split {filename : List UInt8} (h0 : 0 ∉ path) (habs : absolutePath file path = some absolute_path)
    (hname : getBaseFilename (path ++ [0]) = some filename) :
    ∃ dir name n junk, Split absolute_path dir name n ∧ filename = name ++ 0 :: junk ∧ 0 ∉ name := by
  obtain ⟨dir₀, name, n₀, hsplit₀⟩ := exists_split ((exists_baseFilename_iff h0).mp ⟨filename, hname⟩)
  obtain ⟨junk, hname'⟩ := hsplit₀.baseFilename h0
  rw [hname] at hname'
  cases hname'
  obtain ⟨before, hbefore⟩ := absolutePath_segments habs
  rw [hsplit₀.segments_eq, ← List.append_assoc] at hbefore
  obtain ⟨dir, base, n, hsplit⟩ := @exists_split absolute_path (by rw [hbefore]; simp)
  obtain rfl : base = name := List.singleton_inj.mp (List.append_inj' (hsplit.segments_eq.symm.trans hbefore) rfl).2
  exact ⟨dir, base, n, junk, hsplit, rfl, fun hin => h0 (by rw [hsplit₀.path]; simp [hin])⟩

theorem resolve_name_chars {init : List Name} (h : ∀ w ∈ init, w ≠ [] ∧ slash ∉ w ∧ 0 ∉ w) :
    ∀ w ∈ resolve true [] init, w ≠ [] ∧ 0 ∉ w := by
  obtain ⟨kept, n, hres, hstack⟩ := resolve_stack (stack_nil true) fun w hw => ⟨(h w hw).1, (h w hw).2.1⟩
  intro w hw
  refine ⟨?_, resolve_chars (by decide) (by simp) (fun v hv => (h v hv).2.2) w hw⟩
  rw [hres, List.mem_reverse] at hw
  exact (hstack.segment w hw).1

theorem parentPath_eq {segs : List Name} (h : ∀ w ∈ segs, w ≠ [] ∧ 0 ∉ w) :
    ∃ parent, VirtualFilesystem.lookupRealPath garbage [] segs =
    some (parent ++ [0]) ∧ 0 ∉ parent ∧ (parent.length = 1 ↔ segs = []) ∧
      parent = if segs = [] then [slash] else joined segs := by
  refine ⟨_, realPath_eq (kalloc_length _), ?_⟩
  cases segs with
  | nil => exact ⟨by decide, by simp, rfl⟩
  | cons w segs =>
    have hw := (h w List.mem_cons_self).1
    have hlen : (joined (w :: segs)).length ≠ 1 := by
      have := List.length_pos_of_ne_nil hw
      rw [joined_length, List.map_cons, List.sum_cons]
      omega
    refine ⟨?_, by simpa using hlen, by simp⟩
    simp only [List.cons_ne_nil, and_false, if_false, List.nil_append, joined, List.mem_flatMap, List.mem_cons, not_exists,
      not_and, not_or]
    exact fun v hv => ⟨by decide, (h v (List.mem_cons.mpr hv)).2⟩

theorem vfsOpenAt_creation (hroot : s.root_mounted = some sb) (h0 : 0 ∉ path) (hfile : ∀ cwd ∈ file, 0 ∉ cwd)
    (habs : absolutePath file path = some absolute_path) (hmissing : (s.lookupAt process file path {}).1 = .error .ENOENT)
    (h : s.vfsOpenAt process umask garbage file path flags mode = some (.ok f, u)) :
    ∃ init name parent, Creation s u process garbage (sb, s.tree.rootNode sb) absolute_path f init name parent := by
  obtain ⟨habs0, hne⟩ := absolutePath_string h0 hfile habs
  obtain ⟨u₁, hlookup, htree₁, hroot₁⟩ := @lookupAt_keeps s process file path h0 hfile {}
  unfold VirtualFilesystem.vfsOpenAt at h
  rw [hlookup, Option.bind_some, hmissing] at h
  dsimp only at h
  by_cases hcreat : flags.creat = true
  swap
  · rw [if_neg (by simp [hcreat])] at h
    cases h
  rw [if_pos ⟨rfl, hcreat⟩] at h
  obtain ⟨⟨r, v⟩, hcreate, hopen⟩ := Option.map_eq_some_iff.mp h
  cases r with
  | error e => cases hopen
  | ok r =>
    obtain ⟨node, real_path⟩ := r
    dsimp only at hopen
    obtain ⟨rfl, hu⟩ := vfsOpenNode_ok hopen
    obtain ⟨parent, at_prefix, segs, real_parent_path, filename, hparent, hreal, hname, hpath, hnew, hread, hsb, hext, hmount⟩ :=
      vfsCreateNewNode_ok h0 hfile (typeReg_mode mode) hcreate
    rw [htree₁] at hnew hread hext
    obtain ⟨dir, name, n, junk, hsplit, rfl, hname0⟩ := absolutePath_split h0 habs hname
    obtain ⟨hdir, rfl⟩ : (s.tree.lookup process false (segments slash dir) (sb, s.tree.rootNode sb) [(sb, s.tree.rootNode sb)]
      []).1 = .ok (parent, segs) ∧ at_prefix = [] := by
      rw [lookupAt_parent (hroot₁.trans hroot) habs habs0 hsplit, htree₁] at hparent
      exact withPrefix_ok hparent
    have hmissing' : (s.tree.lookup process false (segments slash dir ++ [name]) (sb, s.tree.rootNode sb)
      [(sb, s.tree.rootNode sb)] []).1 = .error .ENOENT := by
      rw [lookupAt_plain hroot habs, hsplit.segments_eq] at hmissing
      exact withPrefix_error hmissing
    obtain rfl : segs = resolve true [] (segments slash dir) := by
      obtain ⟨parent_path, -, -, -, hppsegs, -⟩ := hsplit.parentPath habs0
      rw [← hppsegs] at hdir ⊢
      exact lookup_names s hdir
    have hchars : ∀ w ∈ resolve true [] (segments slash dir), w ≠ [] ∧ 0 ∉ w := by
      refine resolve_name_chars fun w hw => ⟨(mem_segments hw).1, (mem_segments hw).2, fun hin => ?_⟩
      exact habs0 (by rw [hsplit.path]; simp [mem_of_mem_segments hw hin])
    obtain ⟨text, htext, htext0, hone, hif⟩ := @parentPath_eq garbage _ hchars
    rw [hreal] at htext
    cases htext
    refine ⟨segments slash dir, name, parent, ⟨hsplit.segments_eq, lookup_missing .start hdir hmissing', ?_, hnew, hread, hsb,
      ?_, ?_⟩⟩
    · rw [newNodePath_eq htext0 hname0] at hpath
      cases hpath
      simp only [hone]
      split_ifs with hnil
      · rw [hif, if_pos hnil, List.singleton_append]
      · rw [hif, if_neg hnil]
    · intro hne
      rw [cString_append hname0] at hext
      rcases hu with rfl | rfl
      · exact hext
      · refine ⟨hext.stat, ?_, hext.mounted, hext.rootNode, hext.depth, hext.lookupError, hext.readError⟩
        rw [← hext.entries]
        exact Function.update_of_ne hne _ _
    · rcases hu with rfl | rfl
      · exact hmount.trans hroot₁
      · exact hmount.trans hroot₁

end Open

section Names
variable {l : List (Name × ℕ)} {name : Name} {i : ℕ}

theorem find_addEntry (h : name.length < 60) : (Filesystem.addEntry l name i).find? (·.1 = name) = some (name, i) := by
  unfold Filesystem.addEntry
  rw [if_neg (by omega)]
  cases hidx : l.findIdx? (·.1 = name) with
  | none =>
    have hnone : l.find? (·.1 = name) = none := by
      rw [List.find?_eq_none]
      exact fun e he => by simpa using List.findIdx?_eq_none_iff.mp hidx e he
    rw [List.find?_append, hnone]
    simp
  | some k =>
    obtain ⟨hk, hname, hbefore⟩ := List.findIdx?_eq_some_iff_getElem.mp hidx
    dsimp only
    rw [List.find?_eq_some_iff_append]
    refine ⟨by simp, l.take k, l.drop (k + 1), List.set_eq_take_append_cons_drop.trans (if_pos hk), fun e he => ?_⟩
    obtain ⟨j, hj, rfl⟩ := List.mem_iff_getElem.mp he
    rw [List.getElem_take]
    simpa using hbefore j (by simp at hj; omega)

theorem mem_of_addEntry (h : 60 ≤ name.length) {e : Name × ℕ} (he : e ∈ Filesystem.addEntry l name i) (hname : e.1 = name) :
    e ∈ l := by
  have hne : e ≠ (name.take 59, i) := by
    rintro rfl
    have := congrArg List.length hname
    simp only [List.length_take] at this
    omega
  unfold Filesystem.addEntry at he
  rw [if_pos h] at he
  cases hidx : l.findIdx? (·.1 = name) with
  | none =>
    rw [hidx] at he
    simpa [hne] using he
  | some k =>
    rw [hidx] at he
    exact (List.mem_or_eq_of_mem_set he).resolve_right hne

end Names

theorem resolve_append (absolute : Bool) (kept xs ys : List Name) :
    resolve absolute kept (xs ++ ys) = resolve absolute (resolve absolute kept xs).reverse ys := by
  induction xs generalizing kept with
  | nil => simp [resolve]
  | cons x xs ih =>
    rw [List.cons_append]
    by_cases h1 : x = dot
    · rw [h1, resolve_dot, resolve_dot, ih]
    · by_cases h2 : x = dotDot
      · subst h2
        rw [resolve.eq_def absolute kept (dotDot :: (xs ++ ys)), resolve.eq_def absolute kept (dotDot :: xs)]
        simp only [if_neg (show dotDot ≠ dot by decide), if_true]
        cases kept <;> exact ih _
      · rw [resolve_name h1 h2, resolve_name h1 h2, ih]

section Found
variable {t t' : Tree} {process : Option User} {n parent : NodeId} {name : Name}

theorem canAccess_ne_missing {stat : VfsStat} {flags : AccessFlags} : canAccess stat process flags ≠ .error .ENOENT := by
  unfold canAccess
  cases process with
  | none => simp
  | some user =>
    dsimp only
    split_ifs <;> simp

theorem vfsNodeLookup_missing (hsound : Sound t) (h : t.vfsNodeLookup process n name = .error .ENOENT) :
    t.access process n { x := true, dir := true } = .ok () ∧ t.lookupError n = none := by
  unfold Tree.vfsNodeLookup at h
  cases haccess : t.access process n { x := true, dir := true } with
  | error e =>
    rw [haccess] at h
    cases h
    exact absurd haccess canAccess_ne_missing
  | ok x =>
    cases herror : t.lookupError n with
    | none => exact ⟨rfl, rfl⟩
    | some e =>
      rw [haccess, herror] at h
      cases h
      exact absurd herror (hsound.missing n)

theorem followMounts_congr (hm : t'.mounted = t.mounted) (hr : t'.rootNode = t.rootNode) (depth : ℕ) (skip : Bool) :
    t'.followMounts depth n skip = t.followMounts depth n skip := by
  induction depth generalizing n with
  | zero => rfl
  | succ depth ih =>
    unfold Tree.followMounts
    rw [hm, hr]
    cases t.mounted n with
    | none => rfl
    | some sb => simp only [ih]

theorem followMounts_none (h : t.mounted n = none) (depth : ℕ) (skip : Bool) : t.followMounts depth n skip = n := by
  cases depth with
  | zero => rfl
  | succ depth => rw [Tree.followMounts, h]

end Found

section Recorded
variable {s u : VirtualFilesystem} {process : Option User} {garbage : ℕ → UInt8} {sb : ℕ} {path : List UInt8} {f : VfsFile}
  {init : List Name} {name : Name} {parent : NodeId}

theorem Creation.name_chars (c : Creation s u process garbage (sb, s.tree.rootNode sb) path f init name parent) (h0 : 0 ∉ path) :
    (∀ w ∈ init, w ≠ [] ∧ slash ∉ w ∧ 0 ∉ w) ∧ name ≠ [] ∧ slash ∉ name ∧ 0 ∉ name := by
  have hall : ∀ w ∈ segments slash path, w ≠ [] ∧ slash ∉ w ∧ 0 ∉ w := fun w hw =>
    ⟨(mem_segments hw).1, (mem_segments hw).2, fun hin => h0 (mem_of_mem_segments hw hin)⟩
  rw [c.segments_eq] at hall
  exact ⟨fun w hw => hall w (by simp [hw]), hall name (by simp)⟩

theorem Creation.parent_root (c : Creation s u process garbage (sb, s.tree.rootNode sb) path f init name parent)
    (hnil : resolve true [] init = []) :
    parent = s.tree.followMounts (s.tree.depth (sb, s.tree.rootNode sb)) (sb, s.tree.rootNode sb) false ∧
      s.tree.isDir (sb, s.tree.rootNode sb) = true ∧ (name ≠ dot ∧ name ≠ dotDot) ∧
      s.tree.vfsNodeLookup process parent name = .error .ENOENT ∧ parent = (parent.1, s.tree.rootNode parent.1) := by
  obtain ⟨d, dirs, htrail, hparent, hdir, hname, hbelow⟩ := c.found
  rw [hnil, List.reverse_nil] at htrail
  cases htrail
  refine ⟨hparent, hdir, hname, by rw [hparent]; exact hbelow, ?_⟩
  rcases @followMounts_cases s.tree (sb, s.tree.rootNode sb) (s.tree.depth (sb, s.tree.rootNode sb)) false with h | ⟨sb', h⟩ <;>
    rw [hparent, h]

theorem Creation.not_root (c : Creation s u process garbage (sb, s.tree.rootNode sb) path f init name parent)
    (hsound : Sound s.tree) (i : ℕ) : f.node ≠ (i, s.tree.rootNode i) := by
  intro heq
  have hnew := c.new
  rw [c.superblock, heq] at hnew
  exact (hsound.unused _ _ hnew).1 rfl

theorem Creation.extended_root (c : Creation s u process garbage (sb, s.tree.rootNode sb) path f init name parent)
    (hsound : Sound s.tree) (hnil : resolve true [] init = []) : Extended s.tree u.tree parent f.node name :=
  c.extended fun heq => c.not_root hsound parent.1 (heq ▸ (c.parent_root hnil).2.2.2.2)

theorem Creation.below (c : Creation s u process garbage (sb, s.tree.rootNode sb) path f init name parent) (hsound : Sound s.tree)
    (hnil : resolve true [] init = []) : u.tree.below process (sb, s.tree.rootNode sb) name =
      match (Filesystem.addEntry (s.tree.entries parent) name f.node.2).find? (·.1 = name) with
      | none => .error .ENOENT
      | some (_, i) =>
        match s.tree.readError (parent.1, i) with
        | some e => .error e
        | none => .ok (parent.1, i) := by
  obtain ⟨hparent, -, -, hmissing, hself⟩ := c.parent_root hnil
  have hext := c.extended_root hsound hnil
  obtain ⟨haccess, herror⟩ := vfsNodeLookup_missing hsound hmissing
  have hne : parent ≠ f.node := fun heq => c.not_root hsound parent.1 (heq ▸ hself)
  have haccess' : u.tree.access process parent { x := true, dir := true } = .ok () := by
    rw [Tree.access, hext.stat parent hne]
    exact haccess
  rw [Tree.below, hext.depth, followMounts_congr hext.mounted hext.rootNode, ← hparent, Tree.vfsNodeLookup, haccess',
    hext.lookupError, herror, hext.entries]
  exact hext.readError ▸ rfl

theorem exactAbs_root (hroot : u.root_mounted = some sb) (path : List UInt8) : u.vfsLookupNodeAtExactAbs process path {} =
    ((u.vfsNodeCopy (sb, u.tree.rootNode sb)).vfsLookupNode process (sb, u.tree.rootNode sb) path {}).map fun r =>
      (match r.1 with
        | .error e => .error e
        | .ok (n, segs) => .ok (n, [], segs), r.2.vfsNodeClose (sb, u.tree.rootNode sb)) := by
  rw [VirtualFilesystem.vfsLookupNodeAtExactAbs, VirtualFilesystem.mountFor, hroot]
  rfl

theorem Creation.lookup_short (c : Creation s u process garbage (sb, s.tree.rootNode sb) path f init name parent)
    (hsound : Sound s.tree)
    (hroot : s.root_mounted = some sb) (h0 : 0 ∉ path) (hnil : resolve true [] init = []) (hlen : name.length < 60) :
    ∃ x v, u.vfsLookupNodeAtExactAbs process (slash :: name) {} = some (.ok (f.node, x), v) := by
  obtain ⟨-, hdir, hname, -, -⟩ := c.parent_root hnil
  have hext := c.extended_root hsound hnil
  obtain ⟨-, hne, hslash, -⟩ := c.name_chars h0
  have hbelow : u.tree.below process (sb, s.tree.rootNode sb) name = .ok f.node := by
    have hread : s.tree.readError (parent.1, f.node.2) = none := by rw [c.superblock]; exact c.read
    rw [c.below hsound hnil, find_addEntry hlen]
    dsimp only
    rw [hread, c.superblock]
  have hdir' : u.tree.isDir (sb, s.tree.rootNode sb) = true := by
    rw [Tree.isDir, hext.stat _ (c.not_root hsound sb).symm]
    exact hdir
  have hmounted : u.tree.mounted f.node = none := by
    have hnew := c.new
    rw [c.superblock] at hnew
    rw [hext.mounted]
    exact (hsound.unused _ _ hnew).2.1
  have htrail : Trail u.tree process (sb, s.tree.rootNode sb) f.node [(sb, s.tree.rootNode sb), (sb, s.tree.rootNode sb)]
    [name] := .step .start hdir' hname hbelow
  obtain ⟨v, hv⟩ := @Trail.found (u.vfsNodeCopy (sb, s.tree.rootNode sb)) process (sb, s.tree.rootNode sb) (slash :: name)
    {} f.node _ [name] htrail
    (by rw [segments_cons_sep, segments_of_not_mem hslash hne])
  rw [exactAbs_root (c.mounted.trans hroot), hext.rootNode, hv, vfsNodeCopy_tree, followMounts_none hmounted]
  exact ⟨_, _, rfl⟩

theorem Creation.lookup_long (c : Creation s u process garbage (sb, s.tree.rootNode sb) path f init name parent)
    (hsound : Sound s.tree)
    (hroot : s.root_mounted = some sb) (h0 : 0 ∉ path) (hnil : resolve true [] init = []) (hlen : 60 ≤ name.length) :
    ¬∃ x v, u.vfsLookupNodeAtExactAbs process (slash :: name) {} = some (.ok (f.node, x), v) := by
  obtain ⟨-, -, hname, -, -⟩ := c.parent_root hnil
  have hext := c.extended_root hsound hnil
  obtain ⟨-, hne, hslash, -⟩ := c.name_chars h0
  rintro ⟨x, v, h⟩
  rw [exactAbs_root (c.mounted.trans hroot), hext.rootNode] at h
  obtain ⟨r, w, hw, -, hok⟩ := vfsLookupNode_spec (u.vfsNodeCopy (sb, s.tree.rootNode sb)) process (sb, s.tree.rootNode sb)
    (slash :: name) {}
  rw [hw, Option.map_some] at h
  cases r with
  | error e => cases h
  | ok r =>
    obtain ⟨n, segs⟩ := r
    cases h
    obtain ⟨hsegs, d, dirs, htrail, hn⟩ := hok _ _ rfl
    rw [segments_cons_sep, segments_of_not_mem hslash hne, resolve_name hname.1 hname.2] at hsegs
    have hsegs : segs = [name] := hsegs
    rw [hsegs] at htrail
    cases htrail with
    | step htrail hdir hname' hbelow =>
      cases htrail
      rw [vfsNodeCopy_tree, c.below hsound hnil] at hbelow
      cases hfind : (Filesystem.addEntry (s.tree.entries parent) name f.node.2).find? (·.1 = name) with
      | none =>
        rw [hfind] at hbelow
        cases hbelow
      | some e =>
        have hmem := mem_of_addEntry hlen (List.mem_of_find?_eq_some hfind) (by simpa using List.find?_some hfind)
        have hunused := (hsound.unused _ _ c.new).2.2 parent e rfl hmem
        rw [hfind] at hbelow
        obtain ⟨e₁, e₂⟩ := e
        dsimp only at hbelow
        split at hbelow
        · cases hbelow
        · cases hbelow
          rcases @followMounts_cases u.tree (parent.1, e₂) (u.tree.depth (parent.1, e₂)) false with h | ⟨sb', h⟩
          · exact hunused (by have := hn.trans h; rw [this])
          · exact c.not_root hsound sb' (by rw [← hext.rootNode]; exact hn.trans h)

variable {umask mode : ℕ} {file : Option (List UInt8)} {absolute_path : List UInt8} {flags : Filesystem.OpenFlags}

theorem Creation.canonical (c : Creation s u process garbage (sb, s.tree.rootNode sb) path f init name parent)
    (habs : isAbsolute path = true) (hnil : resolve true [] init = []) : canonicalPath path = slash :: name := by
  obtain ⟨-, -, hname, -⟩ := c.parent_root hnil
  rw [canonicalPath, habs, c.segments_eq, resolve_append, hnil, List.reverse_nil, resolve_name hname.1 hname.2]
  simp [root, resolve]

/-- A path without a terminator in its block, or with a name that was cut off, is not recorded. -/
theorem Creation.recordsPath_iff (c : Creation s u process garbage (sb, s.tree.rootNode sb) path f init name parent)
    (hsound : Sound s.tree) (hroot : s.root_mounted = some sb) (h0 : 0 ∉ path) (habs : isAbsolute path = true) :
    RecordsPath u process f path ↔ resolve true [] init = [] ∧ garbage (1 + name.length) = 0 ∧ name.length < 60 := by
  obtain ⟨hinit, -, -, hname0⟩ := c.name_chars h0
  have hzero : (0 : UInt8) ∉ slash :: name := by
    rw [List.mem_cons, not_or]
    exact ⟨by decide, hname0⟩
  have hpath := c.path_eq
  constructor
  · rintro ⟨real_path, rest, hreal, hreal0, -, hlookup⟩
    by_cases hnil : resolve true [] init = []
    · rw [if_pos hnil, hreal] at hpath
      have hgarbage : garbage (1 + name.length) = 0 := by
        have hmem : (0 : UInt8) ∈ slash :: name ++ [garbage (1 + name.length)] := by rw [← hpath]; simp
        rcases List.mem_append.mp hmem with h | h
        · exact absurd h hzero
        · exact (List.mem_singleton.mp h).symm
      rw [hgarbage] at hpath
      have hstring : real_path = slash :: name := by
        rw [← @cString_append real_path rest hreal0, hpath, cString_append hzero]
      rw [hstring] at hlookup
      exact ⟨hnil, hgarbage, not_le.mp fun hlen => c.lookup_long hsound hroot h0 hnil hlen hlookup⟩
    · rw [if_neg hnil, hreal] at hpath
      have hmem : (0 : UInt8) ∈ joined (resolve true [] init) ++ slash :: name := by rw [← hpath]; simp
      rcases List.mem_append.mp hmem with h | h
      · obtain ⟨w, hw, hin⟩ := List.mem_flatMap.mp h
        rcases List.mem_cons.mp hin with h | h
        · exact absurd h (by decide)
        · exact absurd h (resolve_name_chars hinit w hw).2
      · exact absurd h hzero
  · rintro ⟨hnil, hgarbage, hlen⟩
    refine ⟨slash :: name, [], ?_, hzero, (c.canonical habs hnil).symm, c.lookup_short hsound hroot h0 hnil hlen⟩
    rw [hpath, if_pos hnil, hgarbage]

/-- The path is recorded only for a name in the root, and only when the byte after it happens to be 0. -/
theorem vfsOpenAt_recordsPath_iff (hsound : Sound s.tree) (hroot : s.root_mounted = some sb) (h0 : 0 ∉ path)
    (hfile : ∀ cwd ∈ file, 0 ∉ cwd)
    (hcwd : ∀ cwd ∈ file, isAbsolute cwd = true) (habs : absolutePath file path = some absolute_path)
    (hmissing : (s.vfsLookupNodeAt process file path {}).map Prod.fst = some (.error .ENOENT))
    (h : s.vfsOpenAt process umask garbage file path flags mode = some (.ok f, u)) :
    RecordsPath u process f absolute_path ↔ resolve true [] (segments slash absolute_path).dropLast = [] ∧
      garbage (1 + ((segments slash absolute_path).getLastD []).length) = 0 ∧
        ((segments slash absolute_path).getLastD []).length < 60 := by
  have hmissing' : (s.lookupAt process file path {}).1 = .error .ENOENT := by
    obtain ⟨u, hu, -⟩ := @lookupAt_keeps s process file path h0 hfile {}
    rw [hu] at hmissing
    exact Option.some.inj hmissing
  have habsolute : isAbsolute absolute_path = true := by
    unfold absolutePath at habs
    split_ifs at habs with hpath
    · cases habs
      exact hpath
    · obtain ⟨cwd, hin, rfl⟩ := Option.map_eq_some_iff.mp habs
      have := hcwd cwd hin
      unfold isAbsolute at this ⊢
      rw [decide_eq_true_eq] at this ⊢
      rw [List.head?_append, this]
      rfl
  obtain ⟨init, name, parent, c⟩ := vfsOpenAt_creation hroot h0 hfile habs hmissing' h
  rw [c.recordsPath_iff hsound hroot (absolutePath_string h0 hfile habs).1 habsolute, c.segments_eq]
  simp

theorem twoDirectories_sound : Sound (twoDirectories none) where
  missing n := by simp [twoDirectories]
  unused sb i h := by
    cases h
    refine ⟨by simp [twoDirectories], by simp [twoDirectories], fun n e _ he => ?_⟩
    simp only [twoDirectories] at he
    split_ifs at he
    · simp only [List.mem_cons, List.not_mem_nil, or_false] at he
      rcases he with rfl | rfl <;> decide
    · cases he

/-- The file `/c`, with a byte 0 after its path -/
theorem recordsPath_in_root : ∃ f u, VirtualFilesystem.vfsOpenAt ⟨twoDirectories none, 0, fun _ => 1, some 0, []⟩ none 0
    (fun _ => 0) none [47, 99] { creat := true } 0 = some (.ok f, u) ∧ RecordsPath u none f [47, 99] := by
  have hopen : (VirtualFilesystem.vfsOpenAt ⟨twoDirectories none, 0, fun _ => 1, some 0, []⟩ none 0 (fun _ => 0) none
    [47, 99] { creat := true } 0).map (·.1.isOk) = some true := by decide
  obtain ⟨⟨r, u⟩, h, hr⟩ := Option.map_eq_some_iff.mp hopen
  cases r with
  | error e => cases hr
  | ok f =>
    refine ⟨f, u, h, (vfsOpenAt_recordsPath_iff twoDirectories_sound rfl (by decide) (by simp) (by simp) rfl ?_ h).mpr
      (by decide)⟩
    decide

/-- The file `/a/c` -/
theorem not_recordsPath_in_directory : ∃ f u, VirtualFilesystem.vfsOpenAt
    ⟨twoDirectories none, 0, fun _ => 1, some 0, []⟩ none 0 (fun _ => 0)
    none [47, 97, 47, 99] { creat := true } 0 = some (.ok f, u) ∧ ¬RecordsPath u none f [47, 97, 47, 99] := by
  have hopen : (VirtualFilesystem.vfsOpenAt ⟨twoDirectories none, 0, fun _ => 1, some 0, []⟩ none 0 (fun _ => 0) none
    [47, 97, 47, 99] { creat := true } 0).map (·.1.toOption.map VfsFile.path) = some (some [47, 97, 47, 99]) := by decide
  obtain ⟨⟨r, u⟩, h, hr⟩ := Option.map_eq_some_iff.mp hopen
  cases r with
  | error e => cases hr
  | ok f =>
    refine ⟨f, u, h, ?_⟩
    rintro ⟨real_path, rest, hpath, -⟩
    have hmem : (0 : UInt8) ∈ f.path := by rw [hpath]; simp
    have hr : f.path = [47, 97, 47, 99] := Option.some.inj hr
    rw [hr] at hmem
    exact absurd hmem (by decide)

end Recorded

end SomeOs.Vfs
