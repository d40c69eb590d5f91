import SomeOs.Vfs.LookupAt

/-! # Temporary mounts

Before there is a root, a path is resolved in the newest mount whose prefix it starts with. The
test of the source looks for the end of a component in the prefix, where there is always one, and
not in the path: names that only begin like a prefix are resolved in its mount too.
-/
namespace SomeOs.Vfs
open Segments

def EndsComponent (path at_prefix : List UInt8) : Prop := at_prefix = path ∨ at_prefix ++ [slash] <+: path

instance (path at_prefix : List UInt8) : Decidable (EndsComponent path at_prefix) :=
  inferInstanceAs (Decidable (_ ∨ _))

def componentMount (mounts : List (List UInt8 × ℕ)) (path : List UInt8) : Option (List UInt8 × ℕ) :=
  mounts.find? fun mount => EndsComponent path mount.1

/-- The rest of the path, looked up from the root of a mount. -/
def Tree.lookupIn (t : Tree) (process : Option User) (path : List UInt8) (flags : LookupFlags) :
    Option (List UInt8 × ℕ) → Except ErrorKind (NodeId × List UInt8 × List Name)
  | none => .error .ENOENT
  | some ( at_prefix, sb) =>
    match (t.lookup process flags.skipLastMount (segments slash (path.drop at_prefix.length)) (sb, t.rootNode sb)
        [(sb, t.rootNode sb)] []).1 with
    | .error e => .error e
    | .ok (n, segs) => .ok (n, at_prefix, segs)

/-- Whatever there is in the mounted file systems, the path is looked up in the mount that has it
below it, and not found if there is none. -/
def ResolvesAtComponents (mounts : List (List UInt8 × ℕ)) (path : List UInt8) : Prop :=
  ∀ (s : VirtualFilesystem) (process : Option User) (flags : LookupFlags), s.root_mounted = none → s.tmp_mounted = mounts →
    ∃ u, s.vfsLookupNodeAtExactAbs process path flags = some (s.tree.lookupIn process path flags (componentMount mounts path), u)

def prefixMount (mounts : List (List UInt8 × ℕ)) (path : List UInt8) : Option (List UInt8 × ℕ) :=
  mounts.find? fun mount => mount.1.isPrefixOf path

/-- Directories without mounts that have all of the names. -/
def openDirectories (names : List Name) : Tree where
  stat _ := { mode := typeDir <<< 12, nlinks := 1 }
  entries _ := names.map fun name => (name, 1)
  rootNode _ := 1
  mounted _ := none
  depth _ := 0
  stacked _ _ h := nomatch h
  newNode _ := .ok 2
  lookupError _ := none
  readError _ := none
  linkError _ := none
  unlinkError _ := none
  truncError _ := none
  freeError _ := false
  device _ := false

section Mounts
variable {mounts : List (List UInt8 × ℕ)} {path at_prefix : List UInt8} {sb : ℕ}

theorem EndsComponent.isPrefixOf (h : EndsComponent path at_prefix) : at_prefix.isPrefixOf path = true := by
  rw [List.isPrefixOf_iff_prefix]
  rcases h with rfl | h
  · exact List.prefix_rfl
  · exact (List.prefix_append _ _).trans h

theorem vfsLookupNodeAtExactAbs_prefixMount {s : VirtualFilesystem} (hroot : s.root_mounted = none)
    (htmp : s.tmp_mounted = mounts) (process : Option User) (path : List UInt8) (flags : LookupFlags) :
    ∃ u, s.vfsLookupNodeAtExactAbs process path flags =
      some (s.tree.lookupIn process path flags (prefixMount mounts path), u) := by
  have hall : Accounts fun _ _ => True := ⟨fun _ _ => trivial, fun _ _ => trivial⟩
  obtain ⟨u, hu, -⟩ := @vfsLookupNodeAtExactAbs_accounts _ s process path flags 0 hall trivial
  refine ⟨u, hu.trans ?_⟩
  have hmount : s.mountFor path = prefixMount mounts path := by
    unfold VirtualFilesystem.mountFor prefixMount
    rw [hroot, htmp]
  unfold VirtualFilesystem.lookupExactAbs Tree.lookupIn
  rw [hmount]
  cases prefixMount mounts path with
  | none => rfl
  | some mount => rfl

theorem componentMount_eq (h : ∀ mount ∈ prefixMount mounts path, EndsComponent path mount.1) :
    componentMount mounts path = prefixMount mounts path := by
  unfold componentMount prefixMount at *
  induction mounts with
  | nil => rfl
  | cons mount mounts ih =>
    simp only [List.find?_cons] at h ⊢
    cases hstarts : mount.1.isPrefixOf path with
    | true =>
      rw [hstarts] at h
      simp [h mount rfl]
    | false =>
      rw [hstarts] at h
      have hnot : ¬EndsComponent path mount.1 := fun hends => by simp [hends.isPrefixOf] at hstarts
      simpa [hnot] using ih h

theorem openDirectories_below {names : List Name} {name : Name} (h : name ∈ names) (curr : NodeId) :
    ∃ n, (openDirectories names).below none curr name = .ok n := by
  have hfind : ∃ e, (names.map fun name => (name, 1)).find? (·.1 = name) = some e := by
    rw [← Option.isSome_iff_exists, List.find?_isSome]
    exact ⟨(name, 1), List.mem_map_of_mem h, by simp⟩
  obtain ⟨e, he⟩ := hfind
  exact ⟨(curr.1, e.2), by simp [Tree.below, Tree.vfsNodeLookup, Tree.access, canAccess, Tree.followMounts, openDirectories, he]⟩

theorem openDirectories_lookup {names rest : List Name} (skip : Bool) (h : ∀ name ∈ rest, name ∈ names) (curr : NodeId)
    (dirs : List NodeId) (segs : List Name) :
    ∃ r, ((openDirectories names).lookup none skip rest curr dirs segs).1 = .ok r := by
  induction rest generalizing curr dirs segs with
  | nil => exact ⟨_, rfl⟩
  | cons name rest ih =>
    have hrest := ih fun name hname => h name (List.mem_cons_of_mem _ hname)
    have hdir : (openDirectories names).isDir curr = true := by
      simp [Tree.isDir, openDirectories, modeType, Nat.shiftLeft_shiftRight]
    rw [Tree.lookup]
    simp only [hdir, Bool.true_eq_false, if_false]
    split_ifs
    · exact hrest _ _ _
    · exact hrest _ _ _
    · exact hrest _ _ _
    · obtain ⟨n, hn⟩ := openDirectories_below (h name List.mem_cons_self) curr
      obtain ⟨r, hr⟩ := hrest n (curr :: dirs) (name :: segs)
      exact ⟨r, by rw [hn, hr]⟩

def openMounts (mounts : List (List UInt8 × ℕ)) (names : List Name) : VirtualFilesystem :=
  ⟨openDirectories names, 0, fun _ => 0, none, mounts⟩

/-- What is resolved right everywhere starts with no prefix in the middle of a component. -/
theorem ResolvesAtComponents.endsComponent (h : ResolvesAtComponents mounts path) :
    ∀ mount ∈ prefixMount mounts path, EndsComponent path mount.1 := by
  rintro ⟨ at_prefix, sb⟩ hmount
  let rest := segments slash (path.drop at_prefix.length)
  let s := openMounts mounts rest
  obtain ⟨r, hr⟩ : ∃ r, (s.tree.lookup none ({} : LookupFlags).skipLastMount rest (sb, s.tree.rootNode sb)
      [(sb, s.tree.rootNode sb)] []).1 = .ok r :=
    openDirectories_lookup false (fun _ h => h) _ _ _
  obtain ⟨u, hu⟩ := vfsLookupNodeAtExactAbs_prefixMount (s := s) rfl rfl none path {}
  obtain ⟨v, hv⟩ := h s none {} rfl rfl
  -- the source looks the rest of the path up in the mount, and finds it
  have hfound : s.tree.lookupIn none path {} (prefixMount mounts path) = .ok (r.1, at_prefix, r.2) := by
    rw [show prefixMount mounts path = _ from hmount]
    simp only [Tree.lookupIn]
    rw [hr]
  have heq : s.tree.lookupIn none path {} (componentMount mounts path) = .ok (r.1, at_prefix, r.2) := by
    rw [← hfound]
    exact congrArg Prod.fst (Option.some.inj (hv.symm.trans hu))
  cases hcomponent : componentMount mounts path with
  | none =>
    rw [hcomponent] at heq
    cases heq
  | some mount =>
    have hends : EndsComponent path mount.1 := by simpa using List.find?_some hcomponent
    rw [hcomponent] at heq
    unfold Tree.lookupIn at heq
    dsimp only at heq
    split at heq
    · cases heq
    · cases heq
      exact hends

/-- Paths are resolved in the mounts that they are below exactly when the newest mount whose prefix
the path starts with, if there is one, ends a component of it. -/
theorem resolvesAtComponents_iff (mounts : List (List UInt8 × ℕ)) (path : List UInt8) :
    ResolvesAtComponents mounts path ↔ ∀ mount ∈ prefixMount mounts path, EndsComponent path mount.1 := by
  refine ⟨fun h => h.endsComponent, fun h s process flags hroot htmp => ?_⟩
  rw [componentMount_eq h]
  exact vfsLookupNodeAtExactAbs_prefixMount hroot htmp process path flags

/-- With a mount at `/a`, the path `/ab` is looked up in it. -/
theorem names_extend_prefixes : ¬∀ (mounts : List (List UInt8 × ℕ)) (path : List UInt8),
    isAbsolute path = true → canonicalPath path = path → ResolvesAtComponents mounts path := by
  intro h
  have hends := (h [([47, 97], 0)] [47, 97, 98] rfl (by decide)).endsComponent ([47, 97], 0) rfl
  revert hends
  decide

end Mounts

end SomeOs.Vfs
