import SomeOs.Vfs.LookupAt

/-! # References of lookups

A state with more references than another one is that state holding them: to hold one more is to
copy a node, to hold one less to close it. What a lookup does to the references is then an equation,
and what it leaves behind is the mount points that it passed.
-/
namespace SomeOs.Vfs
open Segments

def inMemory (refs : Multiset NodeId) (sb : ℕ) : ℕ := (refs.toFinset.filter (·.1 = sb)).card

def VirtualFilesystem.holding (s : VirtualFilesystem) (held : Multiset NodeId) : VirtualFilesystem :=
  { s with
    refs := s.refs + held
    superRefs := fun sb => s.superRefs sb + (inMemory (s.refs + held) sb - inMemory s.refs sb) }

section Holding
variable {s : VirtualFilesystem} {held more : Multiset NodeId} {n : NodeId}

theorem inMemory_le (refs held : Multiset NodeId) (sb : ℕ) : inMemory refs sb ≤ inMemory (refs + held) sb := by
  refine Finset.card_le_card (Finset.filter_subset_filter _ ?_)
  intro x hx
  rw [Multiset.mem_toFinset] at hx ⊢
  exact Multiset.mem_add.mpr (Or.inl hx)

theorem inMemory_cons_of_mem {refs : Multiset NodeId} (h : n ∈ refs) : inMemory (n ::ₘ refs) = inMemory refs := by
  funext sb
  rw [inMemory, inMemory, Multiset.toFinset_cons, Finset.insert_eq_of_mem (Multiset.mem_toFinset.mpr h)]

theorem inMemory_cons {refs : Multiset NodeId} (h : n ∉ refs) (sb : ℕ) :
    inMemory (n ::ₘ refs) sb = if n.1 = sb then inMemory refs sb + 1 else inMemory refs sb := by
  rw [inMemory, inMemory, Multiset.toFinset_cons, Finset.filter_insert]
  split_ifs
  · rw [Finset.card_insert_of_notMem]
    simp [h]
  · rfl

@[simp] theorem holding_zero (s : VirtualFilesystem) : s.holding 0 = s := by
  simp [VirtualFilesystem.holding]

theorem holding_holding (s : VirtualFilesystem) (held more : Multiset NodeId) :
    (s.holding held).holding more = s.holding (held + more) := by
  simp only [VirtualFilesystem.holding, add_assoc, VirtualFilesystem.mk.injEq, true_and, and_true]
  funext sb
  have h1 := inMemory_le s.refs held sb
  have h2 := inMemory_le (s.refs + held) more sb
  rw [add_assoc] at h2
  omega

theorem holding_copy : (s.holding held).vfsNodeCopy n = s.holding (n ::ₘ held) := by
  have hadd : s.refs + n ::ₘ held = n ::ₘ (s.refs + held) := Multiset.add_cons n s.refs held
  refine VirtualFilesystem.ext rfl hadd.symm (funext fun sb => ?_) rfl rfl
  change _ = s.superRefs sb + (inMemory (s.refs + n ::ₘ held) sb - inMemory s.refs sb)
  rw [hadd]
  have hle := inMemory_le s.refs held sb
  by_cases hmem : n ∈ s.refs + held
  · have hsupers : ((s.holding held).vfsNodeCopy n).superRefs = (s.holding held).superRefs := if_pos hmem
    rw [hsupers, inMemory_cons_of_mem hmem]
    rfl
  · have hsupers : ((s.holding held).vfsNodeCopy n).superRefs =
        Function.update (s.holding held).superRefs n.1 ((s.holding held).superRefs n.1 + 1) := if_neg hmem
    rw [hsupers, inMemory_cons hmem]
    by_cases hsb : n.1 = sb
    · subst hsb
      rw [Function.update_self, if_pos rfl]
      simp only [VirtualFilesystem.holding]
      omega
    · rw [Function.update_of_ne (Ne.symm hsb), if_neg hsb]
      rfl

theorem holding_close (hfree : s.tree.freeError n = false) : (s.holding (n ::ₘ held)).vfsNodeClose n = s.holding held := by
  have hadd : s.refs + n ::ₘ held = n ::ₘ (s.refs + held) := Multiset.add_cons n s.refs held
  have hrefs : (s.holding (n ::ₘ held)).refs.erase n = s.refs + held := by
    change (s.refs + n ::ₘ held).erase n = _
    rw [hadd, Multiset.erase_cons_head]
  have hfree : (s.holding (n ::ₘ held)).tree.freeError n = false := hfree
  refine VirtualFilesystem.ext rfl hrefs (funext fun sb => ?_) rfl rfl
  have hle := inMemory_le s.refs held sb
  have hsupers : ∀ sb, (s.holding (n ::ₘ held)).superRefs sb =
      s.superRefs sb + (inMemory (n ::ₘ (s.refs + held)) sb - inMemory s.refs sb) := fun sb => by rw [← hadd]; rfl
  by_cases hmem : n ∈ s.refs + held
  · rw [VirtualFilesystem.vfsNodeClose]
    dsimp only
    rw [hrefs, if_pos (Or.inl hmem), hsupers, inMemory_cons_of_mem hmem]
    rfl
  · rw [VirtualFilesystem.vfsNodeClose]
    dsimp only
    rw [hrefs, if_neg (by simp [hmem, hfree])]
    by_cases hsb : n.1 = sb
    · subst hsb
      rw [Function.update_self, hsupers, inMemory_cons hmem, if_pos rfl]
      simp only [VirtualFilesystem.holding]
      omega
    · rw [Function.update_of_ne (Ne.symm hsb), hsupers, inMemory_cons hmem, if_neg hsb]
      rfl

end Holding

section Lookups
variable {s : VirtualFilesystem} {process : Option User} {start : NodeId} {file : Option (List UInt8)} {path : List UInt8}
  {flags : LookupFlags}

theorem holding_accounts (hfree : ∀ n, s.tree.freeError n = false) : Accounts (fun u held => u = s.holding held) where
  copy n h := by rw [h, holding_copy]
  close n h := by rw [h, holding_close (hfree n)]

theorem vfsLookupNode_refs (hfree : ∀ n, s.tree.freeError n = false) (path : List UInt8) (flags : LookupFlags) :
    s.vfsLookupNode process start path flags =
      some ((s.tree.lookup process flags.skipLastMount (segments slash path) start [start] []).1,
        s.holding ↑(found (s.tree.lookup process flags.skipLastMount (segments slash path) start [start] []).1 ++
          (s.tree.lookup process flags.skipLastMount (segments slash path) start [start] []).2)) := by
  obtain ⟨u, h, hu⟩ := vfsLookupNode_accounts (holding_accounts hfree) (holding_zero s).symm process start path flags
  rw [h, hu, add_zero]

theorem vfsLookupNodeAt_refs (hfree : ∀ n, s.tree.freeError n = false) (h0 : 0 ∉ path) (hfile : ∀ cwd ∈ file, 0 ∉ cwd) :
    s.vfsLookupNodeAt process file path flags = some ((s.lookupAt process file path flags).1,
      s.holding ↑(found (s.lookupAt process file path flags).1 ++ (s.lookupAt process file path flags).2)) := by
  obtain ⟨u, h, hu⟩ := vfsLookupNodeAt_accounts (holding_accounts hfree) (holding_zero s).symm process flags h0 hfile
  rw [h, hu, add_zero]

end Lookups

section Trees
variable {t : Tree} {process : Option User} {n parent entry : NodeId} {name : Name}

theorem vfsNodeUnlink_freeError : (t.vfsNodeUnlink process n name entry).2.freeError = t.freeError := by
  unfold Tree.vfsNodeUnlink
  by_cases hsb : n.1 ≠ entry.1
  · rw [if_pos hsb]
  · rw [if_neg hsb]
    split
    · rfl
    · rfl
    · rfl
    · by_cases hex : ∃ e ∈ t.entries n, e.1 = name
      · rw [if_pos hex]
        rfl
      · rw [if_neg hex]

theorem vfsNodeLink_freeError : (t.vfsNodeLink process n name entry).2.freeError = t.freeError := by
  unfold Tree.vfsNodeLink
  split_ifs
  · rfl
  · split
    · rfl
    · dsimp only
      split <;> rfl

theorem vfsRemoveDirectoryDotAndDotDot_freeError :
    (t.vfsRemoveDirectoryDotAndDotDot process parent n).2.freeError = t.freeError := by
  unfold Tree.vfsRemoveDirectoryDotAndDotDot
  have hfirst := @vfsNodeUnlink_freeError t process n n dot
  split_ifs
  · cases h : t.vfsNodeUnlink process n dot n with
    | mk err t' =>
      rw [h] at hfirst
      cases err with
      | error e => exact hfirst
      | ok x => exact vfsNodeUnlink_freeError.trans hfirst
  · rfl

theorem vfsUnlinkFrom_freeError : (t.vfsUnlinkFrom process parent name n).2.freeError = t.freeError := by
  unfold Tree.vfsUnlinkFrom
  have hfirst := @vfsNodeUnlink_freeError t process parent n name
  split_ifs
  · cases t.vfsCheckDirectoryIsEmpty process n with
    | error e => rfl
    | ok x =>
      dsimp only
      cases h : t.vfsNodeUnlink process parent name n with
      | mk err t' =>
        rw [h] at hfirst
        cases err with
        | error e => exact hfirst
        | ok x => exact vfsRemoveDirectoryDotAndDotDot_freeError.trans hfirst
  · exact hfirst

end Trees

def VirtualFilesystem.withTree (s : VirtualFilesystem) (t : Tree) : VirtualFilesystem := { s with tree := t }

def Leaves {α : Type} (s : VirtualFilesystem) (o : Option (Except ErrorKind α × VirtualFilesystem)) (left : List NodeId) : Prop :=
  ∃ r t, o = some (r, (s.withTree t).holding ↑left)

def Balanced {α : Type} (s : VirtualFilesystem) (o : Option (Except ErrorKind α × VirtualFilesystem)) : Prop :=
  ∃ r u, o = some (r, u) ∧ u.refs = s.refs ∧ u.superRefs = s.superRefs

def BalancedLookup {α : Type} (s : VirtualFilesystem) (o : Option (Except ErrorKind (NodeId × α) × VirtualFilesystem)) : Prop :=
  (∃ e u, o = some (.error e, u) ∧ u.refs = s.refs ∧ u.superRefs = s.superRefs) ∨
    ∃ n x u, o = some (.ok (n, x), u) ∧ u.refs = (s.vfsNodeCopy n).refs ∧ u.superRefs = (s.vfsNodeCopy n).superRefs

section Operations
variable {s : VirtualFilesystem} {process : Option User} {file : Option (List UInt8)} {path : List UInt8} {start : NodeId}
  {flags : LookupFlags} {held : Multiset NodeId}

theorem Leaves.balanced_iff {α : Type} {o : Option (Except ErrorKind α × VirtualFilesystem)} {left : List NodeId}
    (h : Leaves s o left) : Balanced s o ↔ left = [] := by
  obtain ⟨r, t, rfl⟩ := h
  constructor
  · rintro ⟨r', u, h, hrefs, -⟩
    cases h
    have hzero : s.refs + ↑left = s.refs := hrefs
    simpa using hzero
  · rintro rfl
    exact ⟨r, _, rfl, by simp [VirtualFilesystem.withTree], by simp [VirtualFilesystem.withTree]⟩

theorem leaves_same {α : Type} (r : Except ErrorKind α) (left : List NodeId) : Leaves s (some (r, s.holding ↑left)) left :=
    ⟨r, s.tree, rfl⟩

theorem balancedLookup_iff (hfree : ∀ n, s.tree.freeError n = false) :
    BalancedLookup s (s.vfsLookupNode process start path flags) ↔
    (s.tree.lookup process flags.skipLastMount (segments slash path) start [start] []).2 = [] := by
  rw [vfsLookupNode_refs hfree]
  generalize s.tree.lookup process flags.skipLastMount (segments slash path) start [start] [] = r
  obtain ⟨r, passed⟩ := r
  have hcopy : ∀ n, s.vfsNodeCopy n = s.holding ↑[n] := fun n => by
    conv_lhs => rw [← holding_zero s, holding_copy]
    rfl
  constructor
  · rintro (⟨e, u, h, hrefs, -⟩ | ⟨n, x, u, h, hrefs, -⟩)
    · cases h
      have hzero : s.refs + ↑passed = s.refs := hrefs
      simpa using hzero
    · cases h
      rw [hcopy] at hrefs
      have hzero : s.refs + ↑(n :: passed) = s.refs + ↑[n] := hrefs
      simpa using hzero
  · intro hnil
    rw [show passed = [] from hnil]
    cases r with
    | error e => exact Or.inl ⟨e, _, rfl, by simp [found], by simp [found]⟩
    | ok r => exact Or.inr ⟨r.1, r.2, _, rfl, by simp [found, hcopy], by simp [found, hcopy]⟩

theorem found_ok {α : Type} {n : NodeId} {x : α} {passed : List NodeId} :
    s.holding ↑(found (.ok (n, x) : Except ErrorKind (NodeId × α)) ++ passed) = s.holding (n ::ₘ ↑passed) := rfl

theorem holding_change {α : Type} {f : Tree → Except ErrorKind α × Tree} :
    (s.holding held).change f = ((f s.tree).1, (s.withTree (f s.tree).2).holding held) := rfl

theorem close_two {a b : NodeId} (hfree : ∀ n, s.tree.freeError n = false) :
    ((s.holding (a ::ₘ b ::ₘ held)).vfsNodeClose a).vfsNodeClose b = s.holding held := by
  rw [holding_close (hfree a), holding_close (hfree b)]

theorem withTree_free {t : Tree} (hfree : ∀ n, s.tree.freeError n = false) (ht : t.freeError = s.tree.freeError) :
    ∀ n, (s.withTree t).tree.freeError n = false := fun n => (congrFun ht n).trans (hfree n)

theorem vfsUnlinkAt_leaves (hfree : ∀ n, s.tree.freeError n = false) (h0 : 0 ∉ path) (hfile : ∀ cwd ∈ file, 0 ∉ cwd)
    (hname : ∀ parent x, (s.lookupAt process file path { parent := true }).1 = .ok (parent, x) →
      ∃ filename, getBaseFilename (path ++ [0]) = some filename) :
    Leaves s (s.vfsUnlinkAt process file path) (s.lookupAt process file path { parent := true }).2 := by
  unfold VirtualFilesystem.vfsUnlinkAt
  rw [vfsLookupNodeAt_refs hfree h0 hfile, Option.bind_some]
  cases hr : (s.lookupAt process file path { parent := true }).1 with
  | error e => exact ⟨.error e, s.tree, rfl⟩
  | ok r =>
    obtain ⟨parent, x⟩ := r
    obtain ⟨filename, hname⟩ := hname parent x hr
    simp only [hname, Option.map_some]
    generalize (s.lookupAt process file path { parent := true }).2 = passed
    rw [found_ok]
    cases hnode : s.tree.vfsNodeLookup process parent (cString filename) with
    | error e =>
      rw [vfsNodeLookup_error (s := s.holding (parent ::ₘ ↑passed)) hnode]
      dsimp only
      exact ⟨.error e, s.tree, by rw [holding_close (hfree _)]; rfl⟩
    | ok node =>
      rw [vfsNodeLookup_ok (s := s.holding (parent ::ₘ ↑passed)) hnode, holding_copy]
      dsimp only
      rw [holding_change]
      exact ⟨_, _, by rw [close_two (withTree_free hfree vfsUnlinkFrom_freeError)]⟩

variable {old new : List UInt8} {old_file new_file : Option (List UInt8)} {parent child old_node : NodeId} {name : Name}

theorem vfsLookupNodeAt_holding (hfree : ∀ n, s.tree.freeError n = false) (h0 : 0 ∉ path) (hfile : ∀ cwd ∈ file, 0 ∉ cwd) :
    (s.holding held).vfsLookupNodeAt process file path flags = some ((s.lookupAt process file path flags).1,
      s.holding (↑(found (s.lookupAt process file path flags).1 ++ (s.lookupAt process file path flags).2) + held)) := by
  rw [vfsLookupNodeAt_refs (s := s.holding held) hfree h0 hfile, holding_holding, add_comm held]
  rfl

/-- The old parent is held when it was found. -/
theorem vfsMoveDirectoryDotDot_refs (hfree : ∀ n, s.tree.freeError n = false) (h0 : 0 ∉ old) (hfile : ∀ cwd ∈ old_file, 0 ∉ cwd) :
    ∃ r t, (s.holding held).vfsMoveDirectoryDotDot process old_file old parent child =
      some (r, (s.withTree t).holding (↑(found (s.lookupAt process old_file old { parent := true }).1 ++
        (s.lookupAt process old_file old { parent := true }).2) + held)) ∧ t.freeError = s.tree.freeError := by
  unfold VirtualFilesystem.vfsMoveDirectoryDotDot
  rw [vfsLookupNodeAt_holding hfree h0 hfile, Option.map_some]
  cases (s.lookupAt process old_file old { parent := true }).1 with
  | error e => exact ⟨_, s.tree, rfl, rfl⟩
  | ok r =>
    obtain ⟨old_parent, x⟩ := r
    dsimp only
    rw [holding_change]
    have hunlink := @vfsNodeUnlink_freeError s.tree process child old_parent dotDot
    cases hr : s.tree.vfsNodeUnlink process child dotDot old_parent with
    | mk err t =>
      rw [hr] at hunlink
      cases err with
      | error e => exact ⟨_, t, rfl, hunlink⟩
      | ok y =>
        dsimp only
        rw [holding_change]
        exact ⟨_, _, rfl, vfsNodeLink_freeError.trans hunlink⟩

def linkedLeft (s : VirtualFilesystem) (process : Option User) (old_file : Option (List UInt8)) (old : List UInt8)
    (parent old_node : NodeId) (name : Name) : List NodeId :=
  match s.tree.vfsNodeLink process parent name old_node with
  | (.error _, _) => []
  | (.ok _, t) => if t.isDir old_node then found ((s.withTree t).lookupAt process old_file old { parent := true }).1 ++
      ((s.withTree t).lookupAt process old_file old { parent := true }).2 else []

/-- After the link is made the references to both nodes are closed, but not that to an old parent. -/
theorem linked_leaves (hfree : ∀ n, s.tree.freeError n = false) (hold0 : 0 ∉ old) (hold : ∀ cwd ∈ old_file, 0 ∉ cwd)
    (passed : List NodeId) :
    Leaves s (let r := (s.holding (old_node ::ₘ parent ::ₘ ↑passed)).change (·.vfsNodeLink process parent name old_node)
      let linked : Option (Except ErrorKind Unit × VirtualFilesystem) := match r.1 with
        | .error _ => some r
        | .ok _ => if r.2.tree.isDir old_node then r.2.vfsMoveDirectoryDotDot process old_file old parent old_node else some r
      linked.map fun r => (r.1, (r.2.vfsNodeClose old_node).vfsNodeClose parent))
      (linkedLeft s process old_file old parent old_node name ++ passed) := by
  have hlink := @vfsNodeLink_freeError s.tree process parent old_node name
  rw [holding_change, linkedLeft]
  cases hr : s.tree.vfsNodeLink process parent name old_node with
  | mk err t =>
    rw [hr] at hlink
    have hfree' := withTree_free hfree hlink
    cases err with
    | error e =>
      refine ⟨.error e, t, ?_⟩
      dsimp only [Option.map_some]
      rw [close_two hfree', List.nil_append]
    | ok x =>
      have htree : ((s.withTree t).holding (old_node ::ₘ parent ::ₘ ↑passed)).tree = t := rfl
      dsimp only
      rw [htree]
      cases hdir : t.isDir old_node with
      | false =>
        refine ⟨.ok x, t, ?_⟩
        simp only [Bool.false_eq_true, if_false, Option.map_some, List.nil_append]
        rw [close_two hfree']
      | true =>
        obtain ⟨r, t', hmove, hfree''⟩ := @vfsMoveDirectoryDotDot_refs (s.withTree t) process
          (old_node ::ₘ parent ::ₘ ↑passed) old old_file parent old_node hfree' hold0 hold
        refine ⟨r, t', ?_⟩
        simp only [if_true, hmove, Option.map_some, Multiset.add_cons]
        rw [close_two (withTree_free hfree' hfree''), Multiset.coe_add]
        rfl

/-- No lookup passes a mount point, and a directory is not linked when its old parent can be found. -/
def LinksClean (s : VirtualFilesystem) (process : Option User) (old_file : Option (List UInt8)) (old : List UInt8)
    (new_file : Option (List UInt8)) (new : List UInt8) : Prop :=
  (s.lookupAt process new_file new { parent := true }).2 = [] ∧
    ∀ parent x, (s.lookupAt process new_file new { parent := true }).1 = .ok (parent, x) →
      ∃ filename, getBaseFilename (new ++ [0]) = some filename ∧
        (s.tree.vfsNodeLookup process parent (cString filename) = .error .ENOENT →
          (s.lookupAt process old_file old {}).2 = [] ∧
            ∀ old_node y, (s.lookupAt process old_file old {}).1 = .ok (old_node, y) →
              linkedLeft s process old_file old parent old_node (cString filename) = [])

theorem vfsLinkAt_balanced_iff (hfree : ∀ n, s.tree.freeError n = false) (hold0 : 0 ∉ old) (hold : ∀ cwd ∈ old_file, 0 ∉ cwd)
    (hnew0 : 0 ∉ new) (hnew : ∀ cwd ∈ new_file, 0 ∉ cwd) :
    Balanced s (s.vfsLinkAt process old_file old new_file new) ↔ LinksClean s process old_file old new_file new := by
  unfold VirtualFilesystem.vfsLinkAt LinksClean
  rw [vfsLookupNodeAt_refs hfree hnew0 hnew, Option.bind_some]
  generalize s.lookupAt process new_file new { parent := true } = p
  obtain ⟨r, passed⟩ := p
  cases r with
  | error e =>
    refine (leaves_same (.error e : Except ErrorKind Unit) passed).balanced_iff.trans ?_
    simp
  | ok r =>
    obtain ⟨parent, x⟩ := r
    dsimp only
    rw [found_ok]
    cases hname : getBaseFilename (new ++ [0]) with
    | none => simp [Balanced]
    | some filename =>
      rw [Option.bind_some]
      cases hnode : s.tree.vfsNodeLookup process parent (cString filename) with
      | ok new_node =>
        rw [vfsNodeLookup_ok (s := s.holding (parent ::ₘ ↑passed)) hnode, holding_copy, Multiset.cons_swap]
        dsimp only
        rw [close_two hfree, (leaves_same _ passed).balanced_iff]
        simp [hnode]
      | error e =>
        rw [vfsNodeLookup_error (s := s.holding (parent ::ₘ ↑passed)) hnode]
        dsimp only
        by_cases he : e = .ENOENT
        · rw [if_pos he, vfsLookupNodeAt_holding hfree hold0 hold, Option.bind_some]
          subst he
          generalize s.lookupAt process old_file old {} = q
          obtain ⟨r, passed'⟩ := q
          cases r with
          | error e' =>
            have hheld : s.holding (↑(found (.error e' : Except ErrorKind (NodeId × List UInt8 × List Name)) ++ passed') +
              parent ::ₘ ↑passed) = s.holding (parent ::ₘ ↑(passed' ++ passed)) := by
              rw [Multiset.add_cons]
              rfl
            dsimp only
            rw [hheld, holding_close (hfree _), (leaves_same _ (passed' ++ passed)).balanced_iff]
            simp [hnode, and_comm]
          | ok r =>
            obtain ⟨old_node, y⟩ := r
            have hheld : s.holding (↑(found (.ok (old_node, y) : Except ErrorKind (NodeId × List UInt8 × List Name)) ++
              passed') + parent ::ₘ ↑passed) = s.holding (old_node ::ₘ parent ::ₘ ↑(passed' ++ passed)) := by
              rw [Multiset.add_cons, Multiset.cons_swap]
              rfl
            dsimp only
            rw [hheld]
            refine (linked_leaves hfree hold0 hold (passed' ++ passed)).balanced_iff.trans ?_
            simp [hnode]
            tauto
        · rw [if_neg he, holding_close (hfree _), (leaves_same _ passed).balanced_iff]
          simp [hnode, he]

/-- The lookup passes no mount point, and there is a name when a parent is found. -/
def UnlinksClean (s : VirtualFilesystem) (process : Option User) (file : Option (List UInt8)) (path : List UInt8) : Prop :=
  (s.lookupAt process file path { parent := true }).2 = [] ∧
    ((∃ found, (s.lookupAt process file path { parent := true }).1 = .ok found) → segments slash path ≠ [])

theorem vfsUnlinkAt_balanced_iff (hfree : ∀ n, s.tree.freeError n = false) (h0 : 0 ∉ path) (hfile : ∀ cwd ∈ file, 0 ∉ cwd) :
    Balanced s (s.vfsUnlinkAt process file path) ↔ UnlinksClean s process file path := by
  by_cases hname : (∃ found, (s.lookupAt process file path { parent := true }).1 = .ok found) → segments slash path ≠ []
  · rw [(vfsUnlinkAt_leaves hfree h0 hfile fun parent x hr => (exists_baseFilename_iff h0).mpr (hname ⟨_, hr⟩)).balanced_iff]
    exact ⟨fun h => ⟨h, hname⟩, And.left⟩
  · refine iff_of_false ?_ fun h => hname h.2
    push Not at hname
    obtain ⟨⟨⟨parent, x⟩, hr⟩, hnil⟩ := hname
    rintro ⟨r, u, h, -⟩
    rw [VirtualFilesystem.vfsUnlinkAt, vfsLookupNodeAt_refs hfree h0 hfile, hr] at h
    simp [getBaseFilename_slashes (segments_eq_nil_iff.mp hnil)] at h

/-- Lookups, links and unlinks keep the references when no mount point is passed, a path that needs a name has one, and no
directory is moved away from a parent that is found. -/
theorem references_kept_iff (hfree : ∀ n, s.tree.freeError n = false) :
    (∀ process start path flags, BalancedLookup s (s.vfsLookupNode process start path flags) ↔
      (s.tree.lookup process flags.skipLastMount (segments slash path) start [start] []).2 = []) ∧
    (∀ process file path, 0 ∉ path → (∀ cwd ∈ file, 0 ∉ cwd) →
      (Balanced s (s.vfsUnlinkAt process file path) ↔ UnlinksClean s process file path)) ∧
    ∀ process old_file old new_file new, 0 ∉ old → (∀ cwd ∈ old_file, 0 ∉ cwd) → 0 ∉ new → (∀ cwd ∈ new_file, 0 ∉ cwd) →
      (Balanced s (s.vfsLinkAt process old_file old new_file new) ↔ LinksClean s process old_file old new_file new) := by
  refine ⟨fun process start path flags => balancedLookup_iff hfree,
    fun process file path h0 hfile => vfsUnlinkAt_balanced_iff hfree h0 hfile,
    fun process old_file old new_file new hold0 hold hnew0 hnew => vfsLinkAt_balanced_iff hfree hold0 hold hnew0 hnew⟩

/-- The path `/b` -/
theorem references_kept_plain : BalancedLookup ⟨twoDirectories (some 1), 0, fun _ => 1, some 0, []⟩
    (VirtualFilesystem.vfsLookupNode ⟨twoDirectories (some 1), 0, fun _ => 1, some 0, []⟩ none (0, 1) [47, 98] {}) :=
  ((references_kept_iff (s := ⟨twoDirectories (some 1), 0, fun _ => 1, some 0, []⟩) fun _ => rfl).1 none (0, 1) [47, 98] {}).mpr
  (by decide)

/-- The path `/a`, which is a mount point -/
theorem not_references_kept_mounted : ¬BalancedLookup ⟨twoDirectories (some 1), 0, fun _ => 1, some 0, []⟩
    (VirtualFilesystem.vfsLookupNode ⟨twoDirectories (some 1), 0, fun _ => 1, some 0, []⟩ none (0, 1) [47, 97] {}) := by
  rw [balancedLookup_iff fun _ => rfl]
  decide

end Operations

end SomeOs.Vfs
