import SomeOs.Vfs.LookupAt

/-! # Mounts and what is found through them

What is found below a node depends on its mounts only through the root on top of them. A superblock
that is in no use yet changes the lookups that come by the node it is mounted on, and no other.
-/
namespace SomeOs.Vfs
open Segments

namespace Tree

/-- The mounts of a node lead to `n`. -/
def leadsTo (t : Tree) (n : NodeId) : ℕ → NodeId → Bool
  | 0, x => x = n
  | depth + 1, x => x = n || match t.mounted x with
    | none => false
    | some sb => t.leadsTo n depth (sb, t.rootNode sb)

theorem leadsTo_eq (t : Tree) (n : NodeId) {depth : ℕ} {x : NodeId} (h : t.depth x ≤ depth) :
    t.leadsTo n depth x = t.leadsTo n (t.depth x) x := by
  induction hd : t.depth x using Nat.strong_induction_on generalizing depth x with
  | _ d ih =>
    subst hd
    cases hm : t.mounted x with
    | none => cases depth <;> cases t.depth x <;> simp [leadsTo, hm]
    | some sb =>
      have hlt := t.stacked x sb hm
      obtain ⟨d, hd⟩ := Nat.exists_eq_add_one_of_ne_zero (Nat.ne_of_gt (Nat.zero_lt_of_lt hlt))
      obtain ⟨e, rfl⟩ := Nat.exists_eq_add_one_of_ne_zero (show depth ≠ 0 by omega)
      have hlow := fun depth hdepth => @ih _ hlt depth (sb, t.rootNode sb) hdepth rfl
      rw [hd, leadsTo, leadsTo, hm]
      dsimp only
      rw [hlow e (by omega), hlow d (by omega)]

theorem leadsTo_root (t : Tree) {n x : NodeId} {sb : ℕ} (hm : t.mounted x = some sb)
    (h : t.leadsTo n (t.depth (sb, t.rootNode sb)) (sb, t.rootNode sb) = true) : t.leadsTo n (t.depth x) x = true := by
  have hlt := t.stacked x sb hm
  obtain ⟨d, hd⟩ := Nat.exists_eq_add_one_of_ne_zero (Nat.ne_of_gt (Nat.zero_lt_of_lt hlt))
  rw [hd, leadsTo, hm]
  dsimp only
  rw [t.leadsTo_eq n (show t.depth (sb, t.rootNode sb) ≤ d by omega), h, Bool.or_true]

/-- The superblock is mounted on the node. A superblock whose own mounts lead to the node cannot be:
its root would have no end of mounts. -/
def mount (t : Tree) (n : NodeId) (sb : ℕ) : Tree :=
  if h : t.leadsTo n (t.depth (sb, t.rootNode sb)) (sb, t.rootNode sb) then t
  else
    { t with
      mounted := Function.update t.mounted n (some sb)
      depth := fun x => t.depth x + if t.leadsTo n (t.depth x) x then t.depth (sb, t.rootNode sb) + 1 else 0
      stacked := by
        intro x sb' hx
        by_cases hn : x = n
        · subst hn
          obtain rfl : sb = sb' := by simpa using hx
          have hself : t.leadsTo x (t.depth x) x = true := by cases t.depth x <;> simp [leadsTo]
          rw [if_neg h, if_pos hself]
          omega
        · rw [Function.update_of_ne hn] at hx
          have hlt := t.stacked x sb' hx
          by_cases hroot : t.leadsTo n (t.depth (sb', t.rootNode sb')) (sb', t.rootNode sb') = true
          · rw [if_pos hroot, if_pos (t.leadsTo_root hx hroot)]
            omega
          · rw [if_neg hroot]
            omega }

def umount (t : Tree) (n : NodeId) : Tree :=
  { t with
    mounted := Function.update t.mounted n none
    stacked := by
      intro x sb hx
      by_cases hn : x = n
      · subst hn
        simp at hx
      · rw [Function.update_of_ne hn] at hx
        exact t.stacked x sb hx }

def top (t : Tree) (n : NodeId) : NodeId := t.followMounts (t.depth n) n false

def lastPoint (t : Tree) (n : NodeId) : NodeId := t.followMounts (t.depth n) n true

def dirsUp (dirs : List NodeId) : List NodeId := if 1 < dirs.length then dirs.tail else dirs

/-- Where the segments lead, with the names on the way, before the mounts of the last node. -/
def walkTo (t : Tree) (process : Option User) : List Name → NodeId → List NodeId → List Name →
    Except ErrorKind (NodeId × List Name)
  | [], curr, _, segs => .ok (curr, segs.reverse)
  | name :: rest, curr, dirs, segs =>
    if t.isDir curr = false then .error .ENOTDIR
    else if name = dot then t.walkTo process rest curr dirs segs
    else if name = dotDot then t.walkTo process rest (goUp curr dirs) (dirsUp dirs) segs.tail
    else
      match t.below process curr name with
      | .error e => .error e
      | .ok n => t.walkTo process rest n (curr :: dirs) (name :: segs)

/-- A name is looked up in `n` on the way. -/
def Enters (t : Tree) (process : Option User) (n : NodeId) : List Name → NodeId → List NodeId → Prop
  | [], _, _ => False
  | name :: rest, curr, dirs =>
    if t.isDir curr = false then False
    else if name = dot then t.Enters process n rest curr dirs
    else if name = dotDot then t.Enters process n rest (goUp curr dirs) (dirsUp dirs)
    else t.top curr = n ∨ match t.below process curr name with
      | .error _ => False
      | .ok m => t.Enters process n rest m (curr :: dirs)

/-- Both trees have the same nodes and the same mounts. -/
structure Alike (t u : Tree) : Prop where
  stat : t.stat = u.stat
  entries : t.entries = u.entries
  rootNode : t.rootNode = u.rootNode
  mounted : t.mounted = u.mounted
  lookupError : t.lookupError = u.lookupError
  readError : t.readError = u.readError

structure Unused (t : Tree) (sb : ℕ) : Prop where
  notMounted : ∀ n, t.mounted n ≠ some sb
  noMounts : ∀ n, n.1 = sb → t.mounted n = none

section
variable {t u : Tree} {n x : NodeId} {sb sb' : ℕ} {process : Option User} {names : List Name} {curr : NodeId} {dirs : List NodeId}
  {segs : List Name}

theorem top_of_none (h : t.mounted x = none) : t.top x = x := by
  unfold top
  cases t.depth x <;> simp [followMounts, h]

theorem lastPoint_of_none (h : t.mounted x = none) : t.lastPoint x = x := by
  unfold lastPoint
  cases t.depth x <;> simp [followMounts, h]

theorem followMounts_eq (last : Bool) {depth : ℕ} (h : t.depth x ≤ depth) :
    t.followMounts depth x last = t.followMounts (t.depth x) x last := by
  induction hd : t.depth x using Nat.strong_induction_on generalizing depth x with
  | _ d ih =>
    subst hd
    cases hm : t.mounted x with
    | none => cases depth <;> cases t.depth x <;> simp [followMounts, hm]
    | some sb =>
      have hlt := t.stacked x sb hm
      obtain ⟨d, hd⟩ := Nat.exists_eq_add_one_of_ne_zero (Nat.ne_of_gt (Nat.zero_lt_of_lt hlt))
      obtain ⟨e, rfl⟩ := Nat.exists_eq_add_one_of_ne_zero (show depth ≠ 0 by omega)
      have hlow := fun depth hdepth => @ih _ hlt (sb, t.rootNode sb) depth hdepth rfl
      rw [hd, followMounts, followMounts, hm]
      dsimp only
      rw [hlow e (by omega), hlow d (by omega)]

theorem followMounts_some (h : t.mounted x = some sb) (last : Bool) :
    t.followMounts (t.depth x) x last = if last ∧ (t.mounted (sb, t.rootNode sb)).isNone then x
      else t.followMounts (t.depth (sb, t.rootNode sb)) (sb, t.rootNode sb) last := by
  have hlt := t.stacked x sb h
  obtain ⟨d, hd⟩ := Nat.exists_eq_add_one_of_ne_zero (Nat.ne_of_gt (Nat.zero_lt_of_lt hlt))
  rw [hd, followMounts, h]
  dsimp only
  rw [followMounts_eq last (show t.depth (sb, t.rootNode sb) ≤ d by omega)]

theorem top_of_some (h : t.mounted x = some sb) : t.top x = t.top (sb, t.rootNode sb) := by
  rw [top, followMounts_some h]
  exact if_neg (by simp)

theorem lastPoint_of_some (h : t.mounted x = some sb) : t.lastPoint x =
    if (t.mounted (sb, t.rootNode sb)).isNone then x else t.lastPoint (sb, t.rootNode sb) := by
  rw [lastPoint, followMounts_some h]
  simp only [true_and]
  rfl

theorem mounts_induction {P : NodeId → Prop} (t : Tree) (hnone : ∀ x, t.mounted x = none → P x)
    (hsome : ∀ x sb, t.mounted x = some sb → P (sb, t.rootNode sb) → P x) (x : NodeId) : P x := by
  induction hd : t.depth x using Nat.strong_induction_on generalizing x with
  | _ d ih =>
    subst hd
    cases hm : t.mounted x with
    | none => exact hnone x hm
    | some sb => exact hsome x sb hm (ih _ (t.stacked x sb hm) _ rfl)

theorem top_fst_ne (h : t.Unused sb) (hx : x.1 ≠ sb) : (t.top x).1 ≠ sb := by
  induction x using t.mounts_induction with
  | hnone x hm => rwa [top_of_none hm]
  | hsome x sb' hm ih =>
    rw [top_of_some hm]
    exact ih fun heq => h.notMounted x (heq ▸ hm)

theorem lookup_fst (skip : Bool) : (t.lookup process skip names curr dirs segs).1 =
    (t.walkTo process names curr dirs segs).map fun r => (t.followMounts (t.depth r.1) r.1 skip, r.2) := by
  induction names generalizing curr dirs segs with
  | nil => rfl
  | cons name rest ih =>
    rw [lookup, walkTo, dirsUp]
    split_ifs
    · rfl
    · exact ih
    · exact ih
    · exact ih
    · cases t.below process curr name with
      | error e => rfl
      | ok n => exact ih

theorem below_fst {name : Name} {m : NodeId} (h : t.below process curr name = .ok m) : m.1 = (t.top curr).1 := by
  unfold below vfsNodeLookup at h
  split at h
  · cases h
  · cases h
  · split at h
    · cases h
    · split at h
      · cases h
      · cases h
        rfl

theorem goUp_fst_ne (hcurr : curr.1 ≠ sb) (hdirs : ∀ d ∈ dirs, d.1 ≠ sb) : (goUp curr dirs).1 ≠ sb := by
  unfold goUp
  split_ifs with h
  · cases dirs with
    | nil => exact hcurr
    | cons d dirs => exact hdirs d List.mem_cons_self
  · exact hcurr

theorem dirsUp_fst_ne (hdirs : ∀ d ∈ dirs, d.1 ≠ sb) : ∀ d ∈ dirsUp dirs, d.1 ≠ sb := by
  unfold dirsUp
  split_ifs
  · exact fun d hd => hdirs d (List.mem_of_mem_tail hd)
  · exact hdirs

theorem walkTo_fst_ne (h : t.Unused sb) (hcurr : curr.1 ≠ sb) (hdirs : ∀ d ∈ dirs, d.1 ≠ sb) {r : NodeId × List Name}
    (hr : t.walkTo process names curr dirs segs = .ok r) : r.1.1 ≠ sb := by
  induction names generalizing curr dirs segs with
  | nil =>
    cases hr
    exact hcurr
  | cons name rest ih =>
    rw [walkTo] at hr
    split_ifs at hr
    · exact ih hcurr hdirs hr
    · exact ih (goUp_fst_ne hcurr hdirs) (dirsUp_fst_ne hdirs) hr
    · cases hbelow : t.below process curr name with
      | error e =>
        rw [hbelow] at hr
        cases hr
      | ok m =>
        rw [hbelow] at hr
        exact ih (by rw [below_fst hbelow]; exact top_fst_ne h hcurr) (List.forall_mem_cons.mpr ⟨hcurr, hdirs⟩) hr

theorem not_enters_unused (h : t.Unused sb) (hcurr : curr.1 ≠ sb) (hdirs : ∀ d ∈ dirs, d.1 ≠ sb) (hn : n.1 = sb) :
    ¬t.Enters process n names curr dirs := by
  induction names generalizing curr dirs with
  | nil => exact id
  | cons name rest ih =>
    rw [Enters]
    split_ifs
    · exact id
    · exact ih hcurr hdirs
    · exact ih (goUp_fst_ne hcurr hdirs) (dirsUp_fst_ne hdirs)
    · rintro (heq | hrest)
      · exact top_fst_ne h hcurr (heq ▸ hn)
      · cases hbelow : t.below process curr name with
        | error e =>
          rw [hbelow] at hrest
          exact hrest
        | ok m =>
          rw [hbelow] at hrest
          exact ih (by rw [below_fst hbelow]; exact top_fst_ne h hcurr) (List.forall_mem_cons.mpr ⟨hcurr, hdirs⟩) hrest

/-- Two trees in which the same is found on a way agree on where it leads, and on what it enters. -/
theorem walkTo_congr (hdir : ∀ x, u.isDir x = t.isDir x)
    (hbelow : ∀ x, t.top x ≠ n → u.top x = t.top x ∧ ∀ name, u.below process x name = t.below process x name)
    (h : ¬t.Enters process n names curr dirs) :
    u.walkTo process names curr dirs segs = t.walkTo process names curr dirs segs ∧
      ∀ m, u.Enters process m names curr dirs ↔ t.Enters process m names curr dirs := by
  induction names generalizing curr dirs segs with
  | nil => exact ⟨rfl, fun m => Iff.rfl⟩
  | cons name rest ih =>
    rw [Enters] at h
    rw [walkTo, walkTo, hdir]
    simp only [Enters, hdir]
    split_ifs at h ⊢
    · exact ⟨rfl, fun m => Iff.rfl⟩
    · exact ih h
    · exact ih h
    · rw [not_or] at h
      obtain ⟨htop, hsame⟩ := hbelow curr h.1
      rw [hsame, htop]
      cases hm : t.below process curr name with
      | error e => exact ⟨rfl, fun m => Iff.rfl⟩
      | ok m =>
        rw [hm] at h
        obtain ⟨hwalk, henters⟩ := ih h.2
        exact ⟨hwalk, fun m' => or_congr Iff.rfl (henters m')⟩

theorem below_eq {name : Name} (hstat : u.stat = t.stat) (hentries : u.entries = t.entries)
    (hlookup : u.lookupError = t.lookupError) (hread : u.readError = t.readError) (htop : u.top x = t.top x) :
    u.below process x name = t.below process x name := by
  have hx : u.below process x name = u.vfsNodeLookup process (u.top x) name := rfl
  have hy : t.below process x name = t.vfsNodeLookup process (t.top x) name := rfl
  rw [hx, hy, htop]
  unfold vfsNodeLookup access
  rw [hstat, hentries, hlookup, hread]

theorem Alike.followMounts (h : t.Alike u) (last : Bool) : u.followMounts (u.depth x) x last =
    t.followMounts (t.depth x) x last := by
  have hsame : ∀ depth x, u.followMounts depth x last = t.followMounts depth x last := by
    intro depth
    induction depth with
    | zero => exact fun _ => rfl
    | succ depth ih =>
      intro x
      rw [Tree.followMounts, Tree.followMounts, h.mounted, h.rootNode]
      simp only [ih]
  rw [← followMounts_eq last (le_max_right (t.depth x) (u.depth x)), hsame, followMounts_eq last (le_max_left _ _)]

theorem Alike.top (h : t.Alike u) : u.top x = t.top x := h.followMounts false

theorem Alike.walkTo (h : t.Alike u) : u.walkTo process names curr dirs segs = t.walkTo process names curr dirs segs := by
  induction names generalizing curr dirs segs with
  | nil => rfl
  | cons name rest ih =>
    have hdir : u.isDir curr = t.isDir curr := by rw [isDir, isDir, h.stat]
    have hbelow : u.below process curr name = t.below process curr name :=
      below_eq h.stat.symm h.entries.symm h.lookupError.symm h.readError.symm h.top
    rw [Tree.walkTo, Tree.walkTo, hdir, hbelow]
    simp only [ih]

theorem mount_stat (t : Tree) (n : NodeId) (sb : ℕ) : (t.mount n sb).stat = t.stat ∧ (t.mount n sb).entries = t.entries ∧
    (t.mount n sb).rootNode = t.rootNode ∧ (t.mount n sb).lookupError = t.lookupError ∧
    (t.mount n sb).readError = t.readError := by
  unfold mount
  split <;> exact ⟨rfl, rfl, rfl, rfl, rfl⟩

theorem root_ne (hn : n.1 ≠ sb) : (sb, t.rootNode sb) ≠ n := fun heq => hn (by rw [← heq])

theorem mount_mounted (h : t.Unused sb) (hn : n.1 ≠ sb) : (t.mount n sb).mounted = Function.update t.mounted n (some sb) := by
  have hroot : t.mounted (sb, t.rootNode sb) = none := h.noMounts _ rfl
  have hne : (sb, t.rootNode sb) ≠ n := root_ne hn
  have hleads : ¬t.leadsTo n (t.depth (sb, t.rootNode sb)) (sb, t.rootNode sb) = true := by
    cases t.depth (sb, t.rootNode sb) <;> simp [leadsTo, hroot, hne]
  rw [mount, dif_neg hleads]

theorem mount_unused (h : t.Unused sb) (hn : n.1 ≠ sb) (h' : t.Unused sb') (hn' : n.1 ≠ sb') (hne : sb ≠ sb') :
    (t.mount n sb).Unused sb' := by
  constructor
  · intro x hx
    rw [mount_mounted h hn] at hx
    by_cases hxn : x = n
    · subst hxn
      rw [Function.update_self] at hx
      exact hne (Option.some.inj hx)
    · rw [Function.update_of_ne hxn] at hx
      exact h'.notMounted x hx
  · intro x hx
    rw [mount_mounted h hn, Function.update_of_ne fun heq : x = n => hn' (heq ▸ hx)]
    exact h'.noMounts x hx

theorem mount_top (h : t.Unused sb) (hn : n.1 ≠ sb) (hnone : t.mounted n = none) (x : NodeId) :
    (t.mount n sb).top x = if t.top x = n then (sb, t.rootNode sb) else t.top x := by
  have hmounted := mount_mounted h hn
  have hroot : (t.mount n sb).mounted (sb, t.rootNode sb) = none := by
    rw [hmounted, Function.update_of_ne (root_ne hn)]
    exact h.noMounts _ rfl
  have hself : (t.mount n sb).top n = (sb, t.rootNode sb) := by
    have hsome : (t.mount n sb).mounted n = some sb := by rw [hmounted, Function.update_self]
    rw [top_of_some hsome, (mount_stat t n sb).2.2.1, top_of_none hroot]
  induction x using t.mounts_induction with
  | hnone x hm =>
    rw [top_of_none hm]
    split_ifs with hx
    · rw [hx, hself]
    · exact top_of_none (by rw [hmounted, Function.update_of_ne hx, hm])
  | hsome x sb' hm ih =>
    have hx : x ≠ n := fun heq => by rw [heq, hnone] at hm; cases hm
    have hm' : (t.mount n sb).mounted x = some sb' := by rw [hmounted, Function.update_of_ne hx, hm]
    rw [top_of_some hm, top_of_some hm', (mount_stat t n sb).2.2.1, ih]

/-- It is the last mount there. -/
theorem mount_lastPoint (h : t.Unused sb) (hn : n.1 ≠ sb) (hnone : t.mounted n = none) (x : NodeId) :
    (t.mount n sb).lastPoint x = if t.top x = n then n else t.lastPoint x := by
  have hmounted := mount_mounted h hn
  have hroot : (t.mount n sb).mounted (sb, t.rootNode sb) = none := by
    rw [hmounted, Function.update_of_ne (root_ne hn)]
    exact h.noMounts _ rfl
  have hself : (t.mount n sb).lastPoint n = n := by
    have hsome : (t.mount n sb).mounted n = some sb := by rw [hmounted, Function.update_self]
    rw [lastPoint_of_some hsome, (mount_stat t n sb).2.2.1, hroot]
    rfl
  induction x using t.mounts_induction with
  | hnone x hm =>
    rw [top_of_none hm]
    split_ifs with hx
    · rw [hx, hself]
    · rw [lastPoint_of_none hm]
      exact lastPoint_of_none (by rw [hmounted, Function.update_of_ne hx, hm])
  | hsome x sb' hm ih =>
    have hx : x ≠ n := fun heq => by rw [heq, hnone] at hm; cases hm
    have hm' : (t.mount n sb).mounted x = some sb' := by rw [hmounted, Function.update_of_ne hx, hm]
    rw [top_of_some hm, lastPoint_of_some hm, lastPoint_of_some hm', (mount_stat t n sb).2.2.1, ih, hmounted]
    by_cases hr : (sb', t.rootNode sb') = n
    · rw [hr, Function.update_self, top_of_none hnone, if_pos rfl]
      simp
    · rw [Function.update_of_ne hr]
      by_cases hnone' : (t.mounted (sb', t.rootNode sb')).isNone
      · rw [if_pos hnone', if_pos hnone', top_of_none (Option.isNone_iff_eq_none.mp hnone'), if_neg hr]
      · rw [if_neg hnone', if_neg hnone']

theorem mount_walkTo (h : t.Unused sb) (hn : n.1 ≠ sb) (hnone : t.mounted n = none)
    (hpass : ¬t.Enters process n names curr dirs) :
    (t.mount n sb).walkTo process names curr dirs segs = t.walkTo process names curr dirs segs ∧
      ∀ m, (t.mount n sb).Enters process m names curr dirs ↔ t.Enters process m names curr dirs := by
  obtain ⟨hstat, hentries, -, hlookup, hread⟩ := mount_stat t n sb
  refine walkTo_congr (fun x => by rw [isDir, isDir, hstat]) (fun x hx => ?_) hpass
  have htop : (t.mount n sb).top x = t.top x := by rw [mount_top h hn hnone, if_neg hx]
  exact ⟨htop, fun name => below_eq hstat hentries hlookup hread htop⟩

theorem alike_umount_mount (h : t.Unused sb) (hn : n.1 ≠ sb) (hnone : t.mounted n = none) :
    t.Alike ((t.mount n sb).umount n) := by
  obtain ⟨hstat, hentries, hroot, hlookup, hread⟩ := mount_stat t n sb
  refine ⟨hstat.symm, hentries.symm, hroot.symm, ?_, hlookup.symm, hread.symm⟩
  have hmounted : ((t.mount n sb).umount n).mounted = Function.update (t.mount n sb).mounted n none := rfl
  rw [hmounted, mount_mounted h hn, Function.update_idem, ← hnone, Function.update_eq_self]

theorem Alike.refl (t : Tree) : t.Alike t := ⟨rfl, rfl, rfl, rfl, rfl, rfl⟩

theorem Alike.trans {v : Tree} (h : t.Alike u) (h' : u.Alike v) : t.Alike v :=
  ⟨h.stat.trans h'.stat, h.entries.trans h'.entries, h.rootNode.trans h'.rootNode, h.mounted.trans h'.mounted,
    h.lookupError.trans h'.lookupError, h.readError.trans h'.readError⟩

theorem Alike.umount (h : t.Alike u) (n : NodeId) : (t.umount n).Alike (u.umount n) :=
  ⟨h.stat, h.entries, h.rootNode, congrArg (fun m : NodeId → Option ℕ => Function.update m n none) h.mounted, h.lookupError,
    h.readError⟩

end

end Tree

end SomeOs.Vfs
