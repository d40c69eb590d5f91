import SomeOs.Vfs.Links
import SomeOs.Vfs.Unlink

/-! # Runs that keep the link counts

The calls that make and remove names, one after another, with failing changes of the driver.
A failing link of the driver leaves a count that has already gone up; the other conditions
are on directories whose own entries are not the usual ones.
-/
namespace SomeOs.Vfs
open Filesystem Transition

structure Consistent (s : Filesystem) : Prop extends Counted s, ZonesOwned s where
  emptied : ∀ i, Emptied s i

/-- A consistent file system in a call in which the driver does nothing wrong any more. -/
structure Working (s : Filesystem) : Prop extends Consistent s, DriverSafe s

def NoLinkFault (s : Filesystem) : Prop := ∀ f ∈ s.faults.link, f = none

section Parts
variable {s : Filesystem} {process : Option User} {node entry i j : ℕ} {name : Name}

theorem Working.popUnlink (h : Working s) (l : List (Option DriverError)) :
    Working { s with faults := { s.faults with unlink := l } } :=
  ⟨⟨h.toCounted.faults _, h.toZonesOwned.of_same rfl rfl rfl, h.emptied⟩, h.toDriverSafe.of_same rfl rfl rfl rfl fun _ hz => hz⟩

theorem Working.copy (h : Working s) (hi : s.used i = true) : Working (s.vfsNodeCopy i) :=
  ⟨⟨h.toCounted.copy hi, h.toZonesOwned.of_same rfl rfl rfl, h.emptied⟩, h.toDriverSafe.of_same rfl rfl rfl rfl fun _ hz => hz⟩

theorem Working.close (h : Working s) (hr : 0 < s.refs i) : Working (s.vfsNodeClose i) :=
  ⟨⟨h.toCounted.close h.toDriverSafe hr (h.emptied i), h.toZonesOwned.close h.toDriverSafe i,
    fun j => Emptied.close h.toCounted h.toDriverSafe hr (h.emptied i) (h.emptied j)⟩, h.toDriverSafe.close i⟩

theorem Working.close_two (h : Working s) (hi : 0 < s.refs i) (hj : 0 < s.refs j) (hij : i = j → 2 ≤ s.refs i) :
    Working ((s.vfsNodeClose i).vfsNodeClose j) := by
  refine (h.close hi).close ?_
  rw [close_refs h.toDriverSafe]
  split_ifs with hji
  · have := hij hji.symm
    omega
  · exact hj

theorem ZonesOwned.unlinked (h : ZonesOwned s) (hd : DriverSafe s) (hnode : s.used node = true) :
    ZonesOwned (s.unlinked node name entry) := by
  have hset : ZonesOwned (s.popUnlink.setEntries node (removeEntry (s.entries node) name)) := h.of_same rfl rfl rfl
  have hsafe : DriverSafe (s.popUnlink.setEntries node (removeEntry (s.entries node) name)) :=
    hd.of_same rfl rfl rfl rfl fun _ hz => hz
  exact (hset.nextZones hsafe hnode).of_same rfl rfl rfl

theorem DriverSafe.unlinked (h : DriverSafe s) : DriverSafe (s.unlinked node name entry) := by
  have hset : DriverSafe (s.popUnlink.setEntries node (removeEntry (s.entries node) name)) :=
    h.of_same rfl rfl rfl rfl fun _ hz => hz
  exact (hset.nextZones node).of_same rfl rfl rfl rfl fun _ hz => hz

theorem ZonesOwned.linked (h : ZonesOwned s) (hd : DriverSafe s) (hnode : s.used node = true) :
    ZonesOwned (s.linked node name entry) := by
  refine ZonesOwned.nextZones (h.of_same rfl rfl rfl) ?_ hnode
  exact hd.of_same rfl rfl rfl rfl fun _ hz => hz

theorem DriverSafe.linked (h : DriverSafe s) : DriverSafe (s.linked node name entry) := by
  refine DriverSafe.nextZones ?_ node
  exact h.of_same rfl rfl rfl rfl fun _ hz => hz

theorem Working.unlinked (h : Working s) (hl : s.lookup node name = some entry)
    (hr : entry = s.root ∨ 0 < s.refs entry) (he : Emptied (s.unlinked node name entry) entry) :
    Working (s.unlinked node name entry) := by
  refine ⟨⟨h.toCounted.unlinked hl hr, h.toZonesOwned.unlinked h.toDriverSafe (h.toCounted.node_used (mem_of_lookup hl)),
    fun j => ?_⟩, h.toDriverSafe.unlinked⟩
  by_cases hj : j = entry
  · rw [hj]
    exact he
  · exact (h.emptied j).unlinked h.toCounted hl hj

theorem Working.linked (h : Working s) (hl : s.lookup node name = none) (hnode : s.used node = true)
    (hnamed : node = s.root ∨ 0 < s.links node) (hentry : s.used entry = true) (hlt : (s.stat entry).nlinks + 1 < 2 ^ 16) :
    Working (s.linked node name entry) :=
  ⟨⟨h.toCounted.linked hl hnode hentry hlt, h.toZonesOwned.linked h.toDriverSafe hnode,
    fun j => (h.emptied j).linked h.toCounted hl hnode fun hj => hj ▸ hnamed⟩, h.toDriverSafe.linked⟩

theorem NoLinkFault.linked (hf : NoLinkFault s) : NoLinkFault (s.linked node name entry) :=
  fun f hmem => hf f (List.mem_of_mem_tail hmem)

end Parts

section Create
variable {s : Filesystem} {process : Option User} {umask mode i parent : ℕ} {path : List Name} {base : Name}

def NewNode (mode : ℕ) (r : Result ℕ) : Prop :=
  Working r.2 ∧ ∀ new, r.1 = .ok new → 0 < r.2.refs new ∧ (modeType mode ≠ typeDir → r.2.entries new = [])

/-- What is done with a new node keeps a working file system, as it does when there is no node. -/
theorem NewNode.checked {mode : ℕ} {r : Result ℕ} {β : Type} {f : ℕ → Filesystem → Result β} (h : NewNode mode r)
    (hf : ∀ new u, Working u → 0 < u.refs new → (modeType mode ≠ typeDir → u.entries new = []) → Working (f new u).2) :
    Working (r.checked id f).2 := by
  obtain ⟨h1, hok⟩ := h
  unfold Result.checked
  split
  · exact h1
  · next new u =>
    obtain ⟨hrefs, hnil⟩ := hok new rfl
    exact hf new u h1 hrefs hnil

theorem Working.newNode (h : Working s) (hne : i ≠ parent) (hi : 0 < s.refs i) (hparent : 0 < s.refs parent)
    (hnil : modeType mode ≠ typeDir → s.entries i = []) : NewNode mode (.ok i, s.vfsNodeClose parent) := by
  refine ⟨h.close hparent, fun new hok => ?_⟩
  cases hok
  dsimp only
  rw [close_refs h.toDriverSafe, if_neg hne, (h.toCounted.close_same h.toDriverSafe hparent (h.emptied parent) i).1]
  exact ⟨hi, hnil⟩

theorem Working.created (h : Working s) (hfree : s.freeInode = some i) {stat : Minix.VfsStat} (hstat : stat.nlinks = 0) :
    Working (s.created i stat) :=
  ⟨⟨h.toCounted.created hfree hstat, h.toZonesOwned.created (freeInode_spec hfree).2 rfl rfl fun j => created_used s i j stat,
    fun j => Emptied.created h.toCounted hfree stat (h.emptied j)⟩, h.toDriverSafe.of_same rfl rfl rfl rfl fun _ hz => hz⟩

end Create

section Open
variable {s : Filesystem} {process : Option User} {umask mode node : ℕ} {path : List Name} {flags : OpenFlags}

theorem setEntries_nil (h : s.entries node = []) : s.setEntries node [] = s := by
  have hsame : { s.inodes node with entries := [] } = s.inodes node := by
    unfold Filesystem.entries at h
    rw [← h]
  unfold setEntries
  rw [hsame, Function.update_eq_self]

theorem Working.trunc (h : Working s) (hused : s.used node = true) (hnil : s.entries node = []) :
    ∃ t, s.vfsNodeTrunc node = (.ok (), t) ∧ Working t := by
  unfold vfsNodeTrunc
  rw [h.truncates node, setEntries_nil hnil]
  have hcounted : Counted (s.changeZones node { freed := s.zones node, dropped := s.zones node }) :=
    ⟨h.root_used, h.small, h.count, h.narrow, h.unused, h.target, h.kept, h.held, h.dots⟩
  have howned := h.toZonesOwned.changeZones (c := { freed := s.zones node, dropped := s.zones node }) hused rfl
    fun z hz => by cases hz
  refine ⟨_, rfl, ⟨hcounted, howned, h.emptied⟩, ?_⟩
  refine h.toDriverSafe.of_same rfl rfl rfl rfl fun z hz => ?_
  rcases changeZones_zoneUsed.mp hz with ⟨hz, -⟩ | hz
  · exact hz
  · cases hz

end Open

section Link
variable {s t : Filesystem} {process : Option User} {node entry parent child i j : ℕ} {name : Name} {old new path : List Name}

end Link

section Unlink
variable {s t : Filesystem} {process : Option User} {node entry parent i j : ℕ} {name name' base : Name} {path : List Name}

end Unlink

/-- A call of a process, and the closing of a file. -/
inductive Call where
  | openAt (process : Option User) (umask : ℕ) (path : List Name) (flags : OpenFlags) (mode : ℕ)
  | mknod (process : Option User) (umask : ℕ) (path : List Name) (mode : ℕ)
  | link (process : Option User) (old new : List Name)
  | unlink (process : Option User) (path : List Name)
  | rename (process : Option User) (old new : List Name)
  | close (node : ℕ)

section Runs
variable {s t : Filesystem}

end Runs

end SomeOs.Vfs
