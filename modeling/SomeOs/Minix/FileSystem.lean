import SomeOs.Minix.FileWrite
import SomeOs.Base.Transition

/-! # The open files of a file system

The state is the device and the nodes in memory. The zone trees of all nodes are
kept apart: no two slots refer to the same zone.
-/
namespace SomeOs.Minix
open ByteStore

structure FsState where
  disk : Store
  nodes : List MinixVfsNode

inductive FileOp where
  | write (i : ℕ) (buff : List UInt8) (offset : ℕ)
  | read (i offset length : ℕ)
  | trunc (i length : ℕ)

/-- One operation on a node. There is no state after a division by zero. -/
def fsStep (sb : Minix3Superblock) (s : FsState) : FileOp → Option FsState
  | .write i buff offset => (s.nodes[i]?).map fun node =>
    let r := minixWriteAt sb s.disk node buff offset
    ⟨r.disk, s.nodes.set i r.node⟩
  | .read i offset length => (s.nodes[i]?).map fun node =>
    let r := minixReadAt sb s.disk node offset length
    ⟨r.disk, s.nodes.set i r.node⟩
  | .trunc i length => (s.nodes[i]?).bind fun node =>
    let r := minixTrunc sb s.disk node length
    if r.outcome = .divideByZero then none else some ⟨r.disk, s.nodes.set i r.node⟩

def FsState.zones (s : FsState) : List ℕ := s.nodes.flatMap (fileZones s.disk)

structure FsState.WellFormed (sb : Minix3Superblock) (s : FsState) : Prop where
  nodes : ∀ node ∈ s.nodes, NodeOf sb node
  ids : (s.nodes.map MinixVfsNode.id).Nodup
  separate : Separate sb s.zones

section Frame
variable {sb : Minix3Superblock} {s : FsState} {i j : ℕ} {node other : MinixVfsNode}

/-- Replacing one element of a list replaces its share of a `flatMap`. -/
theorem count_flatMap_set {α β : Type*} [DecidableEq β] {l : List α} {i : ℕ} {a : α} (f g : α → List β)
    (b : α) (h : l[i]? = some a) (hother : ∀ j x, j ≠ i → l[j]? = some x → g x = f x) (z : β) :
    ((l.set i b).flatMap g).count z + (f a).count z = (l.flatMap f).count z + (g b).count z := by
  induction l generalizing i with
  | nil => simp at h
  | cons x l ih =>
    cases i with
    | zero =>
      obtain rfl : x = a := by simpa using h
      have hrest : l.flatMap g = l.flatMap f := by
        apply List.flatMap_congr
        intro y hy
        obtain ⟨j, hj⟩ := List.mem_iff_getElem?.mp hy
        exact hother (j + 1) y (by omega) (by simpa using hj)
      simp only [List.set_cons_zero, List.flatMap_cons, List.count_append, hrest]
      omega
    | succ i =>
      have hx := hother 0 x (by omega) rfl
      have hrest := ih (i := i) (by simpa using h)
        (fun j y hj hy => hother (j + 1) y (by omega) (by simpa using hy))
      simp only [List.set_cons_succ, List.flatMap_cons, List.count_append, hx]
      omega

theorem set_same (h : s.nodes[i]? = some node) : s.nodes.set i node = s.nodes := by
  obtain ⟨hlt, hget⟩ := List.getElem?_eq_some_iff.mp h
  rw [← hget, List.set_getElem_self]

theorem mem_zones (h : s.nodes[i]? = some node) {z : ℕ} (hz : z ∈ fileZones s.disk node) :
    z ∈ s.zones :=
  List.mem_flatMap.mpr ⟨node, List.mem_of_getElem? h, hz⟩

theorem count_fileZones_le (h : s.nodes[i]? = some node) (z : ℕ) :
    (fileZones s.disk node).count z ≤ s.zones.count z := by
  have hcount := count_flatMap_set (fileZones s.disk) (fileZones s.disk) { node with zones := [] } h
    (fun _ _ _ _ => rfl) z
  have hnone : (fileZones s.disk { node with zones := [] }).count z = 0 := by
    simp [fileZones, inodeSlots, tableSlots]
  simp only [FsState.zones]
  omega

theorem FsState.WellFormed.disjoint (hwf : s.WellFormed sb) (hi : s.nodes[i]? = some node)
    (hj : s.nodes[j]? = some other) (hne : j ≠ i) {z : ℕ} (hz : z ∈ fileZones s.disk other) :
    z ∉ fileZones s.disk node := by
  intro hz'
  have hcount := count_flatMap_set (fileZones s.disk) (fileZones s.disk) { other with zones := [] } hj
    (fun _ _ _ _ => rfl) z
  have hle := List.nodup_iff_count_le_one.mp hwf.separate.nodup z
  have h1 := List.count_pos_iff.mpr hz
  have hmem : z ∈ (s.nodes.set j { other with zones := [] }).flatMap (fileZones s.disk) := by
    have hi' : (s.nodes.set j { other with zones := [] })[i]? = some node := by
      rw [List.getElem?_set_ne hne]
      exact hi
    exact List.mem_flatMap.mpr ⟨node, List.mem_of_getElem? hi', hz'⟩
  have h2 := List.count_pos_iff.mpr hmem
  have h0 : (fileZones s.disk { other with zones := [] }).count z = 0 := by
    simp [fileZones, inodeSlots, tableSlots]
  simp only [FsState.zones] at hle
  omega

theorem FsState.WellFormed.others {new : List ℕ} {disk' : Store} (hl : Layout sb)
    (hwf : s.WellFormed sb) (hi : s.nodes[i]? = some node) (hnew : ∀ z ∈ new, z ∉ s.zones)
    (ht : Touched sb s.disk node new disk') (hj : s.nodes[j]? = some other) (hne : j ≠ i) :
    fileZones disk' other = fileZones s.disk other ∧
      ∀ o, fileByte disk' other o = fileByte s.disk other o := by
  have hkeep : ∀ a, a / blockSize ∈ fileZones s.disk other → disk' a = s.disk a := by
    intro a ha
    have hdata := (hwf.separate.data _ (mem_zones hj ha)).1
    apply ht a (hwf.disjoint hi hj hne ha)
    · exact fun hn => hnew _ hn (mem_zones hj ha)
    · exact not_inMap hl hdata
    · exact not_inInode hl (hwf.nodes node (List.mem_of_getElem? hi)) hdata
  exact ⟨slotsZones_congr hkeep, slotsByte_congr hkeep⟩

theorem FsState.WellFormed.count_zones {new : List ℕ} {disk' : Store} (node' : MinixVfsNode)
    (hl : Layout sb) (hwf : s.WellFormed sb) (hi : s.nodes[i]? = some node)
    (hnew : ∀ z ∈ new, z ∉ s.zones) (ht : Touched sb s.disk node new disk') (z : ℕ) :
    (FsState.zones ⟨disk', s.nodes.set i node'⟩).count z + (fileZones s.disk node).count z =
      s.zones.count z + (fileZones disk' node').count z := by
  apply count_flatMap_set _ _ _ hi
  intro j other hne hj
  exact (hwf.others hl hi hnew ht hj hne).1

/-- A changed node of the same number keeps the file system well formed when its
zones are still kept apart. -/
theorem FsState.WellFormed.set_node {disk' : Store} {node' : MinixVfsNode} (hwf : s.WellFormed sb)
    (hi : s.nodes[i]? = some node) (hid : node'.id = node.id) (hlen : node'.zones.length = 10)
    (hsep : Separate sb (FsState.zones ⟨disk', s.nodes.set i node'⟩)) :
    FsState.WellFormed sb ⟨disk', s.nodes.set i node'⟩ where
  nodes := by
    intro n hn
    rcases List.mem_or_eq_of_mem_set hn with hn | rfl
    · exact hwf.nodes n hn
    · have hnode := hwf.nodes node (List.mem_of_getElem? hi)
      exact ⟨hid ▸ hnode.id_pos, hid ▸ hnode.id_le, hlen⟩
  ids := by
    have hsame : (s.nodes.set i node').map MinixVfsNode.id = s.nodes.map MinixVfsNode.id := by
      obtain ⟨hlt, hget⟩ := List.getElem?_eq_some_iff.mp hi
      have hlt' : i < (s.nodes.map MinixVfsNode.id).length := by simpa using hlt
      have hnode : node'.id = (s.nodes.map MinixVfsNode.id)[i] := by simp [hget, hid]
      rw [List.map_set, hnode, List.set_getElem_self]
    rw [hsame]
    exact hwf.ids
  separate := hsep

end Frame

section Write
variable {sb : Minix3Superblock} {s : FsState} {i : ℕ} {node : MinixVfsNode} {buff : List UInt8}
variable {offset : ℕ}

def FreshZones (sb : Minix3Superblock) (s : FsState) (r : IoResult) : Prop :=
  Separate sb (s.zones ++ r.allocated.reduceOption)

theorem FreshZones.of_node {r : IoResult} (h : FreshZones sb s r) (hi : s.nodes[i]? = some node) :
    Separate sb (fileZones s.disk node ++ r.allocated.reduceOption) := by
  apply Separate.of_count h
  intro z
  have := count_fileZones_le hi z
  simp only [List.count_append]
  omega

theorem FreshZones.not_mem {r : IoResult} (h : FreshZones sb s r) :
    ∀ z ∈ r.allocated.reduceOption, z ∉ s.zones :=
  fun _ hz hz' => Separate.disjoint h hz' hz

theorem FsState.WellFormed.count_write (hl : Layout sb) (hwf : s.WellFormed sb)
    (hi : s.nodes[i]? = some node) {r : IoResult} (hr : FileWritten sb s.disk node buff offset r)
    (hfresh : FreshZones sb s r) (z : ℕ) :
    (FsState.zones ⟨r.disk, s.nodes.set i r.node⟩).count z =
      (s.zones ++ r.allocated.reduceOption).count z := by
  have h1 := hwf.count_zones r.node hl hi hfresh.not_mem hr.frame z
  have h2 := hr.zones z
  simp only [List.count_append]
  omega

theorem FsState.WellFormed.write (hl : Layout sb) (hwf : s.WellFormed sb)
    (hi : s.nodes[i]? = some node) {r : IoResult} (hr : FileWritten sb s.disk node buff offset r)
    (hfresh : FreshZones sb s r) :
    FsState.WellFormed sb ⟨r.disk, s.nodes.set i r.node⟩ :=
  hwf.set_node hi hr.id_eq hr.length
    (Separate.of_count hfresh (fun z => (hwf.count_write hl hi hr hfresh z).le))

end Write

/-! A small device: five zones of metadata, three data zones and two empty files. -/

def smallSb : Minix3Superblock := ⟨16, 1, 1, 5, 8⟩

def smallDisk : Store := fun a => if a = 3072 then 31 else 0

def emptyNode (id : ℕ) : MinixVfsNode := ⟨id, {}, List.replicate 10 0⟩

def smallFs : FsState := ⟨smallDisk, [emptyNode 1, emptyNode 2]⟩

theorem smallSb_layout : Layout smallSb := ⟨by decide, by decide⟩

theorem smallFs_wellFormed : smallFs.WellFormed smallSb where
  nodes := by
    intro node hn
    obtain rfl | rfl : node = emptyNode 1 ∨ node = emptyNode 2 := by simpa [smallFs] using hn
    · exact ⟨by decide, by decide, rfl⟩
    · exact ⟨by decide, by decide, rfl⟩
  ids := by decide
  separate := by
    have hzones : smallFs.zones = [] := rfl
    rw [hzones]
    exact ⟨List.nodup_nil, by simp⟩

end SomeOs.Minix
