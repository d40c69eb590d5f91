import SomeOs.Base.Transition
import SomeOs.Minix.Evict

/-! # The cache of nodes

Opening, creating and closing nodes of one file system, divided into sections under the lock
of the cache, changes of the inode map, and accesses to the inodes of the device. An open
that misses the cache reads the inode while it has the lock; the last close takes the node
from the cache and writes it back later, without the lock. A node in memory is its position
in the list of all nodes, and the first one is the root node, which is never removed.
Beside what the source keeps there is the last version of each inode.
-/
namespace SomeOs.Vfs
open Minix

/-- What the file system stores of a node. -/
structure Metadata where
  mode : ℕ := 0
  nlinks : ℕ := 0
  uid : ℕ := 0
  gid : ℕ := 0
  size : ℕ := 0
  zones : List ℕ := []
  deriving DecidableEq

def metadata (node : MinixVfsNode) : Metadata :=
  ⟨node.stat.mode, node.stat.nlinks, node.stat.uid, node.stat.gid, node.stat.size, node.zones⟩

def Metadata.stored (m : Metadata) : Metadata :=
  { m with
    mode := m.mode % 2 ^ 16, nlinks := m.nlinks % 2 ^ 16, uid := m.uid % 2 ^ 16, gid := m.gid % 2 ^ 16
    size := m.size % 2 ^ 32 }

def Metadata.truncated (m : Metadata) : Metadata :=
  { m with size := 0, zones := List.replicate 10 0 }

theorem metadata_minixReadNode (sb : Minix3Superblock) (disk : ByteStore.Store) {node : MinixVfsNode}
    (hn : Narrow node) :
    metadata (minixReadNode sb (minixWriteNode sb disk node) node.id) = (metadata node).stored := by
  have hr : Recorded sb (minixWriteNode sb disk node) node :=
    @recorded_of_writeNode sb disk _ node hn.zones (fun _ _ => rfl)
  have hmode := hr.half (k := 0) (v := node.stat.mode) rfl rfl
  have hnlinks := hr.half (k := 2) (v := node.stat.nlinks) rfl rfl
  have huid := hr.half (k := 4) (v := node.stat.uid) rfl rfl
  have hgid := hr.half (k := 6) (v := node.stat.gid) rfl rfl
  rw [Nat.add_zero] at hmode
  simp only [metadata, minixReadNode, Metadata.stored, hmode, hnlinks, huid, hgid, hr.size, hr.zones hn]

/-- A node is used, or has been taken from the cache by the last close, and then is truncated and
its inode freed when there are no links to it. -/
inductive NodePhase where
  | used
  | closed
  | truncated
  | freed
  deriving DecidableEq

structure CachedNode where
  id : ℕ
  data : Metadata
  dirty : Bool
  ref_count : ℕ
  phase : NodePhase

structure NodeState where
  device : ℕ → Metadata
  imap : ℕ → Bool
  nodes : List (Option CachedNode)
  cache : ℕ → Option ℕ
  last : ℕ → Metadata

namespace NodeState

def node (s : NodeState) (i : ℕ) : Option CachedNode := (s.nodes[i]?).join

def setNode (s : NodeState) (i : ℕ) (n : Option CachedNode) : NodeState := { s with nodes := s.nodes.set i n }

/-- `vfsCacheCopyNode`: a node without references is put in the cache. -/
def vfsCacheCopyNode (s : NodeState) (i : ℕ) (n : CachedNode) : NodeState :=
  { s.setNode i (some { n with ref_count := n.ref_count + 1 }) with
    cache := if n.ref_count = 0 then Function.update s.cache n.id (some i) else s.cache }

def vfsSuperReadNode (s : NodeState) (id : ℕ) : Option NodeState :=
  match s.node 0 with
  | none => none
  | some root =>
    if id = root.id then some (s.vfsCacheCopyNode 0 root)
    else match s.cache id with
      | some i => (s.node i).map (s.vfsCacheCopyNode i)
      | none =>
        let n : CachedNode := ⟨id, s.device id, false, 0, .used⟩
        some (vfsCacheCopyNode { s with nodes := s.nodes ++ [some n] } s.nodes.length n)

/-- The section of `vfsSuperCloseNode` under the lock. -/
def vfsCacheCloseNode (s : NodeState) (i : ℕ) (n : CachedNode) : NodeState :=
  if n.ref_count = 1 then
    { s.setNode i (some { n with ref_count := 0, phase := if i = 0 then .used else .closed }) with
      cache := Function.update s.cache n.id none }
  else s.setNode i (some { n with ref_count := n.ref_count - 1 })

/-- A task that has a reference changes the node, and `vfsSuperWriteNode` marks it. -/
def change (s : NodeState) (i : ℕ) (n : CachedNode) (m : Metadata) : NodeState :=
  { s.setNode i (some { n with data := m, dirty := true }) with last := Function.update s.last n.id m }

end NodeState

inductive NodeAction where
  | read (id : ℕ)
  | new (id : ℕ)
  | change (i : ℕ) (m : Metadata)
  | close (i : ℕ)
  | trunc (i : ℕ)
  | free (i : ℕ)
  | write (i : ℕ)

/-- The steps of `vfsSuperReadNode`, `vfsSuperNewNode` and `vfsSuperCloseNode`. The first two end
with the same section; before it `vfsSuperNewNode` takes the first free inode. -/
def nodeStep (s : NodeState) : NodeAction → Option NodeState
  | .read id => s.vfsSuperReadNode id
  | .new id => if s.imap id = false ∧ ∀ j < id, s.imap j = true then
      some { s with imap := Function.update s.imap id true } else none
  | .change i m => (s.node i).bind fun n => if n.phase = .used ∧ 0 < n.ref_count then some (s.change i n m) else none
  | .close i => (s.node i).bind fun n =>
    if n.phase = .used ∧ 0 < n.ref_count then some (s.vfsCacheCloseNode i n) else none
  | .trunc i => (s.node i).bind fun n => if n.phase = .closed ∧ n.data.nlinks = 0 then
      some (s.change i { n with phase := .truncated } n.data.truncated) else none
  | .free i => (s.node i).bind fun n => if n.phase = .truncated then
      some { s.setNode i (some { n with phase := .freed }) with imap := Function.update s.imap n.id false } else none
  | .write i => (s.node i).bind fun n => if n.phase = .freed ∨ (n.phase = .closed ∧ n.data.nlinks ≠ 0) then
      some { s.setNode i none with
        device := if n.dirty then Function.update s.device n.id n.data.stored else s.device } else none

def mounted (device : ℕ → Metadata) (imap : ℕ → Bool) (root : ℕ) : NodeState :=
  ⟨device, imap, [some ⟨root, device root, false, 0, .used⟩], fun _ => none, device⟩

end SomeOs.Vfs
