import SomeOs.Vfs.NodeCache

/-! # Updates of inodes through the cache of nodes

There is one node in memory for an inode, and it is the last version. This is lost when an
inode is read while the last version of it is in a node that has been taken from the cache
and still has to be written back.
-/
namespace SomeOs.Vfs
open Transition

/-- A node that is read is not waiting to be written back, and what is written fits in the inode. -/
def Settled (s : NodeState) : NodeAction → Prop
  | .read id => ∀ o ∈ s.nodes, ∀ n ∈ o, n.id = id → n.phase = .used
  | .write i => ∀ n ∈ s.node i, n.dirty = true → n.data.stored = n.data
  | _ => True

/-- There is at most one node in memory for an inode. It is the last version of the inode, and
otherwise the device has the last version. -/
structure NodesCurrent (s : NodeState) : Prop where
  unique : ∀ i j n m, s.node i = some n → s.node j = some m → n.id = m.id → i = j
  seen : ∀ i n, s.node i = some n → n.data = s.last n.id
  stored : ∀ id, (∀ i n, s.node i = some n → n.id ≠ id) → s.device id = s.last id
  opened : ∀ id i, s.cache id = some i → ∃ n, s.node i = some n ∧ n.id = id

structure NodeInv (s : NodeState) : Prop where
  root : ∃ n, s.node 0 = some n ∧ n.phase = .used
  unique : ∀ i j n m, s.node i = some n → s.node j = some m → n.id = m.id → i = j
  seen : ∀ i n, s.node i = some n → n.data = s.last n.id
  stored : ∀ id, (∀ i n, s.node i = some n → n.id ≠ id) → s.device id = s.last id
  clean : ∀ i n, s.node i = some n → n.dirty = false → s.device n.id = n.data
  cached : ∀ id i, s.cache id = some i → ∃ n, s.node i = some n ∧ n.id = id ∧ n.phase = .used ∧ 0 < n.ref_count
  found : ∀ i n, s.node i = some n → n.phase = .used → 0 < n.ref_count → s.cache n.id = some i
  refs : ∀ i n, s.node i = some n → n.phase = .used → i ≠ 0 → 0 < n.ref_count

section Node
variable {s : NodeState} {i j : ℕ} {n : CachedNode} {o : Option CachedNode}

theorem lt_length_of_node (h : s.node i = some n) : i < s.nodes.length := by
  by_contra hge
  rw [NodeState.node, List.getElem?_eq_none (by omega)] at h
  cases h

theorem mem_nodes_of_node (h : s.node i = some n) : some n ∈ s.nodes := by
  have hlt := lt_length_of_node h
  rw [NodeState.node, List.getElem?_eq_getElem hlt] at h
  have : s.nodes[i] = some n := h
  rw [← this]
  exact List.getElem_mem hlt

theorem node_set_self (h : s.node i = some n) : ((s.nodes.set i o)[i]?).join = o := by
  rw [List.getElem?_set_self (lt_length_of_node h)]
  rfl

theorem node_set_of_ne (h : j ≠ i) : ((s.nodes.set i o)[j]?).join = s.node j := by
  rw [List.getElem?_set_ne h.symm]
  rfl

end Node

section Steps
variable {s t : NodeState} {i : ℕ} {n : CachedNode}

/-- A node is replaced by one for the same inode. -/
theorem NodeInv.replace (h : NodeInv s) (hi : s.node i = some n) (n' : CachedNode) (hid : n'.id = n.id)
    (hnodes : t.nodes = s.nodes.set i (some n')) (hdevice : t.device = s.device)
    (hlast : ∀ id, id ≠ n.id → t.last id = s.last id) (hdata : n'.data = t.last n.id)
    (hclean : n'.dirty = false → s.device n.id = n'.data)
    (hcache : ∀ id, id ≠ n.id → t.cache id = s.cache id)
    (hcached : ∀ j, t.cache n.id = some j → j = i ∧ n'.phase = .used ∧ 0 < n'.ref_count)
    (hfound : n'.phase = .used → 0 < n'.ref_count → t.cache n.id = some i)
    (hrefs : n'.phase = .used → i ≠ 0 → 0 < n'.ref_count) (hroot : i = 0 → n'.phase = .used) : NodeInv t := by
  have hself : t.node i = some n' := by
    rw [NodeState.node, hnodes]
    exact node_set_self hi
  have hother : ∀ j, j ≠ i → t.node j = s.node j := by
    intro j hj
    rw [NodeState.node, hnodes]
    exact node_set_of_ne hj
  -- A node of the new state is the new one or has the other inodes.
  have hcases : ∀ j m, t.node j = some m → (j = i ∧ m = n') ∨ (j ≠ i ∧ s.node j = some m ∧ m.id ≠ n.id) := by
    intro j m hm
    by_cases hj : j = i
    · subst hj
      rw [hself] at hm
      exact Or.inl ⟨rfl, (Option.some.inj hm).symm⟩
    · rw [hother j hj] at hm
      exact Or.inr ⟨hj, hm, fun hmn => hj (h.unique j i m n hm hi hmn)⟩
  refine ⟨?_, ?_, ?_, ?_, ?_, ?_, ?_, ?_⟩
  · obtain ⟨r, hr, hused⟩ := h.root
    by_cases h0 : i = 0
    · exact ⟨n', h0 ▸ hself, hroot h0⟩
    · exact ⟨r, by rw [hother 0 (Ne.symm h0), hr], hused⟩
  · intro a b m m' ha hb hmm
    rcases hcases a m ha with ⟨rfl, rfl⟩ | ⟨hai, ha', hm⟩
    · rcases hcases b m' hb with ⟨rfl, -⟩ | ⟨-, -, hm'⟩
      · rfl
      · exact absurd (hmm.symm.trans hid) hm'
    · rcases hcases b m' hb with ⟨rfl, rfl⟩ | ⟨-, hb', -⟩
      · exact absurd (hmm.trans hid) hm
      · exact h.unique a b m m' ha' hb' hmm
  · intro j m hm
    rcases hcases j m hm with ⟨-, rfl⟩ | ⟨-, hm, hne⟩
    · rw [hdata, hid]
    · rw [h.seen j m hm, hlast m.id hne]
  · intro id hnone
    have hne : id ≠ n.id := fun heq => hnone i n' hself (hid.trans heq.symm)
    rw [hdevice, hlast id hne]
    refine h.stored id (fun j m hm heq => ?_)
    have hj : j ≠ i := by
      rintro rfl
      rw [hi] at hm
      cases hm
      exact hne heq.symm
    exact hnone j m ((hother j hj).trans hm) heq
  · intro j m hm hdirty
    rw [hdevice]
    rcases hcases j m hm with ⟨-, rfl⟩ | ⟨-, hm, -⟩
    · rw [hid]
      exact hclean hdirty
    · exact h.clean j m hm hdirty
  · intro id j hj
    by_cases hidn : id = n.id
    · subst hidn
      obtain ⟨rfl, hused, hpos⟩ := hcached j hj
      exact ⟨n', hself, hid, hused, hpos⟩
    · rw [hcache id hidn] at hj
      obtain ⟨m, hm, hmid, hrest⟩ := h.cached id j hj
      have hji : j ≠ i := by
        rintro rfl
        rw [hi] at hm
        cases hm
        exact hidn hmid.symm
      exact ⟨m, (hother j hji).trans hm, hmid, hrest⟩
  · intro j m hm hused hpos
    rcases hcases j m hm with ⟨rfl, rfl⟩ | ⟨-, hm, hne⟩
    · rw [hid]
      exact hfound hused hpos
    · rw [hcache m.id hne]
      exact h.found j m hm hused hpos
  · intro j m hm hused hj
    rcases hcases j m hm with ⟨rfl, rfl⟩ | ⟨-, hm, -⟩
    · exact hrefs hused hj
    · exact h.refs j m hm hused hj

/-- A node gets another reference. -/
theorem NodeInv.vfsCacheCopyNode (h : NodeInv s) (hi : s.node i = some n) (hused : n.phase = .used) :
    NodeInv (s.vfsCacheCopyNode i n) := by
  refine h.replace hi { n with ref_count := n.ref_count + 1 } rfl rfl rfl (fun _ _ => rfl) (h.seen i n hi)
    (h.clean i n hi) ?_ ?_ ?_ (fun _ _ => Nat.succ_pos _) (fun _ => hused)
  · intro id hid
    dsimp only [NodeState.vfsCacheCopyNode]
    split_ifs
    · exact Function.update_of_ne hid ..
    · rfl
  · intro j hj
    dsimp only [NodeState.vfsCacheCopyNode] at hj
    refine ⟨?_, hused, Nat.succ_pos _⟩
    split_ifs at hj with hzero
    · rw [Function.update_self] at hj
      exact (Option.some.inj hj).symm
    · rw [h.found i n hi hused (Nat.pos_of_ne_zero hzero)] at hj
      exact (Option.some.inj hj).symm
  · intro _ _
    dsimp only [NodeState.vfsCacheCopyNode]
    split_ifs with hzero
    · exact Function.update_self ..
    · exact h.found i n hi hused (Nat.pos_of_ne_zero hzero)

/-- A node is read from the device when there is none for the inode. -/
theorem NodeInv.insert (h : NodeInv s) {id : ℕ} (hnone : ∀ j m, s.node j = some m → m.id ≠ id) :
    NodeInv (NodeState.vfsCacheCopyNode { s with nodes := s.nodes ++ [some ⟨id, s.device id, false, 0, .used⟩] }
      s.nodes.length ⟨id, s.device id, false, 0, .used⟩) := by
  generalize ht : NodeState.vfsCacheCopyNode _ _ _ = t
  have hnodes : t.nodes = s.nodes ++ [some ⟨id, s.device id, false, 1, .used⟩] := by
    rw [← ht]
    simp [NodeState.vfsCacheCopyNode, NodeState.setNode]
  have hcache : t.cache = Function.update s.cache id (some s.nodes.length) := by
    rw [← ht]
    rfl
  have hdevice : t.device = s.device := by
    rw [← ht]
    rfl
  have hlast : t.last = s.last := by
    rw [← ht]
    rfl
  have hself : t.node s.nodes.length = some ⟨id, s.device id, false, 1, .used⟩ := by
    rw [NodeState.node, hnodes, List.getElem?_concat_length]
    rfl
  have hold : ∀ j m, s.node j = some m → t.node j = some m := by
    intro j m hm
    rw [NodeState.node, hnodes, List.getElem?_append_left (lt_length_of_node hm)]
    exact hm
  have hcases : ∀ j m, t.node j = some m → (j = s.nodes.length ∧ m = ⟨id, s.device id, false, 1, .used⟩) ∨
      (j ≠ s.nodes.length ∧ s.node j = some m ∧ m.id ≠ id) := by
    intro j m hm
    by_cases hj : j = s.nodes.length
    · subst hj
      rw [hself] at hm
      exact Or.inl ⟨rfl, (Option.some.inj hm).symm⟩
    · have hlt := lt_length_of_node hm
      rw [hnodes, List.length_append, List.length_singleton] at hlt
      rw [NodeState.node, hnodes, List.getElem?_append_left (by omega)] at hm
      exact Or.inr ⟨hj, hm, hnone j m hm⟩
  obtain ⟨r, hr, hused⟩ := h.root
  refine ⟨⟨r, hold 0 r hr, hused⟩, ?_, ?_, ?_, ?_, ?_, ?_, ?_⟩
  · intro a b m m' ha hb hmm
    rcases hcases a m ha with ⟨rfl, rfl⟩ | ⟨-, ha', hm⟩
    · rcases hcases b m' hb with ⟨rfl, -⟩ | ⟨-, -, hm'⟩
      · rfl
      · exact absurd hmm.symm hm'
    · rcases hcases b m' hb with ⟨rfl, rfl⟩ | ⟨-, hb', -⟩
      · exact absurd hmm hm
      · exact h.unique a b m m' ha' hb' hmm
  · intro j m hm
    rw [hlast]
    rcases hcases j m hm with ⟨-, rfl⟩ | ⟨-, hm, -⟩
    · exact h.stored id hnone
    · exact h.seen j m hm
  · intro id' hnone'
    rw [hdevice, hlast]
    exact h.stored id' (fun j m hm => hnone' j m (hold j m hm))
  · intro j m hm hdirty
    rw [hdevice]
    rcases hcases j m hm with ⟨-, rfl⟩ | ⟨-, hm, -⟩
    · rfl
    · exact h.clean j m hm hdirty
  · intro id' j hj
    rw [hcache] at hj
    by_cases hid : id' = id
    · subst hid
      rw [Function.update_self] at hj
      obtain rfl := Option.some.inj hj
      exact ⟨_, hself, rfl, rfl, Nat.one_pos⟩
    · rw [Function.update_of_ne hid] at hj
      obtain ⟨m, hm, hrest⟩ := h.cached id' j hj
      exact ⟨m, hold j m hm, hrest⟩
  · intro j m hm hused hpos
    rw [hcache]
    rcases hcases j m hm with ⟨rfl, rfl⟩ | ⟨-, hm, hne⟩
    · exact Function.update_self ..
    · rw [Function.update_of_ne hne]
      exact h.found j m hm hused hpos
  · intro j m hm hused hj
    rcases hcases j m hm with ⟨-, rfl⟩ | ⟨-, hm, -⟩
    · exact Nat.one_pos
    · exact h.refs j m hm hused hj

/-- A node that is not used any more is written back. -/
theorem NodeInv.write (h : NodeInv s) (hi : s.node i = some n) (hphase : n.phase ≠ .used)
    (hfits : n.dirty = true → n.data.stored = n.data) :
    NodeInv { s.setNode i none with
      device := if n.dirty then Function.update s.device n.id n.data.stored else s.device } := by
  generalize ht : ({ s.setNode i none with
    device := if n.dirty then Function.update s.device n.id n.data.stored else s.device } : NodeState) = t
  have hself : t.node i = none := by
    rw [← ht]
    exact node_set_self hi
  have hother : ∀ j, j ≠ i → t.node j = s.node j := by
    intro j hj
    rw [← ht]
    exact node_set_of_ne hj
  have hcases : ∀ j m, t.node j = some m → j ≠ i ∧ s.node j = some m ∧ m.id ≠ n.id := by
    intro j m hm
    have hj : j ≠ i := by
      rintro rfl
      rw [hself] at hm
      cases hm
    rw [hother j hj] at hm
    exact ⟨hj, hm, fun hmn => hj (h.unique j i m n hm hi hmn)⟩
  have hdevice : ∀ id, id ≠ n.id → t.device id = s.device id := by
    intro id hid
    rw [← ht]
    dsimp only
    split_ifs
    · exact Function.update_of_ne hid ..
    · rfl
  have hwritten : t.device n.id = n.data := by
    rw [← ht]
    dsimp only
    split_ifs with hdirty
    · rw [Function.update_self, hfits hdirty]
    · exact h.clean i n hi (by simpa using hdirty)
  have hlast : t.last = s.last := by
    rw [← ht]
    rfl
  have hcache : t.cache = s.cache := by
    rw [← ht]
    rfl
  refine ⟨?_, ?_, ?_, ?_, ?_, ?_, ?_, ?_⟩
  · obtain ⟨r, hr, hused⟩ := h.root
    have h0 : 0 ≠ i := by
      rintro rfl
      rw [hi] at hr
      cases hr
      exact hphase hused
    exact ⟨r, (hother 0 h0).trans hr, hused⟩
  · intro a b m m' ha hb hmm
    exact h.unique a b m m' (hcases a m ha).2.1 (hcases b m' hb).2.1 hmm
  · intro j m hm
    rw [hlast]
    exact h.seen j m (hcases j m hm).2.1
  · intro id hnone
    rw [hlast]
    by_cases hid : id = n.id
    · rw [hid, hwritten]
      exact h.seen i n hi
    · rw [hdevice id hid]
      refine h.stored id (fun j m hm heq => ?_)
      have hj : j ≠ i := by
        rintro rfl
        rw [hi] at hm
        cases hm
        exact hid heq.symm
      exact hnone j m ((hother j hj).trans hm) heq
  · intro j m hm hdirty
    obtain ⟨-, hm, hne⟩ := hcases j m hm
    rw [hdevice m.id hne]
    exact h.clean j m hm hdirty
  · intro id j hj
    rw [hcache] at hj
    obtain ⟨m, hm, hid, hused, hpos⟩ := h.cached id j hj
    have hji : j ≠ i := by
      rintro rfl
      rw [hi] at hm
      cases hm
      exact hphase hused
    exact ⟨m, (hother j hji).trans hm, hid, hused, hpos⟩
  · intro j m hm hused hpos
    rw [hcache]
    exact h.found j m (hcases j m hm).2.1 hused hpos
  · intro j m hm hused hj
    exact h.refs j m (hcases j m hm).2.1 hused hj

theorem NodeInv.vfsSuperReadNode (h : NodeInv s) {id : ℕ} (hok : Settled s (.read id))
    (ht : s.vfsSuperReadNode id = some t) : NodeInv t := by
  obtain ⟨r, hr, hused⟩ := h.root
  unfold NodeState.vfsSuperReadNode at ht
  rw [hr] at ht
  dsimp only at ht
  split_ifs at ht with hroot
  · cases ht
    exact h.vfsCacheCopyNode hr hused
  · cases hc : s.cache id with
    | some i =>
      rw [hc] at ht
      obtain ⟨n, hn, rfl⟩ := Option.map_eq_some_iff.mp ht
      obtain ⟨m, hm, -, hmused, -⟩ := h.cached id i hc
      rw [hn] at hm
      cases hm
      exact h.vfsCacheCopyNode hn hmused
    | none =>
      rw [hc] at ht
      cases ht
      refine h.insert (fun j m hm hmid => ?_)
      have hmused := hok (some m) (mem_nodes_of_node hm) m rfl hmid
      have hj : j ≠ 0 := by
        rintro rfl
        rw [hr] at hm
        cases hm
        exact hroot hmid.symm
      have := h.found j m hm hmused (h.refs j m hm hmused hj)
      rw [hmid, hc] at this
      cases this

theorem NodeInv.change (h : NodeInv s) (hi : s.node i = some n) (m : Metadata) : NodeInv (s.change i n m) := by
  have hdata : m = Function.update s.last n.id m n.id := by rw [Function.update_self]
  refine h.replace hi { n with data := m, dirty := true } rfl rfl rfl (fun _ hid => Function.update_of_ne hid ..)
    hdata (fun hd => (by cases hd)) (fun _ _ => rfl) ?_ (h.found i n hi) (h.refs i n hi) ?_
  · intro j hj
    obtain ⟨m', hm', hid, hrest⟩ := h.cached n.id j hj
    obtain rfl := h.unique j i m' n hm' hi hid
    rw [hi] at hm'
    cases hm'
    exact ⟨rfl, hrest⟩
  · rintro rfl
    obtain ⟨r, hr, hused⟩ := h.root
    rw [hi] at hr
    cases hr
    exact hused

theorem NodeInv.advance (h : NodeInv s) (hi : s.node i = some n) {p : NodePhase} (hphase : n.phase ≠ .used)
    (hnext : p ≠ .used) : NodeInv (s.setNode i (some { n with phase := p })) := by
  refine h.replace hi { n with phase := p } rfl rfl rfl (fun _ _ => rfl) (h.seen i n hi) (h.clean i n hi)
    (fun _ _ => rfl) ?_ (fun hused => absurd hused hnext) (fun hused => absurd hused hnext) ?_
  · intro j hj
    obtain ⟨m', hm', hid, hused, -⟩ := h.cached n.id j hj
    obtain rfl := h.unique j i m' n hm' hi hid
    rw [hi] at hm'
    cases hm'
    exact absurd hused hphase
  · rintro rfl
    obtain ⟨r, hr, hused⟩ := h.root
    rw [hi] at hr
    cases hr
    exact absurd hused hphase

theorem NodeInv.vfsCacheCloseNode (h : NodeInv s) (hi : s.node i = some n) (hused : n.phase = .used)
    (hpos : 0 < n.ref_count) : NodeInv (s.vfsCacheCloseNode i n) := by
  have hcached := h.found i n hi hused hpos
  have hnone : ∀ j, Function.update s.cache n.id none n.id ≠ some j := by
    intro j
    rw [Function.update_self]
    simp
  unfold NodeState.vfsCacheCloseNode
  split_ifs with hone h0
  · exact h.replace hi { n with ref_count := 0, phase := .used } rfl rfl rfl (fun _ _ => rfl) (h.seen i n hi)
      (h.clean i n hi) (fun _ hid => Function.update_of_ne hid ..)
      (fun j hj => absurd hj (hnone j)) (fun _ hlt => absurd hlt (lt_irrefl 0))
      (fun _ hne => absurd h0 hne) (fun _ => rfl)
  · exact h.replace hi { n with ref_count := 0, phase := .closed } rfl rfl rfl (fun _ _ => rfl) (h.seen i n hi)
      (h.clean i n hi) (fun _ hid => Function.update_of_ne hid ..)
      (fun j hj => absurd hj (hnone j)) (fun hu => (by cases hu)) (fun hu => (by cases hu))
      (fun h0' => absurd h0' h0)
  · have hmore : 0 < n.ref_count - 1 := by omega
    refine h.replace hi { n with ref_count := n.ref_count - 1 } rfl rfl rfl (fun _ _ => rfl) (h.seen i n hi)
      (h.clean i n hi) (fun _ _ => rfl) ?_ (fun _ _ => hcached) (fun _ _ => hmore) (fun _ => hused)
    intro j hj
    have hji : some j = some i := hj.symm.trans hcached
    exact ⟨Option.some.inj hji, hused, hmore⟩

end Steps

/-- A step under the condition keeps the invariant. -/
theorem nodeStep_inv (s : NodeState) (act : NodeAction) (t : NodeState) (hs : NodeInv s) (hok : Settled s act)
    (h : nodeStep s act = some t) : NodeInv t := by
  cases act with
  | read id => exact hs.vfsSuperReadNode hok h
  | new id =>
    simp only [nodeStep] at h
    split_ifs at h
    cases h
    exact ⟨hs.root, hs.unique, hs.seen, hs.stored, hs.clean, hs.cached, hs.found, hs.refs⟩
  | change i m =>
    obtain ⟨n, hn, h⟩ := Option.bind_eq_some_iff.mp h
    split_ifs at h
    cases h
    exact hs.change hn m
  | close i =>
    obtain ⟨n, hn, h⟩ := Option.bind_eq_some_iff.mp h
    split_ifs at h with hcan
    cases h
    exact hs.vfsCacheCloseNode hn hcan.1 hcan.2
  | trunc i =>
    obtain ⟨n, hn, h⟩ := Option.bind_eq_some_iff.mp h
    split_ifs at h with hcan
    cases h
    have hadvanced := hs.advance hn (p := .truncated) (by rw [hcan.1]; simp) (by simp)
    have hnode : (s.setNode i (some { n with phase := .truncated })).node i = some { n with phase := .truncated } :=
      node_set_self hn
    have hchanged := hadvanced.change hnode n.data.truncated
    have hset : (s.setNode i (some { n with phase := .truncated })).change i { n with phase := .truncated }
        n.data.truncated = s.change i { n with phase := .truncated } n.data.truncated := by
      simp only [NodeState.change, NodeState.setNode, List.set_set]
    rwa [hset] at hchanged
  | free i =>
    obtain ⟨n, hn, h⟩ := Option.bind_eq_some_iff.mp h
    split_ifs at h with hphase
    cases h
    have := hs.advance hn (p := .freed) (by rw [hphase]; simp) (by simp)
    exact ⟨this.root, this.unique, this.seen, this.stored, this.clean, this.cached, this.found, this.refs⟩
  | write i =>
    obtain ⟨n, hn, h⟩ := Option.bind_eq_some_iff.mp h
    obtain ⟨hphase, h⟩ := Option.ite_none_right_eq_some.mp h
    cases h
    refine hs.write hn ?_ (fun hdirty => hok n hn hdirty)
    rcases hphase with hphase | ⟨hphase, -⟩
    · rw [hphase]
      simp
    · rw [hphase]
      simp

theorem nodeInv_mounted (device : ℕ → Metadata) (imap : ℕ → Bool) (root : ℕ) :
    NodeInv (mounted device imap root) := by
  have hnode : ∀ i n, (mounted device imap root).node i = some n → i = 0 ∧ n = ⟨root, device root, false, 0, .used⟩ := by
    intro i n hn
    have hlt := lt_length_of_node hn
    obtain rfl : i = 0 := by simpa [mounted] using hlt
    exact ⟨rfl, (Option.some.inj hn).symm⟩
  refine ⟨⟨_, rfl, rfl⟩, ?_, ?_, fun _ _ => rfl, ?_, fun _ _ hc => (by cases hc), ?_, ?_⟩
  · intro i j n m hn hm _
    rw [(hnode i n hn).1, (hnode j m hm).1]
  · intro i n hn
    rw [(hnode i n hn).2]
    rfl
  · intro i n hn _
    rw [(hnode i n hn).2]
    rfl
  · intro i n hn _ hpos
    rw [(hnode i n hn).2] at hpos
    exact absurd hpos (lt_irrefl 0)
  · intro i n hn _ hi
    exact absurd (hnode i n hn).1 hi

theorem NodeInv.current {s : NodeState} (h : NodeInv s) : NodesCurrent s := by
  refine ⟨h.unique, h.seen, h.stored, fun id i hi => ?_⟩
  obtain ⟨n, hn, hid, -⟩ := h.cached id i hi
  exact ⟨n, hn, hid⟩

/-- While no inode is read before it is written back, no update of an inode is lost. -/
theorem runs_nodes_current (device : ℕ → Metadata) (imap : ℕ → Bool) (root : ℕ) (acts : List NodeAction)
    (s : NodeState) (hr : Runs nodeStep Settled (mounted device imap root) acts s) : NodesCurrent s :=
  (hr.invariant nodeStep_inv (nodeInv_mounted device imap root)).current

instance (s : NodeState) (act : NodeAction) : Decidable (Settled s act) := by
  unfold Settled
  cases act <;> infer_instance

/-- A file is created, linked and closed, and then opened, unlinked and closed; its inode is used again. -/
def fileLife : List NodeAction :=
  [.new 2, .read 2, .change 1 { nlinks := 1 }, .close 1, .write 1, .read 2, .change 2 { nlinks := 0 }, .close 2,
    .trunc 2, .free 2, .new 2, .write 2, .read 2]

def usedInodes (id : ℕ) : Bool := decide (id < 2)

theorem runs_nodes_current_file : ∃ s, Runs nodeStep Settled (mounted (fun _ => {}) usedInodes 1) fileLife s ∧
    NodesCurrent s ∧ (s.node 3).isSome := by
  obtain ⟨s, hs⟩ : ∃ s, execOk nodeStep Settled (mounted (fun _ => {}) usedInodes 1) fileLife = some s :=
    Option.isSome_iff_exists.mp (by decide)
  have hr := Runs.of_execOk hs
  have hnode : (execOk nodeStep Settled (mounted (fun _ => {}) usedInodes 1) fileLife).map (fun s => (s.node 3).isSome) =
      some true := by decide
  rw [hs] at hnode
  exact ⟨s, hr, runs_nodes_current _ _ _ _ s hr, Option.some.inj hnode⟩

/-- An inode is read between the last close and the write of its last version, which has another mode. -/
theorem nodes_not_current : ¬∀ (device : ℕ → Metadata) (imap : ℕ → Bool) (root : ℕ) (acts : List NodeAction)
    (s : NodeState), Runs nodeStep (fun _ _ => True) (mounted device imap root) acts s → NodesCurrent s := by
  intro h
  obtain ⟨s, hs⟩ : ∃ s, exec nodeStep (mounted (fun _ => { mode := 0o100644, nlinks := 1 }) (fun id => decide (id < 3)) 1)
      [.read 2, .change 1 { mode := 0o100600, nlinks := 1 }, .close 1, .read 2] = some s := ⟨_, rfl⟩
  have hunique := (h _ _ _ _ s (Runs.of_exec hs (fun _ _ _ => trivial))).unique
  cases hs
  have := hunique 1 2 _ _ rfl rfl rfl
  cases this

end SomeOs.Vfs
