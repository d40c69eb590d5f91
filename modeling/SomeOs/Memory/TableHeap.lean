import SomeOs.Base.NodeTree
import SomeOs.Memory.PageTable

/-! # Page tables in memory

Here the table pages are frames of memory and a branch is an entry with the frame number of
another table page, so that a table page can be shared, lost or used after its release. A page
that is allocated comes from the list of free frames, and a failed assertion has no result.
-/
namespace SomeOs.TableHeap
open Paging NodeTree

structure TableMem where
  entries : ℕ → ℕ → PageTableEntry
  free : List ℕ

@[irreducible] def pageTableSize : ℕ := 512

def branch (e : PageTableEntry) : Option ℕ := if e.v && !e.rwx then some e.paddr else none

abbrev tables (m : TableMem) (n f : ℕ) : List ℕ := below branch pageTableSize m.entries n f

abbrev allTables (m : TableMem) (n f : ℕ) : List ℕ := nodes branch pageTableSize m.entries n f

def TableMem.store (m : TableMem) (f i : ℕ) (e : PageTableEntry) : TableMem where
  entries := fun g j => if g = f ∧ j = i then e else m.entries g j
  free := m.free

def createPageTable (m : TableMem) : Option (ℕ × TableMem) :=
  match m.free with
  | [] => none
  | p :: free => some (p, { entries := fun g j => if g = p then {} else m.entries g j, free := free })

def deallocPage (m : TableMem) (f : ℕ) : TableMem := { m with free := f :: m.free }

/-- The last store of `mapPage`, to an entry that must be a leaf or invalid. -/
def storeLeaf (m : TableMem) (f i : ℕ) (new : PageTableEntry) : Option TableMem :=
  if !(m.entries f i).v || (m.entries f i).rwx then some (m.store f i new) else none

/-- The loop of `mapPage` from a table of level `n` down to the given level. -/
def mapPageAt (vaddr : ℕ) (new : PageTableEntry) (level : ℕ) : ℕ → ℕ → TableMem → Option TableMem
  | 0, f, m => storeLeaf m f (vpn 0 vaddr) new
  | n + 1, f, m =>
    let i := vpn (n + 1) vaddr
    let entry := m.entries f i
    if n + 1 ≤ level then storeLeaf m f i new
    else if entry.v then
      -- this must not be a leaf node
      if entry.rwx then none else mapPageAt vaddr new level n entry.paddr m
    else (createPageTable m).bind fun r =>
      mapPageAt vaddr new level n r.1 (r.2.store f i { v := true, paddr := r.1 })

/-- The entry that `mapPage` writes. The frame number has 44 bits. -/
def leafEntry (paddr : ℕ) (bits : PageEntryBits) : PageTableEntry :=
  { bits with v := true, paddr := paddr / pageSize % 2 ^ 44 }

def mapPage (m : TableMem) (root vaddr paddr : ℕ) (bits : PageEntryBits) (level : ℕ) : Option TableMem :=
  -- one of RWX bits must be set
  if bits.rwx then mapPageAt vaddr (leafEntry paddr bits) level 2 root m else none

def tryToFreeTable (m : TableMem) (f : ℕ) : Bool × TableMem :=
  if (List.range pageTableSize).any fun i => (m.entries f i).v then (false, m) else (true, deallocPage m f)

/-- `unmapPage` below a table of level `n`. The flag says that an entry of this table is now
zero, so that the source goes on to free the table. -/
def unmapPageAt (vaddr : ℕ) : ℕ → ℕ → TableMem → Option (Bool × TableMem)
  | 0, f, m =>
    let entry := m.entries f (vpn 0 vaddr)
    if entry.v then
      if entry.rwx then some (true, m.store f (vpn 0 vaddr) {}) else none
    else some (false, m)
  | n + 1, f, m =>
    let i := vpn (n + 1) vaddr
    let entry := m.entries f i
    if entry.v then
      if entry.rwx then some (true, m.store f i {})
      else
        match unmapPageAt vaddr n entry.paddr m with
        | some (true, m) =>
          match tryToFreeTable m entry.paddr with
          | (true, m) => some (true, m.store f i {})
          | (false, m) => some (false, m)
        | some (false, m) => some (false, m)
        | none => none
    else some (false, m)

def unmapPage (m : TableMem) (root vaddr : ℕ) : Option TableMem := (unmapPageAt vaddr 2 root m).map Prod.snd

def virtToEntryAt (m : TableMem) : ℕ → ℕ → ℕ → Option PageTableEntry
  | 0, f, vaddr =>
    let entry := m.entries f (vpn 0 vaddr)
    if entry.v && entry.rwx then some entry else none
  | n + 1, f, vaddr =>
    let entry := m.entries f (vpn (n + 1) vaddr)
    if entry.v then
      if entry.rwx then some entry else virtToEntryAt m n entry.paddr vaddr
    else none

def virtToEntry (m : TableMem) (root vaddr : ℕ) : Option PageTableEntry := virtToEntryAt m 2 root vaddr

def levelSize (level : ℕ) : ℕ := pageSize * 2 ^ (9 * level)

/-- The frame number is shifted as the bit field of 44 bits that it is. -/
def leafAddress (level : ℕ) (entry : PageTableEntry) (vaddr : ℕ) : ℕ :=
  entry.paddr * pageSize % 2 ^ 44 / levelSize level * levelSize level + vaddr % levelSize level

def unsafeVirtToPhysAt (m : TableMem) : ℕ → ℕ → ℕ → ℕ
  | 0, f, vaddr =>
    let entry := m.entries f (vpn 0 vaddr)
    if entry.v && entry.rwx then leafAddress 0 entry vaddr else 0
  | n + 1, f, vaddr =>
    let entry := m.entries f (vpn (n + 1) vaddr)
    if entry.v then
      if entry.rwx then leafAddress (n + 1) entry vaddr else unsafeVirtToPhysAt m n entry.paddr vaddr
    else 0

def unsafeVirtToPhys (m : TableMem) (root vaddr : ℕ) : ℕ := unsafeVirtToPhysAt m 2 root vaddr

/-- The leaf found for an address below a table, with its level. -/
def walk (m : TableMem) : ℕ → ℕ → ℕ → Option (ℕ × PageTableEntry)
  | 0, f, vaddr =>
    let entry := m.entries f (vpn 0 vaddr)
    if entry.v && entry.rwx then some (0, entry) else none
  | n + 1, f, vaddr =>
    let entry := m.entries f (vpn (n + 1) vaddr)
    if entry.v then
      if entry.rwx then some (n + 1, entry) else walk m n entry.paddr vaddr
    else none

variable {m m' m'' : TableMem} {n f g i level vaddr va : ℕ} {e new : PageTableEntry}

section Store

@[simp] theorem store_self (m : TableMem) (f i : ℕ) (e : PageTableEntry) : (m.store f i e).entries f i = e := if_pos ⟨rfl, rfl⟩

theorem store_slot {j : ℕ} (m : TableMem) (f g : ℕ) (e : PageTableEntry) (h : j ≠ i) :
    (m.store f i e).entries g j = m.entries g j := if_neg fun hc => h hc.2

theorem store_table (m : TableMem) (i : ℕ) (e : PageTableEntry) (h : g ≠ f) :
    (m.store f i e).entries g = m.entries g := by
  funext j
  exact if_neg fun hc => h hc.1

@[simp] theorem store_free (m : TableMem) (f i : ℕ) (e : PageTableEntry) : (m.store f i e).free = m.free := rfl

end Store

section Walk

theorem walk_zero (m : TableMem) (f va : ℕ) : walk m 0 f va =
    if (m.entries f (vpn 0 va)).v && (m.entries f (vpn 0 va)).rwx then some (0, m.entries f (vpn 0 va)) else none := rfl

theorem walk_succ (m : TableMem) (n f va : ℕ) : walk m (n + 1) f va =
    if (m.entries f (vpn (n + 1) va)).v then
      if (m.entries f (vpn (n + 1) va)).rwx then some (n + 1, m.entries f (vpn (n + 1) va))
      else walk m n (m.entries f (vpn (n + 1) va)).paddr va
    else none := rfl

theorem virtToEntryAt_eq_walk (m : TableMem) (n f vaddr : ℕ) :
    virtToEntryAt m n f vaddr = (walk m n f vaddr).map Prod.snd := by
  induction n generalizing f with
  | zero =>
    simp only [virtToEntryAt, walk_zero]
    split_ifs <;> rfl
  | succ n ih =>
    simp only [virtToEntryAt, walk_succ]
    split_ifs
    · rfl
    · exact ih _
    · rfl

theorem unsafeVirtToPhysAt_eq_walk (m : TableMem) (n f vaddr : ℕ) :
    unsafeVirtToPhysAt m n f vaddr = match walk m n f vaddr with
      | some p => leafAddress p.1 p.2 vaddr
      | none => 0 := by
  induction n generalizing f with
  | zero =>
    simp only [unsafeVirtToPhysAt, walk_zero]
    split_ifs <;> rfl
  | succ n ih =>
    simp only [unsafeVirtToPhysAt, walk_succ]
    split_ifs
    · rfl
    · exact ih _
    · rfl

theorem branch_of_leaf (h : e.v = false ∨ e.rwx = true) : branch e = none := by
  rcases h with h | h <;> simp [branch, h]

theorem branch_of_table (hv : e.v = true) (hx : e.rwx = false) : branch e = some e.paddr := by
  simp [branch, hv, hx]

theorem branch_eq_some : branch e = some g ↔ e.v = true ∧ e.rwx = false ∧ e.paddr = g := by
  simp [branch, and_assoc]

theorem walk_invalid (h : (m.entries f (vpn n va)).v = false) : walk m n f va = none := by
  cases n <;> simp [walk_zero, walk_succ, h]

theorem walk_leaf (hv : (m.entries f (vpn n va)).v = true) (hx : (m.entries f (vpn n va)).rwx = true) :
    walk m n f va = some (n, m.entries f (vpn n va)) := by
  cases n <;> simp [walk_zero, walk_succ, hv, hx]

theorem walk_branch (h : branch (m.entries f (vpn (n + 1) va)) = some g) : walk m (n + 1) f va = walk m n g va := by
  obtain ⟨hv, hx, rfl⟩ := branch_eq_some.mp h
  simp [walk_succ, hv, hx]

theorem vpn_lt (level vaddr : ℕ) : vpn level vaddr < pageTableSize := by
  rw [vpn, pageTableSize]
  exact Nat.mod_lt _ (by norm_num)

theorem walk_congr (h : ∀ g ∈ allTables m n f, m'.entries g = m.entries g) : walk m' n f va = walk m n f va := by
  induction n generalizing f with
  | zero => simp only [walk_zero, h f List.mem_cons_self]
  | succ n ih =>
    simp only [walk_succ, h f List.mem_cons_self]
    split_ifs with hv hx
    · rfl
    · have hx : (m.entries f (vpn (n + 1) va)).rwx = false := by simpa using hx
      refine ih fun g hg => h g (List.mem_cons_of_mem _ ?_)
      exact nodes_subset (vpn_lt _ _) (branch_of_table hv hx) hg
    · rfl

theorem walk_level {p : ℕ × PageTableEntry} (h : walk m n f va = some p) : p.1 ≤ n ∧ p.2.v = true ∧ p.2.rwx = true := by
  induction n generalizing f with
  | zero =>
    simp only [walk_zero, Option.ite_none_right_eq_some, Option.some.injEq, Bool.and_eq_true] at h
    obtain ⟨⟨hv, hx⟩, rfl⟩ := h
    exact ⟨le_rfl, hv, hx⟩
  | succ n ih =>
    simp only [walk_succ] at h
    split_ifs at h with hv hx
    · cases h
      exact ⟨le_rfl, hv, hx⟩
    · obtain ⟨hl, hp⟩ := ih h
      exact ⟨by omega, hp⟩

end Walk

section Edited

/-- Every page is one table page of the tree or free, and tables of level zero have no branches. -/
structure Tidy (m : TableMem) (n f : ℕ) : Prop where
  nodup : (allTables m n f ++ m.free).Nodup
  bounded : Bounded branch pageTableSize m.entries n f

theorem Tidy.tree (ht : Tidy m n f) : (allTables m n f).Nodup := (List.nodup_append.mp ht.nodup).1

theorem Tidy.apart (ht : Tidy m n f) (hg : g ∈ allTables m n f) : g ∉ m.free :=
  fun hfree => (List.nodup_append.mp ht.nodup).2.2 g hg g hfree rfl

theorem Tidy.child (ht : Tidy m (n + 1) f) (hi : i < pageTableSize) (hg : branch (m.entries f i) = some g) :
    Tidy m n g where
  nodup := by
    obtain ⟨-, hfree, hapart⟩ := List.nodup_append.mp ht.nodup
    refine List.nodup_append.mpr ⟨(nodup_child ht.tree hi hg).1, hfree, fun x hx => hapart x ?_⟩
    exact List.mem_cons_of_mem _ (nodes_subset hi hg hx)
  bounded := ht.bounded i hi g hg

/-- Pages move between the tree and the free frames, and no other table page is written. -/
structure Edited (m m' : TableMem) (n f : ℕ) : Prop where
  perm : (tables m' n f ++ m'.free).Perm (tables m n f ++ m.free)
  same : ∀ g, g ∉ allTables m n f → g ∉ m.free → m'.entries g = m.entries g
  bounded : Bounded branch pageTableSize m'.entries n f

theorem Edited.refl (ht : Tidy m n f) : Edited m m n f := ⟨.refl _, fun _ _ _ => rfl, ht.bounded⟩

theorem Edited.all_perm (h : Edited m m' n f) : (allTables m' n f ++ m'.free).Perm (allTables m n f ++ m.free) :=
  h.perm.cons f

theorem Edited.tidy (h : Edited m m' n f) (ht : Tidy m n f) : Tidy m' n f :=
  ⟨h.all_perm.nodup_iff.mpr ht.nodup, h.bounded⟩

theorem Edited.trans (h : Edited m m' n f) (h' : Edited m' m'' n f) : Edited m m'' n f where
  perm := h'.perm.trans h.perm
  same g hg hfree := by
    have hout : g ∉ allTables m' n f ++ m'.free := by
      rw [h.all_perm.mem_iff, List.mem_append]
      tauto
    rw [List.mem_append, not_or] at hout
    rw [h'.same g hout.1 hout.2, h.same g hg hfree]
  bounded := h'.bounded

theorem Edited.own (h : Edited m m' n g) (ht : Tidy m (n + 1) f) (hi : i < pageTableSize)
    (hg : branch (m.entries f i) = some g) : m'.entries f = m.entries f :=
  h.same f (nodup_child ht.tree hi hg).2 (ht.apart List.mem_cons_self)

theorem Edited.slotOnly (h : Edited m m' n g) (ht : Tidy m (n + 1) f) (hi : i < pageTableSize)
    (hg : branch (m.entries f i) = some g) : SlotOnly branch pageTableSize m.entries m'.entries n f i where
  self j _ := by rw [h.own ht hi hg]
  other x hx hout := by
    rw [hang_some hg] at hout
    exact h.same x hout (ht.apart (List.mem_cons_of_mem _ hx))

theorem Edited.up (h : Edited m m' n g) (ht : Tidy m (n + 1) f) (hi : i < pageTableSize)
    (hg : branch (m.entries f i) = some g) : Edited m m' (n + 1) f := by
  have hown := h.own ht hi hg
  have hg' : branch (m'.entries f i) = some g := by rw [hown, hg]
  have hslot := h.slotOnly ht hi hg
  refine ⟨?_, ?_, ?_⟩
  · obtain ⟨l, r, hl, hl'⟩ := hslot.below ht.tree hi
    rw [tables, tables, hl, hl', hang_some hg, hang_some hg', nodes, nodes]
    have hcount := List.perm_iff_count.mp h.perm
    apply List.perm_iff_count.mpr
    intro x
    have hx := hcount x
    simp only [tables, List.count_append, List.count_cons] at hx ⊢
    omega
  · intro x hx hfree
    refine h.same x (fun hin => hx ?_) hfree
    exact List.mem_cons_of_mem _ (nodes_subset hi hg hin)
  · apply hslot.bounded ht.tree hi ht.bounded
    intro y hy
    rw [hg', Option.some.injEq] at hy
    rw [← hy]
    exact h.bounded

theorem store_slotOnly (m : TableMem) (ht : Tidy m (n + 1) f) (e : PageTableEntry) :
    SlotOnly branch pageTableSize m.entries (m.store f i e).entries n f i where
  self _ hj := store_slot m f f e hj
  other _ hx _ := store_table m i e (ne_of_mem_below ht.tree hx)

/-- A store that neither removes nor adds a branch. -/
theorem Edited.store (ht : Tidy m n f) (hi : i < pageTableSize) (h : branch (m.entries f i) = none)
    (he : branch e = none) : Edited m (m.store f i e) n f := by
  have hself : branch ((m.store f i e).entries f i) = none := by rw [store_self, he]
  refine ⟨?_, ?_, ?_⟩
  · cases n with
    | zero => exact .refl _
    | succ n =>
      obtain ⟨l, r, hl, hl'⟩ := (store_slotOnly m ht e).below ht.tree hi
      rw [tables, tables, hl, hl', hang_none h, hang_none hself]
      exact .refl _
  · intro x hx _
    exact store_table m i e fun heq => hx (heq ▸ List.mem_cons_self)
  · cases n with
    | zero =>
      intro j hj
      by_cases hne : j = i
      · rw [hne, hself]
      · rw [store_slot m f f e hne]
        exact ht.bounded j hj
    | succ n =>
      apply (store_slotOnly m ht e).bounded ht.tree hi ht.bounded
      intro y hy
      rw [hself] at hy
      cases hy

/-- A new table page `p` without entries hangs under a slot that was invalid or a leaf. -/
structure Grown (m m' : TableMem) (n f i p : ℕ) : Prop where
  free : m.free = p :: m'.free
  slot : branch (m'.entries f i) = some p
  empty : ∀ j, m'.entries p j = {}
  slotOnly : SlotOnly branch pageTableSize m.entries m'.entries n f i
  edited : Edited m m' (n + 1) f

theorem createPageTable_grown {p : ℕ} (ht : Tidy m (n + 1) f) (hi : i < pageTableSize)
    (h : branch (m.entries f i) = none) (hm : createPageTable m = some (p, m')) :
    Grown m (m'.store f i { v := true, paddr := p }) n f i p := by
  obtain ⟨free, hfree, hm'⟩ : ∃ free, m.free = p :: free ∧
      m' = { entries := fun g j => if g = p then {} else m.entries g j, free := free } := by
    simp only [createPageTable] at hm
    split at hm
    · cases hm
    · rename_i q free heq
      cases hm
      exact ⟨free, heq, rfl⟩
  have hpfree : p ∈ m.free := by simp [hfree]
  have hout : ∀ x ∈ allTables m (n + 1) f, x ≠ p := fun x hx heq => ht.apart hx (heq ▸ hpfree)
  have hpf : p ≠ f := (hout f List.mem_cons_self).symm
  set m₂ := m'.store f i { v := true, paddr := p } with hm₂
  have hkeep : ∀ x, x ≠ f → x ≠ p → m₂.entries x = m.entries x := by
    intro x hf hp
    rw [hm₂, store_table m' i _ hf, hm']
    funext j
    exact if_neg hp
  have hempty : ∀ j, m₂.entries p j = {} := by
    intro j
    rw [hm₂, store_table m' i _ hpf, hm']
    exact if_pos rfl
  have hnone : ∀ j < pageTableSize, branch (m₂.entries p j) = none := by
    intro j _
    rw [hempty]
    rfl
  have hbranch : branch (m₂.entries f i) = some p := by
    rw [hm₂, store_self]
    rfl
  have hslot : SlotOnly branch pageTableSize m.entries m₂.entries n f i := by
    constructor
    · intro j hj
      rw [hm₂, store_slot m' f f _ hj, hm']
      exact if_neg hpf.symm
    · intro x hx _
      exact hkeep x (ne_of_mem_below ht.tree hx) (hout x (List.mem_cons_of_mem _ hx))
  have hfree₂ : m₂.free = free := by rw [hm₂, store_free, hm']
  refine ⟨by rw [hfree, hfree₂], hbranch, hempty, hslot, ?_, ?_, ?_⟩
  · obtain ⟨l, r, hl, hl'⟩ := hslot.below ht.tree hi
    rw [tables, tables, hl, hl', hang_none h, hang_some hbranch, nodes, below_of_empty hnone, hfree, hfree₂]
    apply List.perm_iff_count.mpr
    intro x
    simp only [List.count_append, List.count_cons, List.count_nil]
    omega
  · intro x hx hxfree
    exact hkeep x (fun heq => hx (heq ▸ List.mem_cons_self)) fun heq => hxfree (heq ▸ hpfree)
  · apply hslot.bounded ht.tree hi ht.bounded
    intro y hy
    rw [hbranch, Option.some.injEq] at hy
    rw [← hy]
    exact bounded_of_empty hnone

/-- An empty table page is given back and its entry cleared. -/
theorem Edited.release (ht : Tidy m (n + 1) f) (hi : i < pageTableSize) (hg : branch (m.entries f i) = some g)
    (hempty : ∀ j < pageTableSize, (m.entries g j).v = false) :
    Edited m ((deallocPage m g).store f i {}) (n + 1) f := by
  have hself : branch (((deallocPage m g).store f i {}).entries f i) = none := by
    rw [store_self]
    rfl
  have hslot : SlotOnly branch pageTableSize m.entries ((deallocPage m g).store f i {}).entries n f i :=
    store_slotOnly m ht {}
  refine ⟨?_, ?_, ?_⟩
  · obtain ⟨l, r, hl, hl'⟩ := hslot.below ht.tree hi
    have hnone : ∀ j < pageTableSize, branch (m.entries g j) = none := fun j hj => branch_of_leaf (.inl (hempty j hj))
    rw [tables, tables, hl, hl', hang_some hg, hang_none hself, nodes, below_of_empty hnone, store_free, deallocPage]
    apply List.perm_iff_count.mpr
    intro x
    simp only [List.count_append, List.count_cons, List.count_nil]
    omega
  · intro x hx _
    exact store_table m i {} fun heq => hx (heq ▸ List.mem_cons_self)
  · apply hslot.bounded ht.tree hi ht.bounded
    intro y hy
    rw [hself] at hy
    cases hy

end Edited

section Translation

theorem walk_other (hc : SlotOnly branch pageTableSize m.entries m'.entries n f i) (ht : Tidy m (n + 1) f)
    (hi : i < pageTableSize) (hne : vpn (n + 1) va ≠ i) : walk m' (n + 1) f va = walk m (n + 1) f va := by
  have hself := hc.self _ hne
  cases hb : branch (m.entries f (vpn (n + 1) va)) with
  | none =>
    simp only [walk_succ, hself]
    split_ifs with hv hx
    · rfl
    · rw [branch_of_table hv (by simpa using hx)] at hb
      cases hb
    · rfl
  | some g =>
    rw [walk_branch hb, walk_branch (by rw [hself, hb])]
    exact walk_congr (hc.child_same ht.tree hi (vpn_lt _ _) hne hb)

theorem walk_store (ht : Tidy m n f) (hi : i < pageTableSize) (hne : vpn n va ≠ i) :
    walk (m.store f i e) n f va = walk m n f va := by
  cases n with
  | zero => simp only [walk_zero, store_slot m f f e hne]
  | succ n => exact walk_other (store_slotOnly m ht e) ht hi hne

theorem Grown.walk {p : ℕ} (h : Grown m m' n f i p) (ht : Tidy m (n + 1) f) (hi : i < pageTableSize)
    (hv : (m.entries f i).v = false) : walk m' (n + 1) f va = TableHeap.walk m (n + 1) f va := by
  by_cases hva : vpn (n + 1) va = i
  · have hempty : TableHeap.walk m' n p va = none := walk_invalid (by rw [h.empty])
    have hnone : TableHeap.walk m (n + 1) f va = none := walk_invalid (by rw [hva, hv])
    rw [walk_branch (by rw [hva, h.slot]), hempty, hnone]
  · exact walk_other h.slotOnly ht hi hva

def BranchAt (m : TableMem) (l : ℕ) : ℕ → ℕ → ℕ → Prop
  | 0, f, va => branch (m.entries f (vpn 0 va)) ≠ none
  | n + 1, f, va =>
    if n + 1 ≤ l then branch (m.entries f (vpn (n + 1) va)) ≠ none
    else ∃ g, branch (m.entries f (vpn (n + 1) va)) = some g ∧ BranchAt m l n g va

theorem not_branchAt {l : ℕ} (h : branch (m.entries f (vpn n va)) = none) : ¬BranchAt m l n f va := by
  cases n with
  | zero => exact fun hb => hb h
  | succ n =>
    simp only [BranchAt]
    split_ifs
    · exact fun hb => hb h
    · rintro ⟨g, hg, -⟩
      rw [h] at hg
      cases hg

theorem branchAt_congr {l : ℕ} (h : ∀ g ∈ allTables m n f, m'.entries g = m.entries g) :
    BranchAt m' l n f va ↔ BranchAt m l n f va := by
  induction n generalizing f with
  | zero => simp only [BranchAt, h f List.mem_cons_self]
  | succ n ih =>
    simp only [BranchAt, h f List.mem_cons_self]
    split_ifs
    · exact Iff.rfl
    · refine exists_congr fun g => and_congr_right fun hg => ih fun x hx => h x ?_
      exact List.mem_cons_of_mem _ (nodes_subset (vpn_lt _ _) hg hx)

theorem branchAt_other {l : ℕ} (hc : SlotOnly branch pageTableSize m.entries m'.entries n f i) (ht : Tidy m (n + 1) f)
    (hi : i < pageTableSize) (hne : vpn (n + 1) va ≠ i) : BranchAt m' l (n + 1) f va ↔ BranchAt m l (n + 1) f va := by
  simp only [BranchAt, hc.self _ hne]
  split_ifs
  · exact Iff.rfl
  · exact exists_congr fun g => and_congr_right fun hg =>
      branchAt_congr (hc.child_same ht.tree hi (vpn_lt _ _) hne hg)

theorem Tidy.not_branchAt_zero (ht : Tidy m n f) : ¬BranchAt m 0 n f va := by
  induction n generalizing f with
  | zero => exact not_branchAt (ht.bounded _ (vpn_lt _ _))
  | succ n ih =>
    rintro ⟨g, hg, hb⟩
    exact ih (ht.child (vpn_lt _ _) hg) hb

/-- The addresses agree in their table indices from a level up to that of a table. -/
def Covered (level n va vaddr : ℕ) : Prop := ∀ l, level ≤ l → l ≤ n → vpn l va = vpn l vaddr

theorem covered_succ (h : level ≤ n + 1) :
    Covered level (n + 1) va vaddr ↔ vpn (n + 1) va = vpn (n + 1) vaddr ∧ Covered level n va vaddr := by
  constructor
  · intro hc
    exact ⟨hc (n + 1) h le_rfl, fun l hl hn => hc l hl (by omega)⟩
  · rintro ⟨htop, hc⟩ l hl hn
    rcases Nat.lt_or_ge n l with hln | hln
    · rw [show l = n + 1 by omega]
      exact htop
    · exact hc l hl hln

theorem covered_self : Covered n n va vaddr ↔ vpn n va = vpn n vaddr := by
  constructor
  · intro hc
    exact hc n le_rfl le_rfl
  · intro h l hl hn
    rw [show l = n by omega, h]

def Filled (m : TableMem) (f : ℕ) : Prop := ∃ i < pageTableSize, (m.entries f i).v = true

theorem Filled.congr (h : Filled m f) (heq : m'.entries f = m.entries f) : Filled m' f := by
  obtain ⟨i, hi, hv⟩ := h
  exact ⟨i, hi, by rw [heq, hv]⟩

end Translation

end SomeOs.TableHeap
