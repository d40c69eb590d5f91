import SomeOs.Base.Transition
import SomeOs.Memory.TableEdits

/-! # Page tables as a partial map

A page map gives each page and superpage of a level its frame and bits. Along every sequence
of calls of `mapPage` and `unmapPage` on one root, the tables in memory and the page map
translate every address the same way, exactly when no page is mapped to a frame from `2^32` on.
-/
namespace SomeOs.TableHeap
open Paging NodeTree Transition

/-- The page or superpage of a level that an address lies in. Addresses count modulo `2^39`. -/
def pageNumber (level va : ℕ) : ℕ := va % 2 ^ 39 / levelSize level

abbrev PageMap := ℕ → ℕ → Option PageTableEntry

inductive TableOp where
  | map (vaddr paddr : ℕ) (bits : PageEntryBits) (level : ℕ)
  | unmap (vaddr : ℕ)

def step (root : ℕ) (m : TableMem) : TableOp → Option TableMem
  | .map vaddr paddr bits level => mapPage m root vaddr paddr bits level
  | .unmap vaddr => unmapPage m root vaddr

def Allowed (_ : TableMem) : TableOp → Prop
  | .map _ _ _ level => level ≤ 2
  | .unmap _ => True

/-- The frame and the bits that a page is mapped with, whatever an entry can hold. -/
def mappedEntry (paddr : ℕ) (bits : PageEntryBits) : PageTableEntry :=
  { bits with v := true, paddr := paddr / pageSize }

def mappedAddress (level : ℕ) (entry : PageTableEntry) (vaddr : ℕ) : ℕ :=
  entry.paddr * pageSize / levelSize level * levelSize level + vaddr % levelSize level

def PageMap.apply (A : PageMap) : TableOp → PageMap
  | .map vaddr paddr bits level => fun l p =>
    if l = level ∧ p = pageNumber level vaddr then some (mappedEntry paddr bits) else A l p
  | .unmap vaddr => fun l p => if p = pageNumber l vaddr then none else A l p

def PageMap.after (ops : List TableOp) : PageMap := ops.foldl PageMap.apply fun _ _ => none

def TableOp.Touches (A : PageMap) (va : ℕ) : TableOp → Prop
  | .map vaddr _ _ level => pageNumber level va = pageNumber level vaddr
  | .unmap vaddr => ∃ l, A l (pageNumber l vaddr) ≠ none ∧ pageNumber l va = pageNumber l vaddr

/-- The frame number has 44 bits in an entry. -/
def stored (e : PageTableEntry) : PageTableEntry := { e with paddr := e.paddr % 2 ^ 44 }

def PageMap.stored (A : PageMap) : PageMap := fun l p => (A l p).map TableHeap.stored

/-- Every mapped page has a physical address below `2^44`. -/
def Low (A : PageMap) : Prop := ∀ va l e, A l (pageNumber l va) = some e → e.paddr < 2 ^ 32

def Mappable (A : PageMap) (level vaddr : ℕ) : Prop :=
  ∀ va, pageNumber level va = pageNumber level vaddr → ∀ l, l ≠ level → A l (pageNumber l va) = none

variable {m m' : TableMem} {root level vaddr va : ℕ} {A : PageMap} {op : TableOp} {ops : List TableOp}
  {e : PageTableEntry}

section Stored

theorem stored_map (A : PageMap) (vaddr paddr level : ℕ) (bits : PageEntryBits) (l p : ℕ) :
    (A.apply (.map vaddr paddr bits level)).stored l p =
      if l = level ∧ p = pageNumber level vaddr then some (leafEntry paddr bits) else A.stored l p := by
  simp only [PageMap.stored, PageMap.apply]
  split_ifs <;> rfl

theorem stored_unmap (A : PageMap) (vaddr l p : ℕ) :
    (A.apply (.unmap vaddr)).stored l p = if p = pageNumber l vaddr then none else A.stored l p := by
  simp only [PageMap.stored, PageMap.apply]
  split_ifs <;> rfl

theorem stored_eq_none {l p : ℕ} : A.stored l p = none ↔ A l p = none := Option.map_eq_none_iff

theorem stored_low (h : e.paddr < 2 ^ 32) : stored e = e := by
  rw [stored, Nat.mod_eq_of_lt (h.trans (by norm_num))]

theorem Low.stored (h : Low A) (l : ℕ) (va : ℕ) : A.stored l (pageNumber l va) = A l (pageNumber l va) := by
  cases hA : A l (pageNumber l va) with
  | none => exact stored_eq_none.mpr hA
  | some e => rw [PageMap.stored, hA, Option.map_some, stored_low (h va l e hA)]

theorem leafAddress_low (h : e.paddr < 2 ^ 32) : leafAddress level e vaddr = mappedAddress level e vaddr := by
  rw [leafAddress, mappedAddress, Nat.mod_eq_of_lt]
  simp only [pageSize]
  omega

theorem levelSize_pos (level : ℕ) : 0 < levelSize level := Nat.mul_pos (by decide) (Nat.two_pow_pos _)

theorem levelSize_dvd_pow (hl : level ≤ 2) : levelSize level ∣ 2 ^ 44 := by
  rw [levelSize, show pageSize = 2 ^ 12 from rfl, ← pow_add]
  exact pow_dvd_pow 2 (by omega)

theorem leafAddress_lt (hl : level ≤ 2) : leafAddress level e vaddr < 2 ^ 44 := by
  obtain ⟨q, hq⟩ := levelSize_dvd_pow hl
  have hpos := levelSize_pos level
  have hdiv : e.paddr * pageSize % 2 ^ 44 / levelSize level < q := by
    rw [Nat.div_lt_iff_lt_mul hpos, Nat.mul_comm q, ← hq]
    exact Nat.mod_lt _ (by norm_num)
  have hoff := Nat.mod_lt vaddr hpos
  rw [leafAddress]
  calc _ < (e.paddr * pageSize % 2 ^ 44 / levelSize level + 1) * levelSize level := by
        rw [Nat.succ_mul]
        exact Nat.add_lt_add_left hoff _
    _ ≤ q * levelSize level := Nat.mul_le_mul_right _ hdiv
    _ = 2 ^ 44 := by rw [Nat.mul_comm, ← hq]

theorem le_mappedAddress (hl : level ≤ 2) (h : 2 ^ 32 ≤ e.paddr) : 2 ^ 44 ≤ mappedAddress level e vaddr := by
  have hle : 2 ^ 44 ≤ e.paddr * pageSize := by
    simp only [pageSize]
    omega
  rw [mappedAddress, ← Nat.div_mul_cancel (levelSize_dvd_pow hl)]
  exact (Nat.mul_le_mul_right _ (Nat.div_le_div_right hle)).trans (Nat.le_add_right _ _)

end Stored

theorem pageNumber_eq_iff (hl : level ≤ 2) :
    pageNumber level va = pageNumber level vaddr ↔ Covered level 2 va vaddr := by
  have htop : Covered 2 2 va vaddr ↔ vpn 2 va = vpn 2 vaddr := covered_self
  have hmid : Covered 1 2 va vaddr ↔ vpn 2 va = vpn 2 vaddr ∧ Covered 1 1 va vaddr := covered_succ (by norm_num)
  have hlow : Covered 0 2 va vaddr ↔ vpn 2 va = vpn 2 vaddr ∧ Covered 0 1 va vaddr := covered_succ (by norm_num)
  have hlow' : Covered 0 1 va vaddr ↔ vpn 1 va = vpn 1 vaddr ∧ Covered 0 0 va vaddr := covered_succ (by norm_num)
  rw [covered_self] at hmid hlow'
  simp only [vpn, Nat.reduceMul, Nat.reduceAdd, Nat.reducePow] at htop hmid hlow hlow'
  interval_cases level
  · rw [hlow, hlow', pageNumber, pageNumber, levelSize]
    simp only [pageSize, Nat.reduceMul, Nat.reducePow]
    omega
  · rw [hmid, pageNumber, pageNumber, levelSize]
    simp only [pageSize, Nat.reduceMul, Nat.reducePow]
    omega
  · rw [htop, pageNumber, pageNumber, levelSize]
    simp only [pageSize, Nat.reduceMul, Nat.reducePow]
    omega

section Refinement

def Refines (root : ℕ) (m : TableMem) (A : PageMap) : Prop :=
  ∀ va l e, walk m 2 root va = some (l, e) ↔ A l (pageNumber l va) = some e

structure Good (root : ℕ) (m : TableMem) (A : PageMap) : Prop where
  refines : Refines root m A.stored
  tidy : Tidy m 2 root
  filled : ∀ x ∈ tables m 2 root, Filled m x

theorem Refines.le_two (h : Refines root m A) {l : ℕ} {e : PageTableEntry} (hA : A l (pageNumber l va) = some e) : l ≤ 2 :=
  (walk_level ((h va l e).mpr hA)).1

theorem mapped_refines {paddr : ℕ} {bits : PageEntryBits} (h : Refines root m A.stored) (hl : level ≤ 2)
    (hm : Mapped vaddr (leafEntry paddr bits) level m m' 2 root) :
    Refines root m' (A.apply (.map vaddr paddr bits level)).stored := by
  intro va l e
  rw [stored_map]
  by_cases hva : Covered level 2 va vaddr
  · rw [hm.inside va hva, Option.some.injEq, Prod.mk.injEq]
    by_cases hlev : l = level
    · subst hlev
      rw [if_pos ⟨rfl, (pageNumber_eq_iff hl).mpr hva⟩, Option.some.injEq]
      exact and_iff_right rfl
    · rw [if_neg fun hc => hlev hc.1, ← h va l e]
      constructor
      · rintro ⟨heq, -⟩
        exact absurd heq.symm hlev
      · intro hw
        exact absurd (hm.before va hva _ hw) hlev
  · rw [hm.outside va hva, h va l e, if_neg]
    rintro ⟨rfl, heq⟩
    exact hva ((pageNumber_eq_iff hl).mp heq)

theorem unmapped_refines {cleared : Bool} (h : Refines root m A.stored) (hm : Unmapped vaddr cleared m m' 2 root) :
    Refines root m' (A.apply (.unmap vaddr)).stored := by
  intro va l e
  rw [stored_unmap]
  by_cases hpage : ∃ p, walk m 2 root vaddr = some p ∧ Covered p.1 2 va vaddr
  · obtain ⟨⟨l₀, e₀⟩, hw, hva⟩ := hpage
    rw [hm.inside _ hw va hva]
    refine ⟨fun hc => (by cases hc), fun hA => ?_⟩
    exfalso
    split_ifs at hA with hne
    have hnum := (pageNumber_eq_iff (walk_level hw).1).mpr hva
    have hw₀ : walk m 2 root va = some (l₀, e₀) := by
      rw [h, hnum]
      exact (h vaddr l₀ e₀).mp hw
    rw [← h, hw₀] at hA
    cases hA
    exact hne hnum
  · have hout : ∀ p, walk m 2 root vaddr = some p → ¬Covered p.1 2 va vaddr := fun p hp hc => hpage ⟨p, hp, hc⟩
    rw [hm.outside va hout, h va l e]
    split_ifs with heq
    · constructor
      · intro hA
        have hlevel := h.le_two hA
        rw [heq, ← h] at hA
        exact absurd ((pageNumber_eq_iff hlevel).mp heq) (hout _ hA)
      · intro hA
        cases hA
    · exact Iff.rfl

theorem mapPage_mapped {paddr : ℕ} {bits : PageEntryBits} (ht : Tidy m 2 root) (hl : level ≤ 2)
    (h : mapPage m root vaddr paddr bits level = some m') : Mapped vaddr (leafEntry paddr bits) level m m' 2 root := by
  simp only [mapPage, Option.ite_none_right_eq_some] at h
  exact mapPageAt_mapped ht hl rfl h.1 h.2

theorem unmapPage_unmapped (vaddr : ℕ) (ht : Tidy m 2 root) :
    ∃ cleared m', unmapPage m root vaddr = some m' ∧ Unmapped vaddr cleared m m' 2 root := by
  obtain ⟨cleared, m', hm', h⟩ := unmapPageAt_unmapped vaddr ht
  exact ⟨cleared, m', by rw [unmapPage, hm', Option.map_some], h⟩

theorem Good.next (h : Good root m A) (hok : Allowed m op) (hs : step root m op = some m') : Good root m' (A.apply op) := by
  cases op with
  | map vaddr paddr bits level =>
    have hm := mapPage_mapped h.tidy hok hs
    refine ⟨mapped_refines h.refines hok hm, hm.toEdited.tidy h.tidy, fun x hx => ?_⟩
    rcases hm.kept x hx with hfilled | ⟨hold, hsame⟩
    · exact hfilled
    · exact (h.filled x hold).congr hsame
  | unmap vaddr =>
    obtain ⟨cleared, m₁, hm₁, hm⟩ := unmapPage_unmapped vaddr h.tidy
    rw [step, hm₁, Option.some.injEq] at hs
    subst hs
    refine ⟨unmapped_refines h.refines hm, hm.toEdited.tidy h.tidy, fun x hx => ?_⟩
    rcases hm.kept x hx with hfilled | ⟨hold, hsame⟩
    · exact hfilled
    · exact (h.filled x hold).congr hsame

theorem Good.run (h : Good root m A) (hr : Runs (step root) Allowed m ops m') :
    Good root m' (ops.foldl PageMap.apply A) := by
  induction hr generalizing A with
  | nil => exact h
  | cons hok hstep _ ih => exact ih (h.next hok hstep)

/-- A page fresh from the allocator is a root without mappings. -/
theorem createPageTable_good (hfree : m.free.Nodup) (h : createPageTable m = some (root, m')) :
    Good root m' fun _ _ => none := by
  obtain ⟨hempty, hlist⟩ : (∀ j, m'.entries root j = {}) ∧ m.free = root :: m'.free := by
    simp only [createPageTable] at h
    split at h
    · cases h
    · rename_i q free heq
      cases h
      exact ⟨fun j => if_pos rfl, heq⟩
  have hnone : ∀ j < pageTableSize, branch (m'.entries root j) = none := by
    intro j _
    rw [hempty]
    rfl
  refine ⟨?_, ⟨?_, bounded_of_empty hnone⟩, ?_⟩
  · intro va l e
    rw [walk_invalid (by rw [hempty])]
    constructor <;> intro hc <;> cases hc
  · rw [allTables, nodes, below_of_empty hnone, List.singleton_append, ← hlist]
    exact hfree
  · intro x hx
    rw [tables, below_of_empty hnone] at hx
    cases hx

end Refinement

section Calls

structure Translates (root : ℕ) (m : TableMem) (A : PageMap) : Prop where
  entry : ∀ va e, virtToEntry m root va = some e ↔ ∃ l ≤ 2, A l (pageNumber l va) = some e
  phys : ∀ va l e, A l (pageNumber l va) = some e → unsafeVirtToPhys m root va = mappedAddress l e va
  unmapped : ∀ va, (∀ l ≤ 2, A l (pageNumber l va) = none) → virtToEntry m root va = none ∧ unsafeVirtToPhys m root va = 0

theorem Good.phys (h : Good root m A) {l : ℕ} (hA : A l (pageNumber l va) = some e) :
    l ≤ 2 ∧ unsafeVirtToPhys m root va = leafAddress l (stored e) va := by
  have hw : walk m 2 root va = some (l, stored e) := by rw [h.refines, PageMap.stored, hA, Option.map_some]
  exact ⟨(walk_level hw).1, by rw [unsafeVirtToPhys, unsafeVirtToPhysAt_eq_walk, hw]⟩

theorem Good.unmapped (h : Good root m A) (hnone : ∀ l ≤ 2, A l (pageNumber l va) = none) :
    virtToEntry m root va = none ∧ unsafeVirtToPhys m root va = 0 := by
  have hw : walk m 2 root va = none := by
    by_contra hw
    obtain ⟨⟨l, e⟩, hw⟩ := Option.ne_none_iff_exists'.mp hw
    have hA := (h.refines va l e).mp hw
    rw [stored_eq_none.mpr (hnone l (walk_level hw).1)] at hA
    cases hA
  constructor
  · rw [virtToEntry, virtToEntryAt_eq_walk, hw, Option.map_none]
  · rw [unsafeVirtToPhys, unsafeVirtToPhysAt_eq_walk, hw]

/-- An address of `2^44` or more is cut off by the shift. -/
theorem Good.translates_iff (h : Good root m A) : Translates root m A ↔ Low A := by
  constructor
  · intro ht va l e hA
    by_contra hhigh
    obtain ⟨hl, hphys⟩ := h.phys hA
    have hlt := @leafAddress_lt l va (stored e) hl
    have hle := @le_mappedAddress l va e hl (Nat.le_of_not_lt hhigh)
    rw [← hphys, ht.phys va l e hA] at hlt
    omega
  · intro hlow
    refine ⟨fun va e => ?_, fun va l e hA => ?_, fun va => h.unmapped⟩
    · rw [virtToEntry, virtToEntryAt_eq_walk, Option.map_eq_some_iff]
      constructor
      · rintro ⟨⟨l, e'⟩, hw, rfl⟩
        exact ⟨l, (walk_level hw).1, by rw [← hlow.stored, ← h.refines, hw]⟩
      · rintro ⟨l, -, hA⟩
        exact ⟨(l, e), by rw [h.refines, hlow.stored, hA], rfl⟩
    · have hframe := hlow va l e hA
      rw [(h.phys hA).2, stored_low hframe, leafAddress_low hframe]

/-- No table page is free, and no two entries of the tables point to the same one. -/
structure Unshared (root : ℕ) (m : TableMem) : Prop where
  apart : ∀ t ∈ allTables m 2 root, t ∉ m.free
  once : ∀ t ∈ allTables m 2 root, ∀ t' ∈ allTables m 2 root, ∀ i < pageTableSize, ∀ j < pageTableSize, ∀ g,
    branch (m.entries t i) = some g → branch (m.entries t' j) = some g → t = t' ∧ i = j

theorem Good.unshared (h : Good root m A) : Unshared root m where
  apart _ ht := h.tidy.apart ht
  once _ ht _ ht' _ hi _ hj _ hg hg' := NodeTree.unshared h.tidy.bounded h.tidy.tree ht ht' hi hj hg hg'

/-- The pages released are the tables below the root that have no entry in use any more, and
no entry points to one of them. -/
def ReleasesEmptied (root : ℕ) (m m' : TableMem) : Prop :=
  ∃ released, m'.free = released ++ m.free ∧
    (∀ g, g ∈ released ↔ g ∈ tables m 2 root ∧ ¬Filled m' g) ∧
    ∀ t ∈ allTables m' 2 root, ∀ i < pageTableSize, ∀ g ∈ released, branch (m'.entries t i) ≠ some g

theorem Good.releases (h : Good root m A) (hs : unmapPage m root vaddr = some m') : ReleasesEmptied root m m' := by
  have h' : Good root m' (A.apply (.unmap vaddr)) := h.next trivial hs
  obtain ⟨cleared, m₁, hm₁, hm⟩ := unmapPage_unmapped vaddr h.tidy
  rw [hm₁, Option.some.injEq] at hs
  subst hs
  obtain ⟨released, hfree, hin⟩ := hm.released
  refine ⟨released, hfree, fun g => ⟨hin g, ?_⟩, ?_⟩
  · rintro ⟨hg, hempty⟩
    -- a table that was there is still there or free, and those that are still there are in use
    have hmem : g ∈ tables m₁ 2 root ++ m₁.free := hm.perm.mem_iff.mpr (List.mem_append_left _ hg)
    rcases List.mem_append.mp hmem with hg' | hg'
    · exact absurd (h'.filled g hg') hempty
    · rw [hfree] at hg'
      rcases List.mem_append.mp hg' with hg' | hg'
      · exact hg'
      · exact absurd hg' (h.tidy.apart (List.mem_cons_of_mem _ hg))
  · intro t ht i hi g hg hbranch
    have hbelow := mem_below_of_child h'.tidy.bounded ht hi hbranch
    refine h'.tidy.apart (List.mem_cons_of_mem _ hbelow) ?_
    rw [hfree]
    exact List.mem_append_left _ hg

theorem Good.local_change (h : Good root m A) (hok : Allowed m op) (hs : step root m op = some m')
    (hva : ¬op.Touches A va) :
    virtToEntry m' root va = virtToEntry m root va ∧ unsafeVirtToPhys m' root va = unsafeVirtToPhys m root va := by
  have hw : walk m' 2 root va = walk m 2 root va := by
    cases op with
    | map vaddr paddr bits level =>
      refine (mapPage_mapped h.tidy hok hs).outside va fun hc => hva ?_
      exact (pageNumber_eq_iff hok).mpr hc
    | unmap vaddr =>
      obtain ⟨cleared, m₁, hm₁, hm⟩ := unmapPage_unmapped vaddr h.tidy
      rw [step, hm₁, Option.some.injEq] at hs
      subst hs
      refine hm.outside va fun p hp hc => hva ⟨p.1, ?_, (pageNumber_eq_iff (walk_level hp).1).mpr hc⟩
      rw [Ne, ← stored_eq_none, (h.refines vaddr p.1 p.2).mp hp]
      exact Option.some_ne_none _
  constructor
  · rw [virtToEntry, virtToEntry, virtToEntryAt_eq_walk, virtToEntryAt_eq_walk, hw]
  · rw [unsafeVirtToPhys, unsafeVirtToPhys, unsafeVirtToPhysAt_eq_walk, unsafeVirtToPhysAt_eq_walk, hw]

theorem Good.again (h : Good root m A) (hok : Allowed m op) (hs : step root m op = some m') :
    step root m' op = some m' := by
  have h' := h.next hok hs
  cases op with
  | map vaddr paddr bits level =>
    have hm := mapPage_mapped h.tidy hok hs
    simp only [step, mapPage, Option.ite_none_right_eq_some] at hs ⊢
    exact ⟨hs.1, mapPageAt_again (hm.inside vaddr fun _ _ _ => rfl)⟩
  | unmap vaddr =>
    have hw : walk m' 2 root vaddr = none := by
      by_contra hw
      obtain ⟨⟨l, e⟩, hw⟩ := Option.ne_none_iff_exists'.mp hw
      have hA := (h'.refines vaddr l e).mp hw
      simp only [stored_unmap, if_true] at hA
      cases hA
    rw [step, unmapPage, unmapPageAt_again h'.tidy.bounded hw, Option.map_some]

/-- With two pages left, `mapPage` returns exactly when its assertions hold, and `unmapPage` always returns. -/
def Returns (root : ℕ) (m : TableMem) (A : PageMap) : TableOp → Prop
  | .map vaddr paddr bits level => 2 ≤ m.free.length →
    ((∃ m', step root m (.map vaddr paddr bits level) = some m') ↔ bits.rwx = true ∧ Mappable A level vaddr)
  | .unmap vaddr => ∃ m', step root m (.unmap vaddr) = some m'

theorem Good.returns (h : Good root m A) (hok : Allowed m op) : Returns root m A op := by
  cases op with
  | map vaddr paddr bits level =>
    intro hroom
    constructor
    · rintro ⟨m', hs⟩
      have hm := mapPage_mapped h.tidy hok hs
      simp only [step, mapPage, Option.ite_none_right_eq_some] at hs
      refine ⟨hs.1, fun va hva l hl => ?_⟩
      by_contra hA
      obtain ⟨e, hA⟩ := Option.ne_none_iff_exists'.mp (mt stored_eq_none.mp hA)
      exact hl (hm.before va ((pageNumber_eq_iff hok).mp hva) _ ((h.refines va l e).mpr hA))
    · rintro ⟨hx, hmap⟩
      simp only [step, mapPage, hx, if_true]
      have hlevel : ∀ va, Covered level 2 va vaddr → ∀ p, walk m 2 root va = some p → p.1 = level := by
        intro va hva p hp
        by_contra hl
        have hA := (h.refines va p.1 p.2).mp hp
        rw [stored_eq_none.mpr (hmap va ((pageNumber_eq_iff hok).mpr hva) p.1 hl)] at hA
        cases hA
      apply mapPageAt_isSome h.tidy hok (by omega)
      · intro p hp
        exact (hlevel vaddr (fun _ _ _ => rfl) p hp).le
      · intro hb
        obtain ⟨va, p, hva, hp, hlt⟩ := exists_leaf_of_branch h.tidy hok h.filled hb
        exact hlt.ne (hlevel va hva p hp)
  | unmap vaddr =>
    obtain ⟨_, m', hm', -⟩ := unmapPage_unmapped vaddr h.tidy
    exact ⟨m', hm'⟩

end Calls

/-- At every point of every sequence of calls on a new root the tables translate as the page map
does, exactly when no mapped page has an address of `2^44` or more; they share no table page, and
the next call has exactly its effect. -/
theorem tables_refine_map {m₀ m₁ m : TableMem} {root : ℕ} {ops : List TableOp} (hfree : m₀.free.Nodup)
    (hroot : createPageTable m₀ = some (root, m₁)) (hr : Runs (step root) Allowed m₁ ops m) :
    (Translates root m (.after ops) ↔ Low (.after ops)) ∧ Unshared root m ∧ ∀ op, Allowed m op →
      Returns root m (.after ops) op ∧ ∀ m', step root m op = some m' →
        (∀ va, ¬op.Touches (.after ops) va → virtToEntry m' root va = virtToEntry m root va ∧
          unsafeVirtToPhys m' root va = unsafeVirtToPhys m root va) ∧
        step root m' op = some m' ∧
        (∀ vaddr, op = .unmap vaddr → ReleasesEmptied root m m') := by
  have h : Good root m (.after ops) := (createPageTable_good hfree hroot).run hr
  refine ⟨h.translates_iff, h.unshared, fun op hok => ⟨h.returns hok, fun m' hs => ⟨?_, h.again hok hs, ?_⟩⟩⟩
  · intro va hva
    exact h.local_change hok hs hva
  · rintro vaddr rfl
    exact h.releases hs

def mixedPages : List TableOp :=
  [.map 0x5000 0x87000 { r := true } 0, .map 0x40000000 0x80000000 { r := true, x := true } 1]

def highPage : List TableOp := [.map 0x5000 0x100000003000 { r := true } 0]

theorem mixedPages_low : Low (.after mixedPages) := by
  intro va l e hA
  simp only [PageMap.after, mixedPages, List.foldl_cons, List.foldl_nil, PageMap.apply] at hA
  split_ifs at hA <;> cases hA <;> decide

theorem newRoot : createPageTable { entries := fun _ _ => {}, free := [1, 2, 3, 4] } =
    some (1, { entries := fun _ _ => {}, free := [2, 3, 4] }) := by
  simp [createPageTable]

/-- A page of 4 KiB and one of 2 MiB are mapped and the small one is unmapped again, with its table released. -/
theorem tables_refine_map_mixed :
    ∃ m, Runs (step 1) Allowed { entries := fun _ _ => {}, free := [2, 3, 4] } mixedPages m ∧
      Translates 1 m (.after mixedPages) ∧ ∀ m', step 1 m (.unmap 0x5008) = some m' → ReleasesEmptied 1 m m' := by
  obtain ⟨m, hr⟩ : ∃ m, Runs (step 1) Allowed { entries := fun _ _ => {}, free := [2, 3, 4] } mixedPages m :=
    ⟨_, .cons (by simp [Allowed]) rfl (.cons (by simp [Allowed]) rfl (.nil _))⟩
  have h := tables_refine_map (by decide) newRoot hr
  refine ⟨m, hr, h.1.mpr mixedPages_low, fun m' hs => ?_⟩
  exact ((h.2.2 (.unmap 0x5008) trivial).2 m' hs).2.2 _ rfl

/-- The address of a page at `2^44 + 0x3000` is translated to that of the page at `0x3000`. -/
theorem tables_cut_address : ∃ m, Runs (step 1) Allowed { entries := fun _ _ => {}, free := [2, 3, 4] } highPage m ∧
    unsafeVirtToPhys m 1 0x5008 = 0x3008 ∧ ¬Translates 1 m (.after highPage) := by
  obtain ⟨m, hr⟩ : ∃ m, Runs (step 1) Allowed { entries := fun _ _ => {}, free := [2, 3, 4] } highPage m :=
    ⟨_, .cons (by simp [Allowed]) rfl (.nil _)⟩
  have hmapped : PageMap.after highPage 0 (pageNumber 0 0x5008) = some (mappedEntry 0x100000003000 { r := true }) := by
    decide
  have h : Good 1 m (.after highPage) := (createPageTable_good (by decide) newRoot).run hr
  refine ⟨m, hr, by rw [(h.phys hmapped).2]; decide, fun ht => ?_⟩
  exact absurd (h.translates_iff.mp ht 0x5008 0 _ hmapped) (by decide)

end SomeOs.TableHeap
