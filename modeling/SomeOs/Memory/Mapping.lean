import SomeOs.Memory.Isolation
import SomeOs.Memory.Resolve

/-! # Walks of an edited table

A page is an index in the low 39 bits of an address. Mapping a page sets the walk of its
addresses and unmapping it clears the walk of its addresses; all other walks stay.
-/
namespace SomeOs.Paging
open SparseArray

def pageOf (va : ℕ) : ℕ := va % 2 ^ 39 / pageSize

theorem samePage_iff (va vaddr : ℕ) : SamePage 2 va vaddr ↔ pageOf va = pageOf vaddr := by
  have hbase : SamePage 2 va vaddr ↔
      vpn 2 va = vpn 2 vaddr ∧ vpn 1 va = vpn 1 vaddr ∧ vpn 0 va = vpn 0 vaddr := by
    rw [samePage_succ, samePage_succ, samePage_zero]
  rw [hbase]
  simp only [vpn, pageOf, pageSize, Nat.reduceMul, Nat.reduceAdd, Nat.reducePow]
  omega

section Walk
variable {n va vaddr paddr : ℕ} {table t : PageTable} {e new : PageTableEntry} {bits : PageEntryBits} {free free' : List ℕ}

theorem walk_nil (n va : ℕ) : walk n [] va = none := by
  cases n <;> simp [walk, get?]

theorem walk_regular (ht : Regular n table) {p : ℕ × PageTableEntry} (h : walk n table va = some p) : p.1 = 0 := by
  induction n generalizing table with
  | zero => exact Nat.le_zero.mp (walk_level h)
  | succ n ih =>
    simp only [walk] at h
    cases hg : get? table (vpn (n + 1) va) with
    | none => simp [hg] at h
    | some slot =>
      obtain ⟨e, next⟩ := slot
      simp only [hg] at h
      split_ifs at h with hv hx
      · have hslot : e.v = true → e.rwx = false ∧ ∀ p ∈ next, RegularSlot n p.2 := regular_get? ht hg
        rw [(hslot hv).1] at hx
        cases hx
      · have hslot : e.v = true → e.rwx = false ∧ ∀ p ∈ next, RegularSlot n p.2 := regular_get? ht hg
        exact ih (hslot hv).2 h

/-- A mapped page is found at all addresses of the page, and nothing else changes. -/
theorem walk_mapPage (h : mapPage vaddr paddr bits 0 n table free = some (t, free')) (va : ℕ) :
    walk n t va = if SamePage n va vaddr then some (0, { bits with v := true, paddr := paddr }) else walk n table va := by
  have hrwx := mapPage_rwx h
  induction n generalizing table t free free' with
  | zero =>
    simp only [mapPage, Option.map_eq_some_iff, Prod.mk.injEq] at h
    obtain ⟨t', ht, rfl, rfl⟩ := h
    obtain ⟨hx, rfl, -⟩ := mapLeaf_eq ht
    simp only [walk, get?_set, samePage_zero]
    split_ifs with hi
    · simp [hx]
    · rfl
  | succ n ih =>
    obtain ⟨e, next, t', free₀, hv, hex, hrec, rfl, hslot⟩ := mapPage_succ h
    have hbelow := ih hrec
    simp only [walk, get?_set, samePage_succ]
    by_cases hi : vpn (n + 1) va = vpn (n + 1) vaddr
    · simp only [hi, if_true, true_and, hv, hex, Bool.false_eq_true, if_false, hbelow]
      rcases hslot with ⟨hg, -⟩ | ⟨hinv, rfl, -⟩
      · simp only [hg, hv, hex, if_true, Bool.false_eq_true, if_false]
      · rw [walk_nil]
        -- The slot was not valid, so that nothing was found there.
        cases hg : get? table (vpn (n + 1) vaddr) with
        | none => rfl
        | some slot =>
          obtain ⟨e', next'⟩ := slot
          simp [hinv e' next' hg]
    · simp [hi]

/-- An entry that is made invalid is not found any more, and nothing else changes. -/
theorem walk_clear (h : walk n table vaddr = some (0, e)) (hv : new.v = false) (va : ℕ) :
    walk n (setEntry n table vaddr new) va = if SamePage n va vaddr then none else walk n table va := by
  induction n generalizing table with
  | zero =>
    simp only [walk] at h
    cases hg : get? table (vpn 0 vaddr) with
    | none => simp [hg] at h
    | some slot =>
      obtain ⟨e', next⟩ := slot
      simp only [hg] at h
      split_ifs at h with hc
      simp only [setEntry, hg, hc, if_true, walk, get?_set, samePage_zero]
      split_ifs with hi
      · simp [hv]
      · rfl
  | succ n ih =>
    simp only [walk] at h
    cases hg : get? table (vpn (n + 1) vaddr) with
    | none => simp [hg] at h
    | some slot =>
      obtain ⟨e', next⟩ := slot
      simp only [hg] at h
      split_ifs at h with hv' hx'
      · exact absurd (congrArg Prod.fst (Option.some.inj h)) (by simp)
      · have hx' : e'.rwx = false := by simpa using hx'
        simp only [setEntry, hg, hv', hx', if_true, Bool.false_eq_true, if_false, walk, get?_set, samePage_succ]
        by_cases hi : vpn (n + 1) va = vpn (n + 1) vaddr
        · simp [hi, hg, hv', hx', ih h]
        · simp [hi]

/-- Mapping succeeds while there is a free page for each level. -/
theorem mapPage_isSome (ht : Regular n table) (hx : bits.rwx = true) (hfree : n ≤ free.length) :
    ∃ t free', mapPage vaddr paddr bits 0 n table free = some (t, free') ∧ free.length ≤ free'.length + n := by
  induction n generalizing table free with
  | zero =>
    have hnew : PageEntryBits.rwx { bits with v := true } = true := hx
    refine ⟨set table (vpn 0 vaddr) (.mk { bits with v := true, paddr := paddr } []), free, ?_, le_rfl⟩
    simp only [mapPage, mapLeaf]
    rw [if_pos hnew]
    cases hg : get? table (vpn 0 vaddr) with
    | none => rfl
    | some slot =>
      obtain ⟨e, next⟩ := slot
      have hslot : e.v = true → e.rwx = true := regular_get? ht hg
      cases hv : e.v with
      | false => simp [hv]
      | true => simp [hv, hslot hv]
  | succ n ih =>
    have hlevel : ¬n + 1 ≤ 0 := by omega
    simp only [mapPage, if_neg hlevel]
    obtain ⟨f, rest, rfl⟩ : ∃ f rest, free = f :: rest := List.exists_cons_of_length_pos (by omega)
    -- A table page is taken when the slot is not valid.
    have hfresh : ∃ t free', (mapPage vaddr paddr bits 0 n [] rest).map
          (fun r => (set table (vpn (n + 1) vaddr) (.mk { v := true, paddr := f } r.1), r.2)) = some (t, free') ∧
        (f :: rest).length ≤ free'.length + (n + 1) := by
      have hnil : Regular n [] := fun p hp => by cases hp
      obtain ⟨t, free', hmap, hlen⟩ := ih hnil (Nat.le_of_succ_le_succ hfree)
      refine ⟨set table (vpn (n + 1) vaddr) (.mk { v := true, paddr := f } t), free', by simp [hmap], ?_⟩
      rw [List.length_cons]
      omega
    cases hg : get? table (vpn (n + 1) vaddr) with
    | none => exact hfresh
    | some slot =>
      obtain ⟨e, next⟩ := slot
      have hslot : e.v = true → e.rwx = false ∧ ∀ p ∈ next, RegularSlot n p.2 := regular_get? ht hg
      cases hv : e.v with
      | false =>
        simp only [hv, Bool.false_eq_true, if_false]
        exact hfresh
      | true =>
        obtain ⟨hex, hnext⟩ := hslot hv
        obtain ⟨t, free', hmap, hlen⟩ := ih hnext (Nat.le_of_succ_le hfree)
        simp only [hv, hex, if_true, Bool.false_eq_true, if_false]
        exact ⟨_, free', by rw [hmap]; rfl, by omega⟩

end Walk

end SomeOs.Paging

namespace SomeOs.MemSpace
open SparseArray PageRef Paging

section Space
variable {s : MemState} {id va va' : ℕ} {m : ProcessMemory} {e e' : PageTableEntry} {p : ℕ × PageTableEntry}

theorem walk_of_space (hm : get? s.spaces id = some m) (va : ℕ) : s.walk id va = Paging.walk 2 m.mem va := by
  rw [MemState.walk, hm]
  rfl

theorem space_of_walk (h : s.walk id va = some p) : ∃ m, get? s.spaces id = some m ∧ Paging.walk 2 m.mem va = some p :=
  Option.bind_eq_some_iff.mp h

theorem leaf_of_walk (h : s.walk id va = some p) : p.2 ∈ allLeaves s.spaces := by
  obtain ⟨m, hm, hw⟩ := space_of_walk h
  exact mem_allLeaves hm (entry_mem (entry_of_walk hw))

theorem frame_not_free (hs : Sound s) (h : s.walk id va = some p) : p.2.paddr ∉ s.free := by
  intro hin
  have hpos : 0 < mappings s p.2.paddr := mapCount_pos (leaf_of_walk h)
  have hpool : 0 < pooled s p.2.paddr := by
    have := List.count_pos_iff.mpr hin
    unfold pooled
    omega
  have := (hs.frame p.2.paddr).pool_maps hpool
  omega

theorem zero_page_not_free (hs : Sound s) : s.zero_page ∉ s.free := by
  intro hin
  have hcount := List.count_pos_iff.mpr hin
  have hpool := (hs.frame s.zero_page).zero_pool rfl
  unfold pooled at hpool
  omega

theorem samePage_of_sole (h : s.walk id va = some (0, e)) (h' : s.walk id va' = some (0, e')) (hsame : e'.paddr = e.paddr)
    (hone : mappings s e.paddr = 1) : SamePage 2 va' va := by
  by_contra hpage
  obtain ⟨m, hm, hw⟩ := space_of_walk h
  have hw' : Paging.walk 2 m.mem va' = some (0, e') := (walk_of_space hm va').symm.trans h'
  have hinv : ({ e with v := false } : PageTableEntry).v = true → ({ e with v := false } : PageTableEntry).rwx = true := by simp
  obtain ⟨l, a, r, hl, hset⟩ := setEntry_leaves 0 (entry_of_walk hw)
  have hleft := hset { e with v := false } hinv
  -- The second leaf is still there when the first one is taken away.
  have hother : Paging.walk 2 (setEntry 2 m.mem va { e with v := false }) va' = some (0, e') := by
    rw [walk_clear hw rfl, if_neg hpage, hw']
  have hmem := entry_mem (entry_of_walk hother)
  have hpos := mapCount_pos hmem
  obtain ⟨ls, rs, hall, -⟩ := allLeaves_split hm
  rw [mappings_eq, hall] at hone
  simp only [entries, leaves, hl, hleft, hsame, List.map_append, List.map_cons, mapCount_append, mapCount_cons, mapsTo,
    if_true, Bool.false_eq_true, if_false, List.append_nil] at hpos hone
  omega

end Space

end SomeOs.MemSpace
