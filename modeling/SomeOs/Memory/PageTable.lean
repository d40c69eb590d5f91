import SomeOs.Base.SparseArray

/-! # Three-level page tables

A table is a sparse array of slots. A slot is an entry together with the table
page the entry points to when it is a branch; a valid entry without a permission
bit is a branch and any other valid entry is a leaf. Levels are counted down to
zero, as in the source, and a table page is taken from the list of free frames.
-/
namespace SomeOs.Paging
open SparseArray

abbrev pageSize : ℕ := 4096

/-- The flag bits of an entry, named as in the source. -/
structure PageEntryBits where
  v : Bool := false
  r : Bool := false
  w : Bool := false
  x : Bool := false
  u : Bool := false
  g : Bool := false
  a : Bool := false
  d : Bool := false
  c : Bool := false
  deriving DecidableEq

structure PageTableEntry extends PageEntryBits where
  paddr : ℕ := 0
  deriving DecidableEq

/-- `bits & PAGE_ENTRY_RWX` is not zero. -/
def PageEntryBits.rwx (b : PageEntryBits) : Bool := b.r || b.w || b.x

/-- `entry->bits |= bits`. -/
def PageTableEntry.orBits (e : PageTableEntry) (b : PageEntryBits) : PageTableEntry where
  v := e.v || b.v
  r := e.r || b.r
  w := e.w || b.w
  x := e.x || b.x
  u := e.u || b.u
  g := e.g || b.g
  a := e.a || b.a
  d := e.d || b.d
  c := e.c || b.c
  paddr := e.paddr

inductive Slot where
  | mk (entry : PageTableEntry) (next : List (ℕ × Slot))

abbrev PageTable := List (ℕ × Slot)

def vpn (level vaddr : ℕ) : ℕ := vaddr / 2 ^ (12 + 9 * level) % 512

def virtToEntry : ℕ → PageTable → ℕ → Option PageTableEntry
  | 0, table, vaddr =>
    match get? table (vpn 0 vaddr) with
    | some (.mk e _) => if e.v && e.rwx then some e else none
    | none => none
  | level + 1, table, vaddr =>
    match get? table (vpn (level + 1) vaddr) with
    | some (.mk e next) =>
      if e.v then if e.rwx then some e else virtToEntry level next vaddr else none
    | none => none

/-- A store through the pointer that `virtToEntry` returns. -/
def setEntry : ℕ → PageTable → ℕ → PageTableEntry → PageTable
  | 0, table, vaddr, new =>
    match get? table (vpn 0 vaddr) with
    | some (.mk e next) =>
      if e.v && e.rwx then set table (vpn 0 vaddr) (.mk new next) else table
    | none => table
  | level + 1, table, vaddr, new =>
    match get? table (vpn (level + 1) vaddr) with
    | some (.mk e next) =>
      if e.v then
        if e.rwx then set table (vpn (level + 1) vaddr) (.mk new next)
        else set table (vpn (level + 1) vaddr) (.mk e (setEntry level next vaddr new))
      else table
    | none => table

/-- The final store of `mapPage`; the new entry must have a permission and the
slot must be invalid or a leaf. -/
def mapLeaf (table : PageTable) (idx : ℕ) (new : PageTableEntry) : Option PageTable :=
  if new.rwx then
    match get? table idx with
    | some (.mk e _) => if !e.v || e.rwx then some (set table idx (.mk new [])) else none
    | none => some (set table idx (.mk new []))
  else none

/-- `mapPage` below a table of the given level; a failed assertion is `none`. -/
def mapPage (vaddr paddr : ℕ) (bits : PageEntryBits) (level : ℕ) :
    ℕ → PageTable → List ℕ → Option (PageTable × List ℕ)
  | 0, table, free =>
    (mapLeaf table (vpn 0 vaddr) { bits with v := true, paddr := paddr }).map (·, free)
  | n + 1, table, free =>
    if n + 1 ≤ level then
      (mapLeaf table (vpn (n + 1) vaddr) { bits with v := true, paddr := paddr }).map (·, free)
    else
      match get? table (vpn (n + 1) vaddr) with
      | some (.mk e next) =>
        if e.v then
          if e.rwx then none
          else (mapPage vaddr paddr bits level n next free).map
            (fun r => (set table (vpn (n + 1) vaddr) (.mk e r.1), r.2))
        else
          match free with
          | [] => none
          | f :: free => (mapPage vaddr paddr bits level n [] free).map
            (fun r => (set table (vpn (n + 1) vaddr) (.mk { v := true, paddr := f } r.1), r.2))
      | none =>
        match free with
        | [] => none
        | f :: free => (mapPage vaddr paddr bits level n [] free).map
          (fun r => (set table (vpn (n + 1) vaddr) (.mk { v := true, paddr := f } r.1), r.2))

/-- The physical address of a virtual one, zero when it is not mapped. Frame numbers are those of
frames of memory, below `2^32`: the source shifts them in the 44 bits of the field. -/
def unsafeVirtToPhys : ℕ → PageTable → ℕ → ℕ
  | 0, table, vaddr =>
    match get? table (vpn 0 vaddr) with
    | some (.mk e _) => if e.v && e.rwx then e.paddr * pageSize + vaddr % pageSize else 0
    | none => 0
  | n + 1, table, vaddr =>
    match get? table (vpn (n + 1) vaddr) with
    | some (.mk e next) =>
      if e.v then
        if e.rwx then
          let size := pageSize * 2 ^ (9 * (n + 1))
          e.paddr * pageSize / size * size + vaddr % size
        else unsafeVirtToPhys n next vaddr
      else 0
    | none => 0

/-- The leaves below a slot in table order, each with its virtual address. -/
def slotLeaves : ℕ → ℕ → Slot → List (ℕ × PageTableEntry)
  | 0, base, .mk e _ => if e.v && e.rwx then [(base, e)] else []
  | n + 1, base, .mk e next =>
    if e.v then
      if e.rwx then [(base, e)]
      else next.flatMap (fun p => slotLeaves n (base + p.1 * 2 ^ (12 + 9 * n)) p.2)
    else []

def leavesFrom (n base : ℕ) (table : PageTable) : List (ℕ × PageTableEntry) :=
  table.flatMap (fun p => slotLeaves n (base + p.1 * 2 ^ (12 + 9 * n)) p.2)

def leaves (root : PageTable) : List (ℕ × PageTableEntry) := leavesFrom 2 0 root

def slotTables : ℕ → Slot → List ℕ
  | 0, _ => []
  | n + 1, .mk e next =>
    if e.v && !e.rwx then e.paddr :: next.flatMap (fun p => slotTables n p.2) else []

def tablesFrom (n : ℕ) (table : PageTable) : List ℕ := table.flatMap (fun p => slotTables n p.2)

/-- `allPagesDo` with a callback that changes the entry it is given. -/
def allSlotsDo (callback : PageTableEntry → ℕ → PageTableEntry) : ℕ → ℕ → Slot → Slot
  | 0, base, .mk e next => if e.v then .mk (callback e base) next else .mk e next
  | n + 1, base, .mk e next =>
    if e.v then
      if e.rwx then .mk (callback e base) next
      else .mk e (next.map (fun p =>
        (p.1, allSlotsDo callback n (base + p.1 * 2 ^ (12 + 9 * n)) p.2)))
    else .mk e next

def allPagesDo (root : PageTable) (callback : PageTableEntry → ℕ → PageTableEntry) : PageTable :=
  root.map (fun p => (p.1, allSlotsDo callback 2 (p.1 * 2 ^ 30) p.2))

/-- Level zero holds leaves only and the levels above hold branches only, which
is what mapping at level zero builds. -/
def RegularSlot : ℕ → Slot → Prop
  | 0, .mk e _ => e.v = true → e.rwx = true
  | n + 1, .mk e next => e.v = true → e.rwx = false ∧ ∀ p ∈ next, RegularSlot n p.2

def Regular (n : ℕ) (table : PageTable) : Prop := ∀ p ∈ table, RegularSlot n p.2

theorem leavesFrom_append (n base : ℕ) (s t : PageTable) :
    leavesFrom n base (s ++ t) = leavesFrom n base s ++ leavesFrom n base t := by
  simp [leavesFrom]

theorem leavesFrom_cons (n base : ℕ) (p : ℕ × Slot) (t : PageTable) :
    leavesFrom n base (p :: t) =
      slotLeaves n (base + p.1 * 2 ^ (12 + 9 * n)) p.2 ++ leavesFrom n base t := by
  simp [leavesFrom]

theorem slotLeaves_branch {n base : ℕ} {e : PageTableEntry} {next : PageTable} (hv : e.v = true)
    (hx : e.rwx = false) : slotLeaves (n + 1) base (.mk e next) = leavesFrom n base next := by
  simp [slotLeaves, leavesFrom, hv, hx]

theorem leavesFrom_set (n base : ℕ) {idx : ℕ} {table : PageTable} {s : Slot} (h : get? table idx = some s) :
    ∃ l r, leavesFrom n base table =
        l ++ slotLeaves n (base + idx * 2 ^ (12 + 9 * n)) s ++ r ∧
      ∀ s', leavesFrom n base (set table idx s') =
        l ++ slotLeaves n (base + idx * 2 ^ (12 + 9 * n)) s' ++ r := by
  obtain ⟨p, q, hl, hs, _⟩ := split_of_get? h
  refine ⟨leavesFrom n base p, leavesFrom n base q, ?_, fun s' => ?_⟩
  · nth_rewrite 1 [hl]
    rw [leavesFrom_append, leavesFrom_cons, List.append_assoc]
  · rw [hs, leavesFrom_append, leavesFrom_cons, List.append_assoc]

theorem leavesFrom_set_none (n base : ℕ) {idx : ℕ} {table : PageTable} (h : get? table idx = none) :
    ∃ l r, leavesFrom n base table = l ++ r ∧
      ∀ s', leavesFrom n base (set table idx s') =
        l ++ slotLeaves n (base + idx * 2 ^ (12 + 9 * n)) s' ++ r := by
  obtain ⟨p, q, hl, hs⟩ := split_of_get?_none h
  refine ⟨leavesFrom n base p, leavesFrom n base q, ?_, fun s' => ?_⟩
  · nth_rewrite 1 [hl]
    rw [leavesFrom_append]
  · rw [hs, leavesFrom_append, leavesFrom_cons, List.append_assoc]

/-- The entry found for an address is one of the leaves, and storing a new leaf
or an invalid entry there changes this one leaf. -/
theorem setEntry_leaves (base : ℕ) {n vaddr : ℕ} {table : PageTable} {e : PageTableEntry}
    (h : virtToEntry n table vaddr = some e) :
    ∃ l va r, leavesFrom n base table = l ++ (va, e) :: r ∧
      ∀ new : PageTableEntry, (new.v = true → new.rwx = true) →
        leavesFrom n base (setEntry n table vaddr new) =
          l ++ (if new.v then [(va, new)] else []) ++ r := by
  induction n generalizing base table with
  | zero =>
    simp only [virtToEntry] at h
    cases hg : get? table (vpn 0 vaddr) with
    | none => simp [hg] at h
    | some s =>
      obtain ⟨e', next⟩ := s
      simp only [hg] at h
      split_ifs at h with hc
      cases h
      obtain ⟨l, r, h1, h2⟩ := leavesFrom_set 0 base hg
      refine ⟨l, base + vpn 0 vaddr * 2 ^ 12, r, ?_, fun new hnew => ?_⟩
      · simpa [slotLeaves, hc] using h1
      · simp only [setEntry, hg, if_pos hc, h2, slotLeaves]
        cases hv : new.v with
        | false => simp
        | true => simp [hnew hv]
  | succ n ih =>
    simp only [virtToEntry] at h
    cases hg : get? table (vpn (n + 1) vaddr) with
    | none => simp [hg] at h
    | some s =>
      obtain ⟨e', next⟩ := s
      simp only [hg] at h
      obtain ⟨l, r, h1, h2⟩ := leavesFrom_set (n + 1) base hg
      split_ifs at h with hv hx
      · cases h
        refine ⟨l, base + vpn (n + 1) vaddr * 2 ^ (12 + 9 * (n + 1)), r, ?_, fun new hnew => ?_⟩
        · simpa [slotLeaves, hv, hx] using h1
        · simp only [setEntry, hg, if_pos hv, if_pos hx, h2, slotLeaves]
          cases hnv : new.v with
          | false => simp
          | true => simp [hnew hnv]
      · have hx : e'.rwx = false := by simpa using hx
        obtain ⟨l', va, r', h1', h2'⟩ :=
          ih (base + vpn (n + 1) vaddr * 2 ^ (12 + 9 * (n + 1))) h
        refine ⟨l ++ l', va, r' ++ r, ?_, fun new hnew => ?_⟩
        · rw [h1, slotLeaves_branch hv hx, h1']
          simp
        · simp only [setEntry, hg, hv, hx, if_true, Bool.false_eq_true, if_false, h2]
          rw [slotLeaves_branch hv hx, h2' new hnew]
          simp

theorem mapLeaf_eq {table t : PageTable} {idx : ℕ} {new : PageTableEntry}
    (h : mapLeaf table idx new = some t) :
    new.rwx = true ∧ t = set table idx (.mk new []) ∧
      ∀ e next, get? table idx = some (.mk e next) → e.v = true → e.rwx = true := by
  unfold mapLeaf at h
  split_ifs at h with hx
  cases hg : get? table idx with
  | none =>
    simp only [hg, Option.some.injEq] at h
    exact ⟨hx, h.symm, by simp⟩
  | some s =>
    obtain ⟨e, next⟩ := s
    simp only [hg] at h
    split_ifs at h with hc
    refine ⟨hx, (Option.some.inj h).symm, ?_⟩
    rintro e' next' he hv
    cases he
    simpa [hv] using hc

/-- The leaf store at level zero replaces at most the leaf of its address. -/
theorem mapLeaf_leaves {base vaddr : ℕ} {table t : PageTable} {new : PageTableEntry}
    (hv : new.v = true) (h : mapLeaf table (vpn 0 vaddr) new = some t) :
    ∃ l va r, leavesFrom 0 base t = l ++ (va, new) :: r ∧
      (virtToEntry 0 table vaddr = none ∧ leavesFrom 0 base table = l ++ r ∨
        ∃ e, virtToEntry 0 table vaddr = some e ∧ leavesFrom 0 base table = l ++ (va, e) :: r) := by
  obtain ⟨hx, rfl, hleaf⟩ := mapLeaf_eq h
  cases hg : get? table (vpn 0 vaddr) with
  | none =>
    obtain ⟨l, r, h1, h2⟩ := leavesFrom_set_none 0 base hg
    refine ⟨l, base + vpn 0 vaddr * 2 ^ 12, r, ?_, Or.inl ⟨by simp [virtToEntry, hg], h1⟩⟩
    rw [h2]
    simp [slotLeaves, hv, hx]
  | some s =>
    obtain ⟨e, next⟩ := s
    obtain ⟨l, r, h1, h2⟩ := leavesFrom_set 0 base hg
    refine ⟨l, base + vpn 0 vaddr * 2 ^ 12, r, ?_, ?_⟩
    · rw [h2]
      simp [slotLeaves, hv, hx]
    · cases hev : e.v with
      | false =>
        refine Or.inl ⟨by simp [virtToEntry, hg, hev], ?_⟩
        simpa [slotLeaves, hev] using h1
      | true =>
        have hex := hleaf e next hg hev
        refine Or.inr ⟨e, by simp [virtToEntry, hg, hev, hex], ?_⟩
        simpa [slotLeaves, hev, hex] using h1

/-- What one level of `mapPage` does: it goes on in the branch it finds, or in a
new table page when the slot is not valid. -/
theorem mapPage_succ {n vaddr paddr : ℕ} {bits : PageEntryBits} {table t : PageTable}
    {free free' : List ℕ} (h : mapPage vaddr paddr bits 0 (n + 1) table free = some (t, free')) :
    ∃ e next t' free₀, e.v = true ∧ e.rwx = false ∧
      mapPage vaddr paddr bits 0 n next free₀ = some (t', free') ∧
      t = set table (vpn (n + 1) vaddr) (.mk e t') ∧
      (get? table (vpn (n + 1) vaddr) = some (.mk e next) ∧ free = free₀ ∨
        (∀ e' next', get? table (vpn (n + 1) vaddr) = some (.mk e' next') → e'.v = false) ∧
          next = [] ∧ free = e.paddr :: free₀) := by
  simp only [mapPage, Nat.add_eq_zero_iff, one_ne_zero, and_false, nonpos_iff_eq_zero, if_false] at h
  cases hg : get? table (vpn (n + 1) vaddr) with
  | none =>
    simp only [hg] at h
    cases free with
    | nil => cases h
    | cons f free =>
      simp only [Option.map_eq_some_iff, Prod.mk.injEq] at h
      obtain ⟨⟨t', free₁⟩, ht, rfl, rfl⟩ := h
      exact ⟨_, [], t', free, rfl, rfl, ht, rfl, Or.inr ⟨by simp, rfl, rfl⟩⟩
  | some s =>
    obtain ⟨e, next⟩ := s
    simp only [hg] at h
    cases hv : e.v with
    | true =>
      simp only [hv, if_true] at h
      split_ifs at h with hx
      simp only [Option.map_eq_some_iff, Prod.mk.injEq] at h
      obtain ⟨⟨t', free₁⟩, ht, rfl, rfl⟩ := h
      exact ⟨e, next, t', free, hv, by simpa using hx, ht, rfl, Or.inl ⟨rfl, rfl⟩⟩
    | false =>
      simp only [hv, Bool.false_eq_true, if_false] at h
      cases free with
      | nil => cases h
      | cons f free =>
        simp only [Option.map_eq_some_iff, Prod.mk.injEq] at h
        obtain ⟨⟨t', free₁⟩, ht, rfl, rfl⟩ := h
        refine ⟨_, [], t', free, rfl, rfl, ht, rfl, Or.inr ⟨?_, rfl, rfl⟩⟩
        rintro e' next' he
        cases he
        exact hv

theorem virtToEntry_nil (n vaddr : ℕ) : virtToEntry n [] vaddr = none := by
  cases n <;> simp [virtToEntry, get?]

/-- Mapping a page puts one leaf in the place of the one that was found for the
address, if there was one, and takes table pages from the front of the free list. -/
theorem mapPage_leaves (base : ℕ) {n vaddr paddr : ℕ} {bits : PageEntryBits} {table t : PageTable}
    {free free' : List ℕ}
    (h : mapPage vaddr paddr bits 0 n table free = some (t, free')) :
    (∃ used, free = used ++ free') ∧
    ∃ l va r, leavesFrom n base t = l ++ (va, { bits with v := true, paddr := paddr }) :: r ∧
      (virtToEntry n table vaddr = none ∧ leavesFrom n base table = l ++ r ∨
        ∃ e, virtToEntry n table vaddr = some e ∧ leavesFrom n base table = l ++ (va, e) :: r) := by
  induction n generalizing base table t free free' with
  | zero =>
    simp only [mapPage, Option.map_eq_some_iff, Prod.mk.injEq] at h
    obtain ⟨t', ht, rfl, rfl⟩ := h
    exact ⟨⟨[], rfl⟩, mapLeaf_leaves rfl ht⟩
  | succ n ih =>
    obtain ⟨e, next, t', free₀, hv, hex, hrec, rfl, hslot⟩ := mapPage_succ h
    obtain ⟨⟨used, hused⟩, l', va, r', h1', h2'⟩ :=
      ih (base + vpn (n + 1) vaddr * 2 ^ (12 + 9 * (n + 1))) hrec
    rcases hslot with ⟨hg, rfl⟩ | ⟨hinv, rfl, rfl⟩
    · obtain ⟨l, r, h1, h2⟩ := leavesFrom_set (n + 1) base hg
      rw [slotLeaves_branch hv hex] at h1
      refine ⟨⟨used, hused⟩, l ++ l', va, r' ++ r, ?_, ?_⟩
      · rw [h2, slotLeaves_branch hv hex, h1']
        simp
      · have hve : virtToEntry (n + 1) table vaddr = virtToEntry n next vaddr := by
          simp [virtToEntry, hg, hv, hex]
        rw [hve, h1]
        rcases h2' with ⟨hnone, h2'⟩ | ⟨e', hsome, h2'⟩
        · exact Or.inl ⟨hnone, by rw [h2']; simp⟩
        · exact Or.inr ⟨e', hsome, by rw [h2']; simp⟩
    · have hnil : l' = [] ∧ r' = [] := by
        rcases h2' with ⟨_, h2'⟩ | ⟨e', he', _⟩
        · simpa [leavesFrom] using h2'.symm
        · rw [virtToEntry_nil] at he'
          cases he'
      obtain ⟨rfl, rfl⟩ := hnil
      refine ⟨⟨e.paddr :: used, by rw [hused]; rfl⟩, ?_⟩
      cases hg : get? table (vpn (n + 1) vaddr) with
      | none =>
        obtain ⟨l, r, h1, h2⟩ := leavesFrom_set_none (n + 1) base hg
        refine ⟨l, va, r, ?_, Or.inl ⟨by simp [virtToEntry, hg], h1⟩⟩
        rw [h2, slotLeaves_branch hv hex, h1']
        simp
      | some s =>
        obtain ⟨e₀, next₀⟩ := s
        have hv₀ := hinv e₀ next₀ hg
        obtain ⟨l, r, h1, h2⟩ := leavesFrom_set (n + 1) base hg
        refine ⟨l, va, r, ?_, Or.inl ⟨by simp [virtToEntry, hg, hv₀], ?_⟩⟩
        · rw [h2, slotLeaves_branch hv hex, h1']
          simp
        · simpa [slotLeaves, hv₀] using h1

theorem mapPage_rwx {n vaddr paddr : ℕ} {bits : PageEntryBits} {table t : PageTable}
    {free free' : List ℕ} (h : mapPage vaddr paddr bits 0 n table free = some (t, free')) :
    bits.rwx = true := by
  induction n generalizing table t free free' with
  | zero =>
    simp only [mapPage, Option.map_eq_some_iff, Prod.mk.injEq] at h
    obtain ⟨t', ht, rfl, rfl⟩ := h
    exact (mapLeaf_eq ht).1
  | succ n ih =>
    obtain ⟨e, next, t', free₀, hv, hex, hrec, _⟩ := mapPage_succ h
    exact ih hrec

/-- After mapping a page an address has the new entry or the one it had before. -/
theorem virtToEntry_mapPage {n vaddr paddr va' : ℕ} {bits : PageEntryBits} {table t : PageTable}
    {free free' : List ℕ} {x : PageTableEntry}
    (h : mapPage vaddr paddr bits 0 n table free = some (t, free'))
    (hx : virtToEntry n t va' = some x) :
    x = { bits with v := true, paddr := paddr } ∨ virtToEntry n table va' = some x := by
  induction n generalizing table t free free' with
  | zero =>
    simp only [mapPage, Option.map_eq_some_iff, Prod.mk.injEq] at h
    obtain ⟨t', ht, rfl, rfl⟩ := h
    obtain ⟨_, rfl, _⟩ := mapLeaf_eq ht
    simp only [virtToEntry, get?_set] at hx ⊢
    split_ifs at hx with hi
    · simp only [Bool.true_and, Option.ite_none_right_eq_some, Option.some.injEq] at hx
      exact Or.inl hx.2.symm
    · exact Or.inr hx
  | succ n ih =>
    obtain ⟨e, next, t', free₀, hv, hex, hrec, rfl, hslot⟩ := mapPage_succ h
    simp only [virtToEntry, get?_set] at hx ⊢
    split_ifs at hx with hi
    · simp only [hv, hex, if_true, Bool.false_eq_true, if_false] at hx
      rcases ih hrec hx with hnew | hold
      · exact Or.inl hnew
      · rcases hslot with ⟨hg, rfl⟩ | ⟨_, rfl, rfl⟩
        · exact Or.inr (by simpa [hi, hg, hv, hex] using hold)
        · rw [virtToEntry_nil] at hold
          cases hold
    · exact Or.inr hx

theorem virtToEntry_setEntry {n vaddr va' : ℕ} {table : PageTable} {new x : PageTableEntry}
    (hnew : new.v = true → new.rwx = true) (hx : virtToEntry n (setEntry n table vaddr new) va' = some x) :
    x = new ∨ virtToEntry n table va' = some x := by
  induction n generalizing table with
  | zero =>
    simp only [setEntry] at hx
    cases hg : get? table (vpn 0 vaddr) with
    | none => simp only [hg] at hx; exact Or.inr hx
    | some s =>
      obtain ⟨e, next⟩ := s
      simp only [hg] at hx
      split_ifs at hx with hc
      · simp only [virtToEntry, get?_set] at hx ⊢
        split_ifs at hx with hi
        · simp only [Option.ite_none_right_eq_some, Option.some.injEq] at hx
          exact Or.inl hx.2.symm
        · exact Or.inr hx
      · exact Or.inr hx
  | succ n ih =>
    simp only [setEntry] at hx
    cases hg : get? table (vpn (n + 1) vaddr) with
    | none => simp only [hg] at hx; exact Or.inr hx
    | some s =>
      obtain ⟨e, next⟩ := s
      simp only [hg] at hx
      split_ifs at hx with hv hex
      · simp only [virtToEntry, get?_set] at hx ⊢
        split_ifs at hx with hi
        · simp only at hx
          split_ifs at hx with h1 h2
          · exact Or.inl (Option.some.inj hx).symm
          · exact absurd (hnew h1) h2
        · exact Or.inr hx
      · have hex : e.rwx = false := by simpa using hex
        simp only [virtToEntry, get?_set] at hx ⊢
        split_ifs at hx with hi
        · simp only [hv, hex, if_true, Bool.false_eq_true, if_false] at hx
          rcases ih hx with h | h
          · exact Or.inl h
          · exact Or.inr (by simpa [hi, hg, hv, hex] using h)
        · exact Or.inr hx
      · exact Or.inr hx

section Regular

theorem regular_set {n idx : ℕ} {table : PageTable} {s : Slot} (ht : Regular n table)
    (hs : RegularSlot n s) : Regular n (set table idx s) := by
  intro p hp
  rcases mem_set hp with rfl | hp
  · exact hs
  · exact ht p hp

theorem regular_get? {n idx : ℕ} {table : PageTable} {s : Slot} (ht : Regular n table)
    (h : get? table idx = some s) : RegularSlot n s := ht _ (mem_of_get? h)

theorem mapPage_regular {n vaddr paddr : ℕ} {bits : PageEntryBits} {table t : PageTable}
    {free free' : List ℕ} (ht : Regular n table)
    (h : mapPage vaddr paddr bits 0 n table free = some (t, free')) : Regular n t := by
  induction n generalizing table t free free' with
  | zero =>
    simp only [mapPage, Option.map_eq_some_iff, Prod.mk.injEq] at h
    obtain ⟨t', ht', rfl, rfl⟩ := h
    obtain ⟨hx, rfl, _⟩ := mapLeaf_eq ht'
    exact regular_set ht (fun _ => hx)
  | succ n ih =>
    obtain ⟨e, next, t', free₀, hv, hex, hrec, rfl, hslot⟩ := mapPage_succ h
    refine regular_set ht (fun _ => ⟨hex, ?_⟩)
    rcases hslot with ⟨hg, rfl⟩ | ⟨_, rfl, rfl⟩
    · exact ih (regular_get? ht hg hv).2 hrec
    · exact ih (by simp [Regular]) hrec

theorem setEntry_regular {n vaddr : ℕ} {table : PageTable} {new : PageTableEntry}
    (hnew : new.v = true → new.rwx = true) (ht : Regular n table) :
    Regular n (setEntry n table vaddr new) := by
  induction n generalizing table with
  | zero =>
    simp only [setEntry]
    split
    · split_ifs
      · exact regular_set ht hnew
      · exact ht
    · exact ht
  | succ n ih =>
    simp only [setEntry]
    cases hg : get? table (vpn (n + 1) vaddr) with
    | none => exact ht
    | some s =>
      obtain ⟨e, next⟩ := s
      have hs := regular_get? ht hg
      simp only
      split_ifs with hv hx
      · exact absurd hx (by simp [(hs hv).1])
      · exact regular_set ht (fun _ => ⟨(hs hv).1, ih (hs hv).2⟩)
      · exact ht

/-- In a regular table an address lies in the page of the entry found for it. -/
theorem unsafeVirtToPhys_of_regular {n vaddr : ℕ} {table : PageTable} {e : PageTableEntry}
    (ht : Regular n table) (h : virtToEntry n table vaddr = some e) :
    unsafeVirtToPhys n table vaddr = e.paddr * pageSize + vaddr % pageSize := by
  induction n generalizing table with
  | zero =>
    simp only [virtToEntry, unsafeVirtToPhys] at h ⊢
    split at h
    · split_ifs at h with hc
      cases h
      rw [if_pos hc]
    · cases h
  | succ n ih =>
    simp only [virtToEntry, unsafeVirtToPhys] at h ⊢
    cases hg : get? table (vpn (n + 1) vaddr) with
    | none => simp [hg] at h
    | some s =>
      obtain ⟨e', next⟩ := s
      have hs := regular_get? ht hg
      simp only [hg] at h ⊢
      split_ifs at h with hv hx
      · exact absurd hx (by simp [(hs hv).1])
      · simp only [if_pos hv, if_neg hx]
        exact ih (hs hv).2 h

end Regular

section AllPages
variable {callback : PageTableEntry → ℕ → PageTableEntry}

/-- A callback that keeps leaves valid leaves acts on each leaf by itself. -/
theorem slotLeaves_allSlotsDo (hcb : ∀ e va, e.v = true → e.rwx = true →
      (callback e va).v = true ∧ (callback e va).rwx = true)
    {n base : ℕ} {s : Slot} (hs : RegularSlot n s) :
    slotLeaves n base (allSlotsDo callback n base s) =
        (slotLeaves n base s).map (fun p => (p.1, callback p.2 p.1)) ∧
      RegularSlot n (allSlotsDo callback n base s) := by
  induction n generalizing base s with
  | zero =>
    obtain ⟨e, next⟩ := s
    simp only [allSlotsDo]
    cases hv : e.v with
    | false => simp [slotLeaves, RegularSlot, hv]
    | true =>
      have h := hcb e base hv (hs hv)
      simp [slotLeaves, RegularSlot, hv, hs hv, h]
  | succ n ih =>
    obtain ⟨e, next⟩ := s
    simp only [allSlotsDo]
    cases hv : e.v with
    | false => simp [slotLeaves, RegularSlot, hv]
    | true =>
      obtain ⟨hx, hnext⟩ := hs hv
      simp only [hx, if_true, Bool.false_eq_true, if_false]
      refine ⟨?_, fun _ => ⟨hx, fun p hp => ?_⟩⟩
      · simp only [slotLeaves, hv, hx, if_true, Bool.false_eq_true, if_false, List.flatMap_map,
          List.map_flatMap]
        apply List.flatMap_congr
        intro p hp
        exact (ih (hnext p hp)).1
      · obtain ⟨q, hq, rfl⟩ := List.mem_map.mp hp
        exact (ih (hnext q hq)).2

theorem leaves_allPagesDo (hcb : ∀ e va, e.v = true → e.rwx = true →
      (callback e va).v = true ∧ (callback e va).rwx = true)
    {root : PageTable} (hr : Regular 2 root) :
    leaves (allPagesDo root callback) = (leaves root).map (fun p => (p.1, callback p.2 p.1)) ∧
      Regular 2 (allPagesDo root callback) := by
  constructor
  · simp only [leaves, leavesFrom, allPagesDo, List.flatMap_map, List.map_flatMap]
    apply List.flatMap_congr
    intro p hp
    rw [Nat.zero_add]
    exact (slotLeaves_allSlotsDo hcb (hr p hp)).1
  · intro p hp
    obtain ⟨q, hq, rfl⟩ := List.mem_map.mp hp
    exact (slotLeaves_allSlotsDo hcb (hr q hq)).2

end AllPages

section Tables

theorem slotTables_branch {n : ℕ} {e : PageTableEntry} {next : PageTable} (hv : e.v = true)
    (hx : e.rwx = false) : slotTables (n + 1) (.mk e next) = e.paddr :: tablesFrom n next := by
  simp [slotTables, tablesFrom, hv, hx]

theorem slotTables_not_branch {n : ℕ} {e : PageTableEntry} {next : PageTable}
    (h : e.v = true → e.rwx = true) : slotTables n (.mk e next) = [] := by
  cases n with
  | zero => rfl
  | succ n =>
    cases hv : e.v with
    | false => simp [slotTables, hv]
    | true => simp [slotTables, hv, h hv]

theorem tablesFrom_set {n idx : ℕ} {table : PageTable} {s : Slot} (h : get? table idx = some s) :
    ∃ l r, tablesFrom n table = l ++ slotTables n s ++ r ∧
      ∀ s', tablesFrom n (set table idx s') = l ++ slotTables n s' ++ r := by
  obtain ⟨p, q, hl, hs, _⟩ := split_of_get? h
  refine ⟨tablesFrom n p, tablesFrom n q, ?_, fun s' => ?_⟩
  · nth_rewrite 1 [hl]
    simp [tablesFrom]
  · rw [hs]
    simp [tablesFrom]

theorem tablesFrom_set_none {n idx : ℕ} {table : PageTable} (h : get? table idx = none) :
    ∃ l r, tablesFrom n table = l ++ r ∧
      ∀ s', tablesFrom n (set table idx s') = l ++ slotTables n s' ++ r := by
  obtain ⟨p, q, hl, hs⟩ := split_of_get?_none h
  refine ⟨tablesFrom n p, tablesFrom n q, ?_, fun s' => ?_⟩
  · nth_rewrite 1 [hl]
    simp [tablesFrom]
  · rw [hs]
    simp [tablesFrom]

theorem setEntry_tables (n vaddr : ℕ) (table : PageTable) {new : PageTableEntry}
    (hnew : new.v = true → new.rwx = true) :
    tablesFrom n (setEntry n table vaddr new) = tablesFrom n table := by
  induction n generalizing table with
  | zero =>
    have hnil : ∀ t : PageTable, tablesFrom 0 t = [] := by simp [tablesFrom, slotTables]
    rw [hnil, hnil]
  | succ n ih =>
    simp only [setEntry]
    cases hg : get? table (vpn (n + 1) vaddr) with
    | none => rfl
    | some s =>
      obtain ⟨e, next⟩ := s
      obtain ⟨l, r, h1, h2⟩ := tablesFrom_set (n := n + 1) hg
      simp only
      split_ifs with hv hx
      · rw [h2, h1, slotTables_not_branch hnew, slotTables_not_branch (fun _ => hx)]
      · have hx : e.rwx = false := by simpa using hx
        rw [h2, h1, slotTables_branch hv hx, slotTables_branch hv hx, ih]
      · rfl

/-- The table pages that mapping a page adds are the frames it takes. -/
theorem mapPage_tables {n vaddr paddr : ℕ} {bits : PageEntryBits} {table t : PageTable}
    {free free' : List ℕ}
    (h : mapPage vaddr paddr bits 0 n table free = some (t, free')) (f : ℕ) :
    (tablesFrom n t).count f + free'.count f = (tablesFrom n table).count f + free.count f := by
  induction n generalizing table t free free' with
  | zero =>
    simp only [mapPage, Option.map_eq_some_iff, Prod.mk.injEq] at h
    obtain ⟨t', _, rfl, rfl⟩ := h
    have hnil : ∀ t : PageTable, tablesFrom 0 t = [] := by simp [tablesFrom, slotTables]
    rw [hnil, hnil]
  | succ n ih =>
    obtain ⟨e, next, t', free₀, hv, hex, hrec, rfl, hslot⟩ := mapPage_succ h
    have hcount := ih hrec
    rcases hslot with ⟨hg, rfl⟩ | ⟨hinv, rfl, rfl⟩
    · obtain ⟨l, r, h1, h2⟩ := tablesFrom_set (n := n + 1) hg
      rw [h2, h1, slotTables_branch hv hex, slotTables_branch hv hex]
      simp only [List.count_append, List.count_cons]
      omega
    · have hnil : tablesFrom n [] = [] := rfl
      rw [hnil] at hcount
      have hsplit : ∃ l r, tablesFrom (n + 1) table = l ++ r ∧
          ∀ s', tablesFrom (n + 1) (set table (vpn (n + 1) vaddr) s') =
            l ++ slotTables (n + 1) s' ++ r := by
        cases hg : get? table (vpn (n + 1) vaddr) with
        | none => exact tablesFrom_set_none hg
        | some s =>
          obtain ⟨e₀, next₀⟩ := s
          obtain ⟨l, r, h1, h2⟩ := tablesFrom_set (n := n + 1) hg
          rw [slotTables_not_branch (by simp [hinv e₀ next₀ hg])] at h1
          exact ⟨l, r, by simpa using h1, h2⟩
      obtain ⟨l, r, h1, h2⟩ := hsplit
      rw [h2, h1, slotTables_branch hv hex]
      simp only [List.count_append, List.count_cons, List.count_nil] at hcount ⊢
      omega

theorem slotTables_allSlotsDo {callback : PageTableEntry → ℕ → PageTableEntry}
    {n base : ℕ} {s : Slot} (hs : RegularSlot n s) :
    slotTables n (allSlotsDo callback n base s) = slotTables n s := by
  induction n generalizing base s with
  | zero => rfl
  | succ n ih =>
    obtain ⟨e, next⟩ := s
    simp only [allSlotsDo]
    cases hv : e.v with
    | false => simp
    | true =>
      obtain ⟨hx, hnext⟩ := hs hv
      simp only [hx, if_true, Bool.false_eq_true, if_false]
      rw [slotTables_branch hv hx, slotTables_branch hv hx]
      congr 1
      simp only [tablesFrom, List.flatMap_map]
      apply List.flatMap_congr
      intro p hp
      exact ih (hnext p hp)

theorem tables_allPagesDo {callback : PageTableEntry → ℕ → PageTableEntry}
    {root : PageTable} (hr : Regular 2 root) :
    tablesFrom 2 (allPagesDo root callback) = tablesFrom 2 root := by
  simp only [tablesFrom, allPagesDo, List.flatMap_map]
  apply List.flatMap_congr
  intro p hp
  exact slotTables_allSlotsDo (hr p hp)

end Tables

theorem leaves_valid {n base : ℕ} {s : Slot} {p : ℕ × PageTableEntry}
    (h : p ∈ slotLeaves n base s) : p.2.v = true ∧ p.2.rwx = true := by
  induction n generalizing base s with
  | zero =>
    obtain ⟨e, next⟩ := s
    simp only [slotLeaves] at h
    split_ifs at h with hc
    · rw [List.mem_singleton] at h
      simpa [h] using hc
    · simp at h
  | succ n ih =>
    obtain ⟨e, next⟩ := s
    simp only [slotLeaves] at h
    split_ifs at h with hv hx
    · rw [List.mem_singleton] at h
      simp [h, hv, hx]
    · obtain ⟨q, _, hq⟩ := List.mem_flatMap.mp h
      exact ih hq
    · simp at h

end SomeOs.Paging
