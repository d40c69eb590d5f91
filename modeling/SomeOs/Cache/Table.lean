import SomeOs.Base.RobinHood
import SomeOs.Memory.PageRef

/-! # The table of cached blocks

The blocks of a device that are cached are in a Robin Hood table. A pointer to a block is the slot that it
is in, and a buffer is its address. A loop that does not end has no result.
-/
namespace SomeOs.Cache
open RobinHood

abbrev minTableCapacity : ℕ := 32

/-- `MAX_PRIORITY / 2` -/
abbrev defaultPriority : ℕ := 20

structure CachedBlock where
  offset : ℕ
  priority : ℕ
  bytes : ℕ
  deriving DecidableEq

structure CachedBlockTable where
  blocks : ℕ → Option CachedBlock
  count : ℕ
  capacity : ℕ

def CachedBlock.hash (b : CachedBlock) : ℕ := PageRef.hashInt64 b.offset

def lookupCachedBlock (blocks : ℕ → Option CachedBlock) (size offset : ℕ) : Option (Option ℕ) :=
  find CachedBlock.offset CachedBlock.hash blocks size offset size (PageRef.hashInt64 offset % size) 0

def insertCachedBlock (blocks : ℕ → Option CachedBlock) (size : ℕ) (block : CachedBlock) : Option (ℕ → Option CachedBlock) :=
  insertAt CachedBlock.offset CachedBlock.hash size size blocks (PageRef.hashInt64 block.offset % size) 0 block

def removeCachedBlock (blocks : ℕ → Option CachedBlock) (size offset : ℕ) :
    Option (Option CachedBlock × (ℕ → Option CachedBlock)) :=
  (find CachedBlock.offset CachedBlock.hash blocks size offset size (PageRef.hashInt64 offset % size) 0).bind fun
  | none => some (none, blocks)
  | some idx => (shiftBack CachedBlock.hash size size blocks idx).map fun blocks' => (blocks idx, blocks')

/-- One round of the loop of `rebuildTable`. -/
def rebuildStep (blocks : ℕ → Option CachedBlock) (new_size : ℕ) (new_blocks : ℕ → Option CachedBlock) (i : ℕ) :
    Option (ℕ → Option CachedBlock) :=
  match blocks i with
  | some block => insertCachedBlock new_blocks new_size block
  | none => some new_blocks

def rebuildTable (table : CachedBlockTable) (new_size : ℕ) : Option CachedBlockTable :=
  ((List.range table.capacity).foldlM (rebuildStep table.blocks new_size) fun _ => none).map fun new_blocks =>
    { table with blocks := new_blocks, capacity := new_size }

/-- The first loop of `testForResize`. -/
def shrink (count : ℕ) : ℕ → ℕ → Option ℕ
  | 0, _ => none
  | fuel + 1, new_size =>
    if minTableCapacity < new_size ∧ count * 4 < new_size then shrink count fuel (new_size / 2) else some new_size

/-- The second loop of `testForResize`. -/
def grow (count : ℕ) : ℕ → ℕ → Option ℕ
  | 0, _ => none
  | fuel + 1, new_size => if new_size * 2 < count * 3 then grow count fuel (new_size * 3 / 2) else some new_size

def testForResize (table : CachedBlockTable) : Option CachedBlockTable :=
  (shrink table.count (table.capacity + 1) table.capacity).bind fun new_size =>
  (grow table.count (table.count * 3 + 1) (if new_size < minTableCapacity then minTableCapacity else new_size)).bind
    fun new_size =>
  if new_size ≠ table.capacity then rebuildTable table new_size else some table

def insertIntoTable (table : CachedBlockTable) (offset bytes : ℕ) : Option CachedBlockTable :=
  (testForResize table).bind fun table =>
  (insertCachedBlock table.blocks table.capacity ⟨offset, defaultPriority, bytes⟩).map fun blocks =>
    { table with blocks := blocks, count := table.count + 1 }

def getFromTable (table : CachedBlockTable) (offset : ℕ) : Option (Option ℕ) :=
  if table.count = 0 then some none else lookupCachedBlock table.blocks table.capacity offset

def CachedBlock.lowered (b : CachedBlock) : CachedBlock := if 0 < b.priority then { b with priority := b.priority - 1 } else b

/-- A block that is read gets a lower priority number, so that it is kept longer. -/
def lowerPriority (table : CachedBlockTable) (idx : ℕ) : CachedBlockTable :=
  { table with blocks := Function.update table.blocks idx ((table.blocks idx).map CachedBlock.lowered) }

/-- The loop of `reclaimFunction`, with the blocks that are freed. -/
def reclaimLoop (priority : ℕ) : ℕ → ℕ → CachedBlockTable → List CachedBlock → Option (CachedBlockTable × List CachedBlock)
  | 0, _, _, _ => none
  | fuel + 1, i, table, freed =>
    if i < table.capacity then
      match table.blocks i with
      | some block =>
        if priority ≤ block.priority then
          (removeCachedBlock table.blocks table.capacity block.offset).bind fun r =>
          reclaimLoop priority fuel i { table with blocks := r.2, count := table.count - 1 } (freed ++ [block])
        else
          reclaimLoop priority fuel (i + 1)
            { table with blocks := Function.update table.blocks i (some { block with priority := block.priority + 1 }) } freed
      | none => reclaimLoop priority fuel (i + 1) table freed
    else some (table, freed)

def reclaimFunction (priority : ℕ) (table : CachedBlockTable) : Option ((List CachedBlock × Bool) × CachedBlockTable) :=
  (reclaimLoop priority (table.capacity + table.count + 1) 0 table []).bind fun r =>
  (testForResize r.1).map fun table => ((r.2, decide (r.2.length ≠ 0)), table)

def emptyTable : CachedBlockTable := ⟨fun _ => none, 0, 0⟩

/-- The table has the blocks of a map from offsets. -/
structure TableInv (table : CachedBlockTable) (m : ℕ → Option CachedBlock) (K : Finset ℕ) : Prop where
  wf : Wf CachedBlock.offset CachedBlock.hash table.capacity table.blocks
  holds : ∀ b, Holds table.capacity table.blocks b ↔ m b.offset = some b
  offset : ∀ o b, m o = some b → b.offset = o
  keys : ∀ o, o ∈ K ↔ m o ≠ none
  count : table.count = K.card
  room : table.capacity = 0 ∧ table.count = 0 ∨ table.count < table.capacity

theorem emptyTable_inv : TableInv emptyTable (fun _ => none) ∅ :=
  ⟨wf_empty, by simp [Holds, emptyTable], by simp, by simp, rfl, Or.inl ⟨rfl, rfl⟩⟩

section Lookup
variable {table : CachedBlockTable} {m : ℕ → Option CachedBlock} {K : Finset ℕ} {b : CachedBlock}

theorem TableInv.key_mem (h : TableInv table m K) (hb : Holds table.capacity table.blocks b) : b.offset ∈ K := by
  rw [h.keys, (h.holds b).mp hb]
  exact Option.some_ne_none b

theorem TableInv.exists_empty (h : TableInv table m K) (hpos : 0 < table.capacity) :
    ∃ e < table.capacity, table.blocks e = none := by
  refine h.wf.exists_empty (fun b hb => h.key_mem hb) ?_
  have := h.count
  have := h.room
  omega

/-- A lookup finds the slot of the block, or no slot when no block has the offset. -/
theorem getFromTable_spec (h : TableInv table m K) (offset : ℕ) :
    (∃ i b, i < table.capacity ∧ table.blocks i = some b ∧ m offset = some b ∧ getFromTable table offset = some (some i)) ∨
      m offset = none ∧ getFromTable table offset = some none := by
  unfold getFromTable
  by_cases hcount : table.count = 0
  · rw [if_pos hcount]
    refine Or.inr ⟨?_, rfl⟩
    by_contra hne
    have hK : K = ∅ := Finset.card_eq_zero.mp (h.count ▸ hcount)
    rw [← ne_eq, ← h.keys, hK] at hne
    exact absurd hne (Finset.notMem_empty offset)
  · rw [if_neg hcount]
    have hpos : 0 < table.capacity := by
      have := h.room
      omega
    rcases h.wf.find (h.exists_empty hpos) (k := offset) (h := PageRef.hashInt64 offset)
      (fun b hb => by rw [CachedBlock.hash, hb]) with
      ⟨i, b, hi, hb, hkey, hfind⟩ | ⟨habsent, hfind⟩
    · refine Or.inl ⟨i, b, hi, hb, ?_, hfind⟩
      rw [← hkey]
      exact (h.holds b).mp ⟨i, hi, hb⟩
    · refine Or.inr ⟨?_, hfind⟩
      by_contra hne
      obtain ⟨b, hb⟩ := Option.ne_none_iff_exists'.mp hne
      have hoffset := h.offset offset b hb
      exact habsent b ((h.holds b).mpr (by rw [hoffset, hb])) hoffset

end Lookup

section Resize
variable {table : CachedBlockTable} {m : ℕ → Option CachedBlock} {K : Finset ℕ} {size i : ℕ}

structure Copied (blocks new_blocks : ℕ → Option CachedBlock) (size i : ℕ) : Prop where
  wf : Wf CachedBlock.offset CachedBlock.hash size new_blocks
  holds : ∀ b, Holds size new_blocks b ↔ ∃ j < i, blocks j = some b

theorem exists_lt_succ {P : ℕ → Prop} : (∃ j < i + 1, P j) ↔ P i ∨ ∃ j < i, P j := by
  constructor
  · rintro ⟨j, hj, hP⟩
    rcases Nat.lt_succ_iff_lt_or_eq.mp hj with hj | rfl
    · exact Or.inr ⟨j, hj, hP⟩
    · exact Or.inl hP
  · rintro (hP | ⟨j, hj, hP⟩)
    · exact ⟨i, Nat.lt_succ_self i, hP⟩
    · exact ⟨j, Nat.lt_succ_of_lt hj, hP⟩

theorem rebuildStep_copied (h : TableInv table m K) (hsize : K.card < size) (hi : i < table.capacity)
    {new : ℕ → Option CachedBlock} (hnew : Copied table.blocks new size i) :
    ∃ new', rebuildStep table.blocks size new i = some new' ∧ Copied table.blocks new' size (i + 1) := by
  unfold rebuildStep
  cases hslot : table.blocks i with
  | none => exact ⟨new, rfl, hnew.wf, fun b => by rw [hnew.holds, exists_lt_succ, hslot]; simp⟩
  | some block =>
    have habsent : ∀ b, Holds size new b → b.offset ≠ block.offset := by
      intro b hb heq
      obtain ⟨j, hj, hb⟩ := (hnew.holds b).mp hb
      have := h.wf.unique j i b block (by omega) hi hb hslot heq
      omega
    have hempty := hnew.wf.exists_empty (K := K) (fun b hb => by
      obtain ⟨j, hj, hb⟩ := (hnew.holds b).mp hb
      exact h.key_mem ⟨j, by omega, hb⟩) hsize
    obtain ⟨new', hins, hwf, hholds⟩ := hnew.wf.insert habsent hempty
    refine ⟨new', hins, hwf, fun b => ?_⟩
    rw [hholds, exists_lt_succ, hslot, hnew.holds, Option.some_inj, eq_comm]

theorem rebuild_copied (h : TableInv table m K) (hsize : K.card < size) (hi : i ≤ table.capacity) :
    ∃ new, (List.range i).foldlM (rebuildStep table.blocks size) (fun _ => none) = some new ∧ Copied table.blocks new size i := by
  induction i with
  | zero => exact ⟨_, rfl, wf_empty, fun b => by simp [Holds]⟩
  | succ i ih =>
    obtain ⟨new, hfold, hnew⟩ := ih (by omega)
    obtain ⟨new', hstep, hnew'⟩ := rebuildStep_copied h hsize (by omega) hnew
    refine ⟨new', ?_, hnew'⟩
    rw [List.range_succ, List.foldlM_append, hfold]
    simp [hstep]

theorem rebuildTable_spec (h : TableInv table m K) (hsize : table.count < size) :
    ∃ table', rebuildTable table size = some table' ∧ TableInv table' m K ∧ table'.capacity = size := by
  have hcount := h.count
  obtain ⟨new, hfold, hnew⟩ := rebuild_copied h (show K.card < size by omega) le_rfl
  refine ⟨{ table with blocks := new, capacity := size }, by rw [rebuildTable, hfold]; rfl,
    ⟨hnew.wf, fun b => ?_, h.offset, h.keys, hcount, Or.inr hsize⟩, rfl⟩
  exact (hnew.holds b).trans (h.holds b)

theorem shrink_ends {count fuel : ℕ} (hfuel : size < fuel) : ∃ size', shrink count fuel size = some size' := by
  induction fuel generalizing size with
  | zero => omega
  | succ fuel ih =>
    unfold shrink
    split
    · exact ih (by omega)
    · exact ⟨size, rfl⟩

theorem grow_spec {count fuel : ℕ} (hsize : minTableCapacity ≤ size) (hfuel : count * 3 < fuel + size) :
    ∃ size', grow count (fuel + 1) size = some size' ∧ minTableCapacity ≤ size' ∧ count * 3 ≤ size' * 2 := by
  have hmin : minTableCapacity = 32 := rfl
  induction fuel generalizing size with
  | zero => exact ⟨size, by rw [grow, if_neg (by omega)], hsize, by omega⟩
  | succ fuel ih =>
    unfold grow
    split
    · exact ih (by omega) (by omega)
    · exact ⟨size, rfl, hsize, by omega⟩

theorem testForResize_spec (h : TableInv table m K) :
    ∃ table', testForResize table = some table' ∧ TableInv table' m K ∧ table'.count + 1 < table'.capacity := by
  have hcapacity : minTableCapacity = 32 := rfl
  obtain ⟨s1, hshrink⟩ := @shrink_ends table.capacity table.count (table.capacity + 1) (by omega)
  obtain ⟨s2, hgrow, hmin, hload⟩ := @grow_spec (if s1 < minTableCapacity then minTableCapacity else s1) table.count
    (table.count * 3) (by split <;> omega) (by split <;> omega)
  rw [testForResize, hshrink, Option.bind_some, hgrow, Option.bind_some]
  split
  · obtain ⟨table', hrebuild, hinv, hcap⟩ := rebuildTable_spec h (show table.count < s2 by omega)
    refine ⟨table', hrebuild, hinv, ?_⟩
    rw [hcap, hinv.count, ← h.count]
    omega
  · exact ⟨table, rfl, h, by omega⟩

theorem insertIntoTable_spec (h : TableInv table m K) {offset : ℕ} (habsent : m offset = none) (bytes : ℕ) :
    ∃ table', insertIntoTable table offset bytes = some table' ∧
      TableInv table' (Function.update m offset (some ⟨offset, defaultPriority, bytes⟩)) (insert offset K) := by
  obtain ⟨t, hresize, ht, hroom⟩ := testForResize_spec h
  have hnew : ∀ b, Holds t.capacity t.blocks b → b.offset ≠ offset := by
    rintro b hb rfl
    rw [(ht.holds b).mp hb] at habsent
    cases habsent
  obtain ⟨blocks, hins, hwf, hholds⟩ := @Wf.insert _ _ _ _ _ _ _ ⟨offset, defaultPriority, bytes⟩ ht.wf hnew
    (ht.exists_empty (by omega))
  have hK : offset ∉ K := by
    rw [ht.keys, not_not]
    exact habsent
  refine ⟨{ t with blocks := blocks, count := t.count + 1 }, ?_, hwf, fun b => ?_, fun o b => ?_, fun o => ?_, ?_, Or.inr hroom⟩
  · rw [insertIntoTable, hresize, Option.bind_some, insertCachedBlock]
    exact congrArg (Option.map _) hins
  · rw [hholds, ht.holds]
    by_cases hb : b.offset = offset
    · rw [hb, Function.update_self, habsent, Option.some_inj]
      simp [eq_comm]
    · rw [Function.update_of_ne hb, or_iff_right]
      rintro rfl
      exact hb rfl
  · by_cases ho : o = offset
    · rw [ho, Function.update_self]
      rintro ⟨⟩
      rfl
    · rw [Function.update_of_ne ho]
      exact ht.offset o b
  · by_cases ho : o = offset
    · simp [ho]
    · rw [Function.update_of_ne ho, Finset.mem_insert, ← ht.keys]
      simp [ho]
  · rw [Finset.card_insert_of_notMem hK, ← ht.count]

end Resize

section Reclaim
variable {table : CachedBlockTable} {m m₀ : ℕ → Option CachedBlock} {K : Finset ℕ} {i : ℕ} {x y : CachedBlock}
  {freed : List CachedBlock}

theorem TableInv.map_eq (h : TableInv table m K) (hi : i < table.capacity) (hx : table.blocks i = some x) : m x.offset = some x :=
  (h.holds x).mp ⟨i, hi, hx⟩

/-- A block may be replaced by another one with its offset. -/
theorem TableInv.replaced (h : TableInv table m K) (hi : i < table.capacity) (hx : table.blocks i = some x)
    (hy : y.offset = x.offset) :
    TableInv { table with blocks := Function.update table.blocks i (some y) } (Function.update m x.offset (some y)) K := by
  have hm := h.map_eq hi hx
  obtain ⟨hwf, hholds⟩ := h.wf.replace hi hx hy (by rw [CachedBlock.hash, CachedBlock.hash, hy])
  refine ⟨hwf, fun b => ?_, fun o b => ?_, fun o => ?_, h.count, h.room⟩
  · rw [hholds, h.holds]
    by_cases hb : b.offset = x.offset
    · rw [hb, Function.update_self, Option.some_inj]
      simp [eq_comm]
    · rw [Function.update_of_ne hb, or_iff_right, and_iff_left hb]
      rintro rfl
      exact hb hy
  · by_cases ho : o = x.offset
    · rw [ho, Function.update_self]
      rintro ⟨⟩
      exact hy
    · rw [Function.update_of_ne ho]
      exact h.offset o b
  · by_cases ho : o = x.offset
    · rw [ho, Function.update_self, h.keys, hm]
      simp
    · rw [Function.update_of_ne ho]
      exact h.keys o

theorem removeCachedBlock_spec (h : TableInv table m K) (hi : i < table.capacity) (hx : table.blocks i = some x) :
    ∃ blocks, removeCachedBlock table.blocks table.capacity x.offset = some (some x, blocks) ∧
      TableInv { table with blocks := blocks, count := table.count - 1 } (Function.update m x.offset none) (K.erase x.offset) ∧
      ∀ j b, i < j → j < table.capacity → table.blocks j = some b → ∃ j' < table.capacity, i ≤ j' ∧ blocks j' = some b := by
  have hempty := h.exists_empty (by omega)
  have hm := h.map_eq hi hx
  have hmem := h.key_mem ⟨i, hi, hx⟩
  obtain ⟨blocks, hshift, hwf, hholds, hahead⟩ := h.wf.remove hempty hi hx
  have hfind : find CachedBlock.offset CachedBlock.hash table.blocks table.capacity x.offset table.capacity
      (PageRef.hashInt64 x.offset % table.capacity) 0 = some (some i) := by
    rcases h.wf.find hempty (k := x.offset) (h := PageRef.hashInt64 x.offset) (fun b hb => by rw [CachedBlock.hash, hb]) with
      ⟨j, b, hj, hb, hkey, hfind⟩ | ⟨habsent, -⟩
    · rwa [h.wf.unique j i b x hj hi hb hx hkey] at hfind
    · exact absurd rfl (habsent x ⟨i, hi, hx⟩)
  refine ⟨blocks, ?_, ⟨hwf, fun b => ?_, fun o b => ?_, fun o => ?_, ?_, ?_⟩, hahead⟩
  · rw [removeCachedBlock, hfind, Option.bind_some]
    simp only [hshift, Option.map_some, hx]
  · rw [hholds, h.holds]
    by_cases hb : b.offset = x.offset
    · simp [hb]
    · rw [Function.update_of_ne hb, and_iff_left hb]
  · by_cases ho : o = x.offset
    · simp [ho]
    · rw [Function.update_of_ne ho]
      exact h.offset o b
  · by_cases ho : o = x.offset
    · simp [ho]
    · rw [Function.update_of_ne ho, ← h.keys, Finset.mem_erase, and_iff_right ho]
  · rw [Finset.card_erase_of_mem hmem, h.count]
  · have hroom := h.room
    dsimp only
    omega

/-- A map from which blocks have been freed. The others may have got higher priority numbers. -/
structure Reclaimed (m₀ m : ℕ → Option CachedBlock) (freed : List CachedBlock) : Prop where
  kept : ∀ o b, m o = some b → ∃ b₀, m₀ o = some b₀ ∧ b.offset = b₀.offset ∧ b.bytes = b₀.bytes ∧ b₀.priority ≤ b.priority
  bytes : ∀ b ∈ freed, ∃ b₀, m₀ b.offset = some b₀ ∧ b.bytes = b₀.bytes
  exactly : ∀ o, o ∈ freed.map CachedBlock.offset ↔ m₀ o ≠ none ∧ m o = none
  once : (freed.map CachedBlock.offset).Nodup

theorem Reclaimed.refl (m : ℕ → Option CachedBlock) : Reclaimed m m [] :=
  ⟨fun _ b hb => ⟨b, hb, rfl, rfl, le_rfl⟩, by simp, by simp, by simp⟩

theorem Reclaimed.remove (h : Reclaimed m₀ m freed) (hx : m x.offset = some x) :
    Reclaimed m₀ (Function.update m x.offset none) (freed ++ [x]) := by
  obtain ⟨b₀, hb₀, -, hbytes, -⟩ := h.kept _ x hx
  refine ⟨fun o b hb => ?_, fun b hb => ?_, fun o => ?_, ?_⟩
  · by_cases ho : o = x.offset
    · rw [ho, Function.update_self] at hb
      cases hb
    · rw [Function.update_of_ne ho] at hb
      exact h.kept o b hb
  · rcases List.mem_append.mp hb with hb | hb
    · exact h.bytes b hb
    · rw [List.mem_singleton.mp hb]
      exact ⟨b₀, hb₀, hbytes⟩
  · rw [List.map_append, List.mem_append, h.exactly]
    by_cases ho : o = x.offset
    · simp [ho, hb₀]
    · rw [Function.update_of_ne ho]
      simp [ho]
  · rw [List.map_append, List.nodup_append']
    refine ⟨h.once, by simp, ?_⟩
    rw [List.map_singleton, List.disjoint_singleton, h.exactly, hx]
    simp

theorem Reclaimed.raise (h : Reclaimed m₀ m freed) (hx : m x.offset = some x) :
    Reclaimed m₀ (Function.update m x.offset (some { x with priority := x.priority + 1 })) freed := by
  obtain ⟨b₀, hb₀, hoffset, hbytes, hle⟩ := h.kept _ x hx
  refine ⟨fun o b hb => ?_, h.bytes, fun o => ?_, h.once⟩
  · by_cases ho : o = x.offset
    · rw [ho, Function.update_self] at hb
      cases hb
      exact ⟨b₀, ho ▸ hb₀, hoffset, hbytes, Nat.le_succ_of_le hle⟩
    · rw [Function.update_of_ne ho] at hb
      exact h.kept o b hb
  · rw [h.exactly]
    by_cases ho : o = x.offset
    · rw [ho, Function.update_self, hx]
      simp
    · rw [Function.update_of_ne ho]

/-- The blocks that have to be freed are freed already, or in slots that the loop still gets to. The blocks behind a block that is
removed move to slots that are not passed yet, or from the first slots to the last one. -/
def ToFree (priority : ℕ) (m₀ m : ℕ → Option CachedBlock) (table : CachedBlockTable) (i : ℕ) : Prop :=
  ∀ o b, m₀ o = some b → priority ≤ b.priority → m o = none ∨ ∃ j < table.capacity, i ≤ j ∧ table.blocks j = some b

theorem reclaimLoop_spec {priority fuel : ℕ} (hm₀ : ∀ o b, m₀ o = some b → b.offset = o) (h : TableInv table m K)
    (hr : Reclaimed m₀ m freed) (hfree : ToFree priority m₀ m table i) (hfuel : table.capacity - i + table.count < fuel) :
    ∃ table' m' K' freed', reclaimLoop priority fuel i table freed = some (table', freed') ∧ TableInv table' m' K' ∧
      Reclaimed m₀ m' freed' ∧ ∀ o b, m₀ o = some b → priority ≤ b.priority → m' o = none := by
  induction fuel generalizing table m K i freed with
  | zero => omega
  | succ fuel ih =>
    unfold reclaimLoop
    split
    · next hi =>
      cases hx : table.blocks i with
      | none =>
        refine ih h hr (fun o b hb hle => ?_) (by omega)
        rcases hfree o b hb hle with hnone | ⟨j, hj, hij, hslot⟩
        · exact Or.inl hnone
        · have hne : i ≠ j := by
            rintro rfl
            rw [hx] at hslot
            cases hslot
          exact Or.inr ⟨j, hj, by omega, hslot⟩
      | some x =>
        have hmap := h.map_eq hi hx
        simp only
        split
        · next hle =>
          obtain ⟨blocks, hremove, hinv, hahead⟩ := removeCachedBlock_spec h hi hx
          have hcount : 0 < table.count := by
            rw [h.count]
            exact Finset.card_pos.mpr ⟨_, h.key_mem ⟨i, hi, hx⟩⟩
          rw [hremove, Option.bind_some]
          refine ih hinv (hr.remove hmap) (fun o b hb hle' => ?_) (by dsimp only; omega)
          rcases hfree o b hb hle' with hnone | ⟨j, hj, hij, hslot⟩
          · left
            by_cases ho : o = x.offset
            · rw [ho, Function.update_self]
            · rwa [Function.update_of_ne ho]
          · rcases Nat.lt_or_eq_of_le hij with hlt | rfl
            · exact Or.inr (hahead j b hlt hj hslot)
            · rw [hx] at hslot
              cases hslot
              rw [← hm₀ o x hb]
              exact Or.inl (Function.update_self ..)
        · next hlt =>
          refine ih (h.replaced hi hx rfl) (hr.raise hmap) (fun o b hb hle => ?_) (by dsimp only; omega)
          rcases hfree o b hb hle with hnone | ⟨j, hj, hij, hslot⟩
          · left
            rw [Function.update_of_ne]
            · exact hnone
            · rintro rfl
              rw [hmap] at hnone
              cases hnone
          · have hne : j ≠ i := by
              rintro rfl
              rw [hx] at hslot
              cases hslot
              exact hlt hle
            exact Or.inr ⟨j, hj, by omega, by dsimp only; rwa [Function.update_of_ne hne]⟩
    · next hi =>
      refine ⟨table, m, K, freed, rfl, h, hr, fun o b hb hle => ?_⟩
      rcases hfree o b hb hle with hnone | ⟨j, hj, hij, -⟩
      · exact hnone
      · omega

theorem reclaimFunction_spec (priority : ℕ) (h : TableInv table m K) :
    ∃ table' m' K' freed, reclaimFunction priority table = some ((freed, decide (freed.length ≠ 0)), table') ∧
      TableInv table' m' K' ∧ Reclaimed m m' freed ∧ ∀ o b, m o = some b → priority ≤ b.priority → m' o = none := by
  have hfree : ToFree priority m m table 0 := by
    intro o b hb hle
    obtain ⟨j, hj, hslot⟩ := (h.holds b).mpr (by rw [h.offset o b hb, hb])
    exact Or.inr ⟨j, hj, Nat.zero_le j, hslot⟩
  obtain ⟨t, m', K', freed, hloop, hinv, hr, hall⟩ := reclaimLoop_spec h.offset h (Reclaimed.refl m) hfree
    (show table.capacity - 0 + table.count < table.capacity + table.count + 1 by omega)
  obtain ⟨table', hresize, hinv', -⟩ := testForResize_spec hinv
  refine ⟨table', m', K', freed, ?_, hinv', hr, hall⟩
  rw [reclaimFunction, hloop, Option.bind_some, hresize, Option.map_some]

end Reclaim

end SomeOs.Cache
