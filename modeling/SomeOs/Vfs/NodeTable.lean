import SomeOs.Base.OpenTable
import SomeOs.Memory.PageRef

/-! # The table of the node cache

The table that finds the nodes of a superblock in memory, with the reference counts that decide which
nodes are in it. Nodes are pointers, and have the ids of their superblock and inode as key. A loop
that does not end and an assertion that fails have no result.
-/
namespace SomeOs.Vfs
open OpenTable

abbrev minTableCapacity : ℕ := 32

/-- `first ^ (second + 0x9e3779b9 + (first << 6) + (first >> 2))` -/
def hashCombine (first second : ℕ) : ℕ := first ^^^ ((second + 0x9e3779b9 + (first <<< 6) % 2 ^ 64 + first >>> 2) % 2 ^ 64)

def vfsNodeKeyHash (key : ℕ × ℕ) : ℕ := hashCombine (PageRef.hashInt64 key.1) (PageRef.hashInt64 key.2)

structure VfsNodeCache (ν : Type) extends Table ν where
  count : ℕ

structure CacheState (ν : Type) where
  cache : VfsNodeCache ν
  ref_count : ν → ℕ

variable {ν : Type}

/-- `vfsCacheInit` -/
def vfsCacheInit : VfsNodeCache ν := ⟨⟨fun _ => .empty, 0⟩, 0⟩

def isIndexValid (table : Table ν) (idx : ℕ) : Bool :=
  match table.slots idx with
  | .node _ => true
  | _ => false

def continueSearch (key : ν → ℕ × ℕ) (k : ℕ × ℕ) (slot : Slot ν) : Bool :=
  match slot with
  | .empty => false
  | .deleted => true
  | .node n => decide (key n ≠ k)

def continueInsertSearch (key : ν → ℕ × ℕ) (table : Table ν) (idx : ℕ) (node : ν) : Bool :=
  match table.slots idx with
  | .node n => decide (key n ≠ key node)
  | _ => false

def insertIndexHashTable (key : ν → ℕ × ℕ) (table : Table ν) (node : ν) : Option ℕ :=
  seek (fun idx => !continueInsertSearch key table idx node) table.capacity (vfsNodeKeyHash (key node) % table.capacity)

/-- One round of the loop of `rebuildHashTable`. -/
def rebuildStep (key : ν → ℕ × ℕ) (table new : Table ν) (i : ℕ) : Option (Table ν) :=
  match table.slots i with
  | .node n => (insertIndexHashTable key new n).map fun idx => new.set idx (.node n)
  | _ => some new

def rebuildHashTable (key : ν → ℕ × ℕ) (cache : VfsNodeCache ν) (new_size : ℕ) : Option (VfsNodeCache ν) :=
  ((List.range cache.capacity).foldlM (rebuildStep key cache.toTable) ⟨fun _ => .empty, new_size⟩).map fun new =>
    { cache with toTable := new }

def testForResize (key : ν → ℕ × ℕ) (cache : VfsNodeCache ν) : Option (VfsNodeCache ν) :=
  if cache.capacity < minTableCapacity then rebuildHashTable key cache minTableCapacity
  else if minTableCapacity < cache.capacity ∧ cache.count * 4 <
    cache.capacity then rebuildHashTable key cache (cache.capacity / 2)
  else if cache.capacity * 2 < cache.count * 3 then rebuildHashTable key cache (cache.capacity + cache.capacity / 2)
  else some cache

/-- The node that is found is moved to the last deleted slot on the way to it. -/
def findIndexHashTable (key : ν → ℕ × ℕ) (cache : VfsNodeCache ν) (k : ℕ × ℕ) : Option (Option ℕ × VfsNodeCache ν) :=
  if cache.count = 0 then some (none, cache)
  else
    let start := vfsNodeKeyHash k % cache.capacity
    (search cache.toTable (fun slot => !continueSearch key k slot) start cache.capacity start none).map fun
    | none => (none, cache)
    | some (idx, first_free) =>
      match cache.slots idx, first_free with
      | .node n, some first_free =>
        (some first_free, { cache with toTable := (cache.toTable.set first_free (.node n)).set idx .deleted })
      | .node _, none => (some idx, cache)
      | _, _ => (none, cache)

def vfsCacheInsertNewNode (key : ν → ℕ × ℕ) (cache : VfsNodeCache ν) (node : ν) : Option (VfsNodeCache ν) :=
  (testForResize key cache).bind fun cache =>
  (insertIndexHashTable key cache.toTable node).bind fun idx =>
  if isIndexValid cache.toTable idx then none
  else some ⟨cache.toTable.set idx (.node node), cache.count + 1⟩

section Calls
variable [DecidableEq ν]

def vfsCacheCopyNode (key : ν → ℕ × ℕ) (s : CacheState ν) (node : ν) : Option (ℕ × CacheState ν) :=
  (if s.ref_count node = 0 then vfsCacheInsertNewNode key s.cache node else some s.cache).map fun cache =>
    (s.ref_count node + 1, ⟨cache, Function.update s.ref_count node (s.ref_count node + 1)⟩)

/-- A node that is found is copied. -/
def vfsCacheGetNodeOrLock (key : ν → ℕ × ℕ) (s : CacheState ν) (k : ℕ × ℕ) : Option (Option ν × CacheState ν) :=
  (findIndexHashTable key s.cache k).bind fun r =>
  match r.1 with
  | none => some (none, { s with cache := r.2 })
  | some idx =>
    match r.2.slots idx with
    | .node found => (vfsCacheCopyNode key { s with cache := r.2 } found).map fun r => (some found, r.2)
    | _ => none

def vfsCacheCloseNode (key : ν → ℕ × ℕ) (s : CacheState ν) (node : ν) : Option (ℕ × CacheState ν) :=
  if s.ref_count node = 0 then none
  else
    let ref_count := Function.update s.ref_count node (s.ref_count node - 1)
    if ref_count node = 0 then
      (findIndexHashTable key s.cache (key node)).bind fun r =>
      match r.1 with
      | none => none
      | some idx =>
        if r.2.slots idx = .node node then
          some (0, ⟨⟨r.2.toTable.set idx .deleted, r.2.count - 1⟩, ref_count⟩)
        else none
    else some (ref_count node, { s with ref_count := ref_count })

inductive CacheCall (ν : Type) where
  | get (k : ℕ × ℕ)
  | copy (node : ν)
  | close (node : ν)

def CacheCall.run (key : ν → ℕ × ℕ) (s : CacheState ν) : CacheCall ν → Option (Option ν × CacheState ν)
  | .get k => vfsCacheGetNodeOrLock key s k
  | .copy node => (vfsCacheCopyNode key s node).map fun r => (none, r.2)
  | .close node => (vfsCacheCloseNode key s node).map fun r => (none, r.2)

def runCalls (key : ν → ℕ × ℕ) : CacheState ν → List (CacheCall ν) → Option (List (Option ν) × CacheState ν)
  | s, [] => some ([], s)
  | s, call :: calls =>
    (call.run key s).bind fun r => (runCalls key r.2 calls).map fun q => (r.1 :: q.1, q.2)

end Calls

structure TableInv (key : ν → ℕ × ℕ) (cache : VfsNodeCache ν) (S : Finset ν) : Prop where
  wf : Wf (fun n => vfsNodeKeyHash (key n)) cache.toTable
  holds : ∀ n, cache.Holds n ↔ n ∈ S
  count : cache.count = S.card
  room : cache.capacity = 0 ∨ cache.count < cache.capacity

section Insert
variable {key : ν → ℕ × ℕ} {t : Table ν} {cache : VfsNodeCache ν} {S : Finset ν} {n : ν}

/-- A node that is not in the table gets a free slot on its way. -/
theorem insertIndexHashTable_spec (hkey : Function.Injective key) (habsent : ¬t.Holds n)
    (hfree : ∃ i < t.capacity, t.Free i) :
    ∃ k < t.capacity, insertIndexHashTable key t n = some (t.way (vfsNodeKeyHash (key n)) k) ∧
      t.Free (t.way (vfsNodeKeyHash (key n)) k) ∧ ∀ j < k, t.slots (t.way (vfsNodeKeyHash (key n)) j) ≠ .empty := by
  obtain ⟨i, hi, hfree⟩ := hfree
  have hstop : ∀ i, t.Free i → (!continueInsertSearch key t i n) = true := by
    intro i hfree
    unfold continueInsertSearch
    cases hslot : t.slots i with
    | empty => rfl
    | deleted => rfl
    | node m => exact absurd hslot (hfree m)
  obtain ⟨k, hk, hseek, hstopped, hbefore⟩ := @seek_spec (fun idx => !continueInsertSearch key t idx n) _ _
    (Nat.mod_lt (vfsNodeKeyHash (key n)) (by omega : 0 < t.capacity)) ⟨i, hi, hstop i hfree⟩
  refine ⟨k, hk, hseek, fun m hm => ?_, fun j hj hempty => ?_⟩
  · have hm' : t.slots ((vfsNodeKeyHash (key n) % t.capacity + k) % t.capacity) = .node m := hm
    simp only [continueInsertSearch, hm', Bool.not_eq_true', decide_eq_false_iff_not, not_not] at hstopped
    rw [hkey hstopped] at hm'
    exact habsent ⟨_, Nat.mod_lt _ (by omega), hm'⟩
  · have hempty' : t.slots ((vfsNodeKeyHash (key n) % t.capacity + j) % t.capacity) = .empty := hempty
    have := hbefore j hj
    simp only [continueInsertSearch, hempty', Bool.not_false, Bool.true_eq_false] at this

structure Copied (key : ν → ℕ × ℕ) (t new : Table ν) (size i : ℕ) : Prop where
  capacity : new.capacity = size
  wf : Wf (fun n => vfsNodeKeyHash (key n)) new
  holds : ∀ n, new.Holds n ↔ ∃ j < i, t.slots j = .node n

theorem rebuildStep_copied (hkey : Function.Injective key) (hw : Wf (fun n => vfsNodeKeyHash (key n)) t)
    (hS : ∀ n, t.Holds n → n ∈ S)
    {new : Table ν} {size i : ℕ} (hsize : S.card < size) (hi : i < t.capacity) (h : Copied key t new size i) :
    ∃ new', rebuildStep key t new i = some new' ∧ Copied key t new' size (i + 1) := by
  have hold : ∀ m, (∃ j < i + 1, t.slots j = .node m) ↔ t.slots i = .node m ∨ ∃ j < i, t.slots j = .node m := by
    intro m
    constructor
    · rintro ⟨j, hj, hm⟩
      rcases Nat.lt_succ_iff_lt_or_eq.mp hj with hj | rfl
      · exact Or.inr ⟨j, hj, hm⟩
      · exact Or.inl hm
    · rintro (hm | ⟨j, hj, hm⟩)
      · exact ⟨i, Nat.lt_succ_self i, hm⟩
      · exact ⟨j, Nat.lt_succ_of_lt hj, hm⟩
  unfold rebuildStep
  cases hslot : t.slots i with
  | empty => exact ⟨new, rfl, h.capacity, h.wf, fun m => by rw [h.holds, hold, hslot]; simp⟩
  | deleted => exact ⟨new, rfl, h.capacity, h.wf, fun m => by rw [h.holds, hold, hslot]; simp⟩
  | node n =>
    have habsent : ¬new.Holds n := by
      rw [h.holds]
      rintro ⟨j, hj, hn⟩
      have := hw.unique j i n (by omega) hi hn hslot
      omega
    have hfree := h.wf.exists_free (S := S) (fun m hm => by
      obtain ⟨j, hj, hm⟩ := (h.holds m).mp hm
      exact hS m ⟨j, by omega, hm⟩) (by rw [h.capacity]; exact hsize)
    obtain ⟨k, hk, hidx, hfree, hbefore⟩ := insertIndexHashTable_spec hkey habsent hfree
    obtain ⟨hwf, hholds⟩ := h.wf.insert habsent hk hfree hbefore
    refine ⟨new.set (new.way (vfsNodeKeyHash (key n)) k) (.node n), by dsimp only; rw [hidx]; rfl, h.capacity, hwf, fun m => ?_⟩
    rw [hholds, hold, hslot, h.holds]
    simp [eq_comm]

theorem rebuild_copied (hkey : Function.Injective key) (hw : Wf (fun n => vfsNodeKeyHash (key n)) t) (hS : ∀ n, t.Holds n → n ∈ S)
    {size i : ℕ} (hsize : S.card < size) (hi : i ≤ t.capacity) :
    ∃ new, (List.range i).foldlM (rebuildStep key t) ⟨fun _ => .empty, size⟩ = some new ∧ Copied key t new size i := by
  induction i with
  | zero =>
    refine ⟨_, rfl, rfl, ⟨?_, ?_⟩, fun n => ?_⟩
    · intro i n hi hn
      cases hn
    · intro i j n hi hj hn
      cases hn
    · simp [Table.Holds]
  | succ i ih =>
    obtain ⟨new, hfold, hcopied⟩ := ih (by omega)
    obtain ⟨new', hstep, hcopied'⟩ := rebuildStep_copied hkey hw hS hsize (by omega) hcopied
    refine ⟨new', ?_, hcopied'⟩
    rw [List.range_succ, List.foldlM_append, hfold]
    simp [hstep]

theorem rebuildHashTable_spec (hkey : Function.Injective key) (h : TableInv key cache S) {size : ℕ} (hsize : cache.count < size) :
    ∃ cache', rebuildHashTable key cache size = some cache' ∧ TableInv key cache' S ∧ cache'.capacity = size := by
  have hcount := h.count
  obtain ⟨new, hfold, hcopied⟩ := rebuild_copied hkey h.wf (fun n hn => (h.holds n).mp hn) (show S.card < size by omega) le_rfl
  have hrebuild : rebuildHashTable key cache size = some { cache with toTable := new } := by
    rw [rebuildHashTable, hfold]
    rfl
  refine ⟨{ cache with toTable := new }, hrebuild, ⟨hcopied.wf, fun n => ?_, hcount, ?_⟩, hcopied.capacity⟩
  · exact (hcopied.holds n).trans (h.holds n)
  · rw [hcopied.capacity]
    exact Or.inr hsize

theorem testForResize_spec (hkey : Function.Injective key) (h : TableInv key cache S) :
    ∃ cache', testForResize key cache = some cache' ∧ TableInv key cache' S ∧ cache'.count + 1 < cache'.capacity := by
  have hzero : cache.capacity = 0 → cache.count = 0 := by
    intro h0
    rw [h.count, Finset.card_eq_zero, Finset.eq_empty_iff_forall_notMem]
    intro n hn
    obtain ⟨i, hi, -⟩ := (h.holds n).mpr hn
    omega
  have hroom := h.room
  have hrebuild : ∀ size, cache.count + 1 < size →
      ∃ cache', rebuildHashTable key cache size = some cache' ∧ TableInv key cache' S ∧ cache'.count + 1 < cache'.capacity := by
    intro size hsize
    obtain ⟨cache', he, hinv, hcap⟩ := rebuildHashTable_spec hkey h (show cache.count < size by omega)
    exact ⟨cache', he, hinv, by rw [hcap, hinv.count, ← h.count]; exact hsize⟩
  unfold testForResize
  by_cases h1 : cache.capacity < 32
  · rw [if_pos h1]
    exact hrebuild 32 (by omega)
  · rw [if_neg h1]
    by_cases h2 : 32 < cache.capacity ∧ cache.count * 4 < cache.capacity
    · rw [if_pos h2]
      exact hrebuild _ (by omega)
    · rw [if_neg h2]
      by_cases h3 : cache.capacity * 2 < cache.count * 3
      · rw [if_pos h3]
        exact hrebuild _ (by omega)
      · rw [if_neg h3]
        exact ⟨cache, rfl, h, by omega⟩

theorem vfsCacheInsertNewNode_spec [DecidableEq ν] (hkey : Function.Injective key) (h : TableInv key cache S) (hn : n ∉ S) :
    ∃ cache', vfsCacheInsertNewNode key cache n = some cache' ∧ TableInv key cache' (insert n S) := by
  obtain ⟨c, hresize, hc, hroom⟩ := testForResize_spec hkey h
  have habsent : ¬c.Holds n := fun hold => hn ((hc.holds n).mp hold)
  have hfree := hc.wf.exists_free (fun m hm => (hc.holds m).mp hm) (by rw [← hc.count]; omega)
  obtain ⟨k, hk, hidx, hfree, hbefore⟩ := insertIndexHashTable_spec hkey habsent hfree
  obtain ⟨hwf, hholds⟩ := hc.wf.insert habsent hk hfree hbefore
  have hinvalid : isIndexValid c.toTable (c.way (vfsNodeKeyHash (key n)) k) = false := by
    unfold isIndexValid
    cases hslot : c.slots (c.way (vfsNodeKeyHash (key n)) k) with
    | node m => exact absurd hslot (hfree m)
    | _ => rfl
  refine ⟨⟨c.toTable.set (c.way (vfsNodeKeyHash (key n)) k) (.node n), c.count + 1⟩, ?_, hwf, fun m => ?_, ?_, Or.inr hroom⟩
  · rw [vfsCacheInsertNewNode, hresize, Option.bind_some, hidx, Option.bind_some, hinvalid]
    rfl
  · rw [Finset.mem_insert, ← hc.holds]
    exact hholds m
  · rw [Finset.card_insert_of_notMem hn, ← hc.count]

end Insert

section Find
variable {key : ν → ℕ × ℕ} {cache : VfsNodeCache ν} {S : Finset ν} {n : ν} {k : ℕ × ℕ}

theorem TableInv.capacity_pos (h : TableInv key cache S) (hn : n ∈ S) : 0 < cache.capacity := by
  obtain ⟨i, hi, -⟩ := (h.holds n).mpr hn
  omega

theorem way_ne {t : Table ν} {home j l : ℕ} (hjl : j < l) (hl : l < t.capacity) : t.way home j ≠ t.way home l := by
  have hne := not_back (Nat.mod_lt (home % t.capacity + j) (by omega : 0 < t.capacity)) (show 0 < l - j by omega) (by omega)
  rw [Nat.mod_add_mod, show home % t.capacity + j + (l - j) = home % t.capacity + l by omega] at hne
  exact hne.symm

/-- The way to a node of the table, on which no other slot ends the search. -/
theorem TableInv.search_present (hkey : Function.Injective key) (h : TableInv key cache S) (hn : n ∈ S) :
    ∃ d < cache.capacity, cache.slots (cache.way (vfsNodeKeyHash (key n)) d) = .node n ∧
      (∀ j < d, cache.slots (cache.way (vfsNodeKeyHash (key n)) j) ≠ .empty) ∧
      search cache.toTable (fun slot => !continueSearch key (key n) slot) (vfsNodeKeyHash (key n) % cache.capacity) cache.capacity
        (vfsNodeKeyHash (key n) % cache.capacity) none =
        some (some (cache.way (vfsNodeKeyHash (key n)) d,
          lastDeleted cache.toTable (vfsNodeKeyHash (key n) % cache.capacity) d)) := by
  obtain ⟨i, hi, hslot⟩ := (h.holds n).mpr hn
  obtain ⟨d, hd, rfl, hopen⟩ := h.wf.onWay i n hi hslot
  have hstart := Nat.mod_lt (vfsNodeKeyHash (key n)) (h.capacity_pos hn)
  have hgo : ∀ j < d, (!continueSearch key (key n) (cache.slots (cache.way (vfsNodeKeyHash (key n)) j))) = false := by
    intro j hj
    unfold continueSearch
    cases hm : cache.slots (cache.way (vfsNodeKeyHash (key n)) j) with
    | empty => exact absurd hm (hopen j hj)
    | deleted => rfl
    | node m =>
      have hne : key m ≠ key n := by
        intro he
        rw [hkey he] at hm
        exact way_ne hj hd (h.wf.unique _ _ n (way_lt (h.capacity_pos hn) _ _) hi hm hslot)
      simp [hne]
  have hstop : (!continueSearch key (key n) (cache.slots (cache.way (vfsNodeKeyHash (key n)) d))) = true := by
    rw [hslot]
    simp [continueSearch]
  have hsearch := @search_stops ν cache.toTable d (fun slot => !continueSearch key (key n) slot) _ cache.capacity 0 hstart
    (Nat.zero_le d) hd (by omega) hstop hgo
  rw [Nat.add_zero, Nat.mod_eq_of_lt hstart] at hsearch
  exact ⟨d, hd, hslot, hopen, hsearch⟩

/-- Moving a node to a deleted slot on its way keeps the nodes of the table. -/
theorem TableInv.moved (h : TableInv key cache S) {d j : ℕ} (hd : d < cache.capacity)
    (hslot : cache.slots (cache.way (vfsNodeKeyHash (key n)) d) = .node n)
    (hopen : ∀ j < d, cache.slots (cache.way (vfsNodeKeyHash (key n)) j) ≠ .empty) (hj : j < d)
    (hdeleted : cache.slots (cache.way (vfsNodeKeyHash (key n)) j) = .deleted) :
    TableInv key ⟨(cache.toTable.set (cache.way (vfsNodeKeyHash (key n)) j) (.node n)).set
      (cache.way (vfsNodeKeyHash (key n)) d) .deleted, cache.count⟩ S := by
  have hlt : cache.way (vfsNodeKeyHash (key n)) d < cache.capacity := way_lt (by omega) _ _
  have hne : cache.way (vfsNodeKeyHash (key n)) j ≠ cache.way (vfsNodeKeyHash (key n)) d := way_ne hj hd
  have hswap : (cache.toTable.set (cache.way (vfsNodeKeyHash (key n)) j) (.node n)).set
    (cache.way (vfsNodeKeyHash (key n)) d) .deleted =
      (cache.toTable.set (cache.way (vfsNodeKeyHash (key n)) d) .deleted).set (cache.way (vfsNodeKeyHash (key n)) j)
      (.node n) := by
    unfold Table.set
    rw [Function.update_comm hne]
  obtain ⟨hwf, hholds⟩ := h.wf.remove hlt hslot
  obtain ⟨hwf', hholds'⟩ := hwf.insert (n := n) (k := j) (by rw [hholds]; simp) (by rw [set_capacity]; omega)
    (fun m hm => by rw [set_way, set_slots_of_ne hne, hdeleted] at hm; cases hm)
    (fun l hl => set_ne_empty (by simp) (hopen l (by omega)))
  refine ⟨by rw [hswap]; exact hwf', fun m => ?_, h.count, h.room⟩
  rw [hswap, ← h.holds]
  refine (hholds' m).trans ?_
  rw [hholds]
  by_cases hm : m = n
  · subst hm
    simp only [true_or, true_iff]
    exact ⟨_, hlt, hslot⟩
  · simp [hm]

theorem findIndexHashTable_present (hkey : Function.Injective key) (h : TableInv key cache S) (hn : n ∈ S) :
    ∃ idx cache', findIndexHashTable key cache (key n) = some (some idx, cache') ∧ TableInv key cache' S ∧
      idx < cache'.capacity ∧ cache'.slots idx = .node n := by
  have hcount : cache.count ≠ 0 := by
    rw [h.count]
    exact Finset.card_ne_zero_of_mem hn
  obtain ⟨d, hd, hslot, hopen, hsearch⟩ := h.search_present hkey hn
  have hlt : cache.way (vfsNodeKeyHash (key n)) d < cache.capacity := way_lt (by omega) _ _
  rw [findIndexHashTable, if_neg hcount]
  simp only [hsearch, Option.map_some, hslot]
  cases hfree : lastDeleted cache.toTable (vfsNodeKeyHash (key n) % cache.capacity) d with
  | none => exact ⟨_, _, rfl, h, hlt, hslot⟩
  | some f =>
    obtain ⟨j, hj, rfl, hdeleted⟩ := lastDeleted_spec hfree
    refine ⟨_, _, rfl, h.moved hd hslot hopen hj hdeleted, way_lt (show 0 < cache.capacity by omega) _ _, ?_⟩
    exact (set_slots_of_ne (way_ne hj hd)).trans (set_slots_self _)

theorem findIndexHashTable_absent (h : TableInv key cache S) (hk : ∀ n ∈ S, key n ≠ k) :
    findIndexHashTable key cache k = some (none, cache) := by
  unfold findIndexHashTable
  by_cases hcount : cache.count = 0
  · rw [if_pos hcount]
  · have hpos : 0 < cache.capacity := by
      obtain ⟨n, hn⟩ := Finset.card_ne_zero.mp (h.count ▸ hcount)
      exact h.capacity_pos hn
    have hstart := Nat.mod_lt (vfsNodeKeyHash k) hpos
    have hstop : ∀ i < cache.capacity, (!continueSearch key k (cache.slots i)) = true ↔ cache.slots i = .empty := by
      intro i hi
      cases hslot : cache.slots i with
      | empty => simp [continueSearch]
      | deleted => simp [continueSearch]
      | node n => simp [continueSearch, hk n ((h.holds n).mp ⟨i, hi, hslot⟩)]
    rw [if_neg hcount]
    by_cases hempty : ∃ i < cache.capacity, cache.slots i = .empty
    · obtain ⟨i, hi, hslot⟩ := hempty
      obtain ⟨d, hd, -, hstopped, hbefore⟩ := @seek_spec (fun i => !continueSearch key k (cache.slots i)) _ _ hstart
        ⟨i, hi, (hstop i hi).mpr hslot⟩
      have hsearch := @search_stops ν cache.toTable d (fun slot => !continueSearch key k slot) _ cache.capacity 0 hstart
        (Nat.zero_le d) hd (by omega) hstopped hbefore
      rw [Nat.add_zero, Nat.mod_eq_of_lt hstart, lastDeleted] at hsearch
      have hend := (hstop _ (Nat.mod_lt _ hpos)).mp hstopped
      simp only [hsearch, Option.map_some, hend]
    · have hgo : ∀ i < cache.capacity, (!continueSearch key k (cache.slots i)) = false := by
        intro i hi
        rw [← Bool.not_eq_true, hstop i hi]
        exact fun hslot => hempty ⟨i, hi, hslot⟩
      have hsearch := @search_fails ν cache.toTable (fun slot => !continueSearch key k slot) _ cache.capacity 0 hstart hpos
        (by omega) hgo
      rw [Nat.add_zero, Nat.mod_eq_of_lt hstart, lastDeleted] at hsearch
      simp only [hsearch, Option.map_some]

end Find

section Runs
variable {key : ν → ℕ × ℕ} {s : CacheState ν} {n : ν}

structure Represents (cache : VfsNodeCache ν) (refs : ν → ℕ) : Prop where
  slot : ∀ n, 0 < refs n → ∃! i, i < cache.capacity ∧ cache.slots i = .node n
  only : ∀ i n, i < cache.capacity → cache.slots i = .node n → 0 < refs n
  finite : {n | 0 < refs n}.Finite
  count : cache.count = {n | 0 < refs n}.ncard

def StateInv (key : ν → ℕ × ℕ) (s : CacheState ν) : Prop :=
  ∃ S : Finset ν, (∀ n, n ∈ S ↔ 0 < s.ref_count n) ∧ TableInv key s.cache S

theorem StateInv.represents (h : StateInv key s) : Represents s.cache s.ref_count := by
  obtain ⟨S, hS, hinv⟩ := h
  have hset : {n | 0 < s.ref_count n} = (S : Set ν) := by
    ext n
    exact (hS n).symm
  refine ⟨fun n hn => ?_, fun i n hi hn => ?_, ?_, ?_⟩
  · obtain ⟨i, hi, hslot⟩ := (hinv.holds n).mpr ((hS n).mpr hn)
    exact ⟨i, ⟨hi, hslot⟩, fun j hj => hinv.wf.unique j i n hj.1 hi hj.2 hslot⟩
  · exact (hS n).mp ((hinv.holds n).mp ⟨i, hi, hn⟩)
  · rw [hset]
    exact S.finite_toSet
  · rw [hset, Set.ncard_coe_finset, hinv.count]

theorem vfsCacheInit_inv : StateInv key ⟨vfsCacheInit, fun _ => 0⟩ := by
  refine ⟨∅, by simp, ⟨⟨?_, ?_⟩, fun n => ?_, rfl, Or.inl rfl⟩⟩
  · intro i n hi hn
    cases hn
  · intro i j n hi hj hn
    cases hn
  · simp [Table.Holds, vfsCacheInit]

variable [DecidableEq ν]

/-- What a call does to the counts, when the nodes that are looked up are those that have references. A node without references
is not closed. -/
noncomputable def CacheCall.onMap (key : ν → ℕ × ℕ) (refs : ν → ℕ) : CacheCall ν → Option (Option ν × (ν → ℕ))
  | .get k =>
    open Classical in
    if h : ∃ n, key n = k ∧ 0 < refs n then some (some h.choose, Function.update refs h.choose (refs h.choose + 1))
    else some (none, refs)
  | .copy node => some (none, Function.update refs node (refs node + 1))
  | .close node => if refs node = 0 then none else some (none, Function.update refs node (refs node - 1))

noncomputable def runMap (key : ν → ℕ × ℕ) : (ν → ℕ) → List (CacheCall ν) → Option (List (Option ν) × (ν → ℕ))
  | refs, [] => some ([], refs)
  | refs, call :: calls =>
    (call.onMap key refs).bind fun r => (runMap key r.2 calls).map fun q => (r.1 :: q.1, q.2)

theorem vfsCacheCopyNode_spec (hkey : Function.Injective key) (h : StateInv key s) :
    ∃ s', vfsCacheCopyNode key s n = some (s.ref_count n + 1, s') ∧
      s'.ref_count = Function.update s.ref_count n (s.ref_count n + 1) ∧ StateInv key s' := by
  obtain ⟨S, hS, hinv⟩ := h
  unfold vfsCacheCopyNode
  by_cases hzero : s.ref_count n = 0
  · have hn : n ∉ S := by
      rw [hS, hzero]
      exact Nat.lt_irrefl 0
    obtain ⟨cache', hinsert, hinv'⟩ := vfsCacheInsertNewNode_spec hkey hinv hn
    rw [if_pos hzero, hinsert]
    refine ⟨_, rfl, rfl, insert n S, fun m => ?_, hinv'⟩
    by_cases hm : m = n
    · subst hm
      simp
    · simp [hm, hS]
  · rw [if_neg hzero]
    refine ⟨_, rfl, rfl, S, fun m => ?_, hinv⟩
    by_cases hm : m = n
    · subst hm
      simp only [Function.update_self, Nat.zero_lt_succ, iff_true]
      exact (hS m).mpr (Nat.pos_of_ne_zero hzero)
    · simp [hm, hS]

theorem vfsCacheGetNodeOrLock_found (hkey : Function.Injective key) (h : StateInv key s) (hn : 0 < s.ref_count n) :
    ∃ s', vfsCacheGetNodeOrLock key s (key n) = some (some n, s') ∧
      s'.ref_count = Function.update s.ref_count n (s.ref_count n + 1) ∧ StateInv key s' := by
  obtain ⟨S, hS, hinv⟩ := h
  obtain ⟨idx, cache', hfind, hinv', -, hslot⟩ := findIndexHashTable_present hkey hinv ((hS n).mpr hn)
  have hinv'' : StateInv key { s with cache := cache' } := ⟨S, hS, hinv'⟩
  obtain ⟨s', hcopy, href, hs'⟩ := vfsCacheCopyNode_spec (n := n) hkey hinv''
  refine ⟨s', ?_, href, hs'⟩
  rw [vfsCacheGetNodeOrLock, hfind, Option.bind_some]
  simp only [hslot, hcopy, Option.map_some]

theorem vfsCacheGetNodeOrLock_missing (h : StateInv key s) {k : ℕ × ℕ} (hk : ∀ n, key n = k → s.ref_count n = 0) :
    vfsCacheGetNodeOrLock key s k = some (none, s) := by
  obtain ⟨S, hS, hinv⟩ := h
  have habsent : ∀ n ∈ S, key n ≠ k := by
    intro n hn he
    have := (hS n).mp hn
    have := hk n he
    omega
  rw [vfsCacheGetNodeOrLock, findIndexHashTable_absent hinv habsent]
  rfl

theorem TableInv.removed {cache : VfsNodeCache ν} {S : Finset ν} {idx : ℕ} (h : TableInv key cache S) (hn : n ∈ S)
    (hidx : idx < cache.capacity) (hslot : cache.slots idx = .node n) :
    TableInv key ⟨cache.toTable.set idx .deleted, cache.count - 1⟩ (S.erase n) := by
  obtain ⟨hwf, hholds⟩ := h.wf.remove hidx hslot
  refine ⟨hwf, fun m => ?_, ?_, ?_⟩
  · rw [Finset.mem_erase, ← h.holds]
    exact hholds m
  · rw [Finset.card_erase_of_mem hn, h.count]
  · have hroom := h.room
    rw [set_capacity]
    dsimp only
    omega

theorem vfsCacheCloseNode_spec (hkey : Function.Injective key) (h : StateInv key s) (hn : 0 < s.ref_count n) :
    ∃ s', vfsCacheCloseNode key s n = some (s.ref_count n - 1, s') ∧
      s'.ref_count = Function.update s.ref_count n (s.ref_count n - 1) ∧ StateInv key s' := by
  obtain ⟨S, hS, hinv⟩ := h
  unfold vfsCacheCloseNode
  rw [if_neg (Nat.pos_iff_ne_zero.mp hn)]
  simp only [Function.update_self]
  by_cases hlast : s.ref_count n - 1 = 0
  · obtain ⟨idx, cache', hfind, hinv', hidx, hslot⟩ := findIndexHashTable_present hkey hinv ((hS n).mpr hn)
    rw [if_pos hlast, hfind, Option.bind_some]
    simp only [hslot, if_true, hlast]
    refine ⟨_, rfl, rfl, S.erase n, fun m => ?_, hinv'.removed ((hS n).mpr hn) hidx hslot⟩
    by_cases hm : m = n
    · subst hm
      simp
    · simp [hm, hS]
  · rw [if_neg hlast]
    refine ⟨_, rfl, rfl, S, fun m => ?_, hinv⟩
    by_cases hm : m = n
    · subst hm
      simp only [Function.update_self, hS]
      omega
    · simp [hm, hS]

/-- A call does to the cache what it does to the map. -/
theorem CacheCall.run_onMap (hkey : Function.Injective key) (h : StateInv key s) (call : CacheCall ν) :
    call.run key s = none ∧ call.onMap key s.ref_count = none ∨
      ∃ result s', call.run key s = some (result, s') ∧ call.onMap key s.ref_count = some (result, s'.ref_count) ∧
        StateInv key s' := by
  cases call with
  | get k =>
    right
    by_cases hex : ∃ n, key n = k ∧ 0 < s.ref_count n
    · obtain ⟨s', hget, href, hs'⟩ := vfsCacheGetNodeOrLock_found hkey h hex.choose_spec.2
      rw [hex.choose_spec.1] at hget
      refine ⟨_, s', hget, ?_, hs'⟩
      rw [CacheCall.onMap, dif_pos hex, href]
    · have hmissing : ∀ n, key n = k → s.ref_count n = 0 := fun n hn => by
        by_contra hne
        exact hex ⟨n, hn, Nat.pos_of_ne_zero hne⟩
      refine ⟨none, s, vfsCacheGetNodeOrLock_missing h hmissing, ?_, h⟩
      rw [CacheCall.onMap, dif_neg hex]
  | copy node =>
    right
    obtain ⟨s', hcopy, href, hs'⟩ := vfsCacheCopyNode_spec (n := node) hkey h
    refine ⟨none, s', ?_, ?_, hs'⟩
    · rw [CacheCall.run, hcopy]
      rfl
    · rw [CacheCall.onMap, href]
  | close node =>
    by_cases hzero : s.ref_count node = 0
    · left
      constructor
      · rw [CacheCall.run, vfsCacheCloseNode, if_pos hzero]
        rfl
      · rw [CacheCall.onMap, if_pos hzero]
    · right
      obtain ⟨s', hclose, href, hs'⟩ := vfsCacheCloseNode_spec hkey h (Nat.pos_of_ne_zero hzero)
      refine ⟨none, s', ?_, ?_, hs'⟩
      · rw [CacheCall.run, hclose]
        rfl
      · rw [CacheCall.onMap, if_neg hzero, href]

theorem runCalls_onMap (hkey : Function.Injective key) (h : StateInv key s) (calls : List (CacheCall ν)) :
    (runCalls key s calls).map (fun r => (r.1, r.2.ref_count)) = runMap key s.ref_count calls ∧
      ∀ r, runCalls key s calls = some r → StateInv key r.2 := by
  induction calls generalizing s with
  | nil =>
    refine ⟨rfl, ?_⟩
    rintro r ⟨⟩
    exact h
  | cons call calls ih =>
    rcases call.run_onMap hkey h with ⟨hrun, hmap⟩ | ⟨result, s', hrun, hmap, hs'⟩
    · simp [runCalls, runMap, hrun, hmap]
    · obtain ⟨hrest, hinv⟩ := ih hs'
      simp only [runCalls, runMap, hrun, hmap, Option.bind_some, ← hrest, Option.map_map]
      refine ⟨rfl, fun r hr => ?_⟩
      obtain ⟨q, hq, rfl⟩ := Option.map_eq_some_iff.mp hr
      exact hinv q hq

/-- The calls of a run return what they return on the map, and end unless a node without references is closed. After it, the
table has the nodes with references. -/
theorem runCalls_refines (hkey : Function.Injective key) (calls : List (CacheCall ν)) :
    (runCalls key ⟨vfsCacheInit, fun _ => 0⟩ calls).map (fun r => (r.1, r.2.ref_count)) = runMap key (fun _ => 0) calls ∧
      ∀ r, runCalls key ⟨vfsCacheInit, fun _ => 0⟩ calls = some r → Represents r.2.cache r.2.ref_count := by
  obtain ⟨hmap, hinv⟩ := runCalls_onMap hkey vfsCacheInit_inv calls
  exact ⟨hmap, fun r hr => (hinv r hr).represents⟩

end Runs

/-- A node that is opened twice, found again, and not found any more when all references are closed. -/
def reopened : List (CacheCall ℕ) := [.copy 7, .copy 8, .get (1, 7), .close 8, .close 7, .get (1, 7), .close 7, .close 7,
    .get (1, 7)]

theorem runCalls_refines_reopened :
    (runCalls (fun n : ℕ => (1, n)) ⟨vfsCacheInit, fun _ => 0⟩ reopened).map Prod.fst =
      some [none, none, some 7, none, none, some 7, none, none, none] ∧
    (runCalls (fun n : ℕ => (1, n)) ⟨vfsCacheInit, fun _ => 0⟩ reopened).map (fun r => (r.1, r.2.ref_count)) =
      runMap (fun n : ℕ => (1, n)) (fun _ => 0) reopened ∧
    ∀ r, runCalls (fun n : ℕ => (1, n)) ⟨vfsCacheInit, fun _ => 0⟩ reopened = some r → Represents r.2.cache r.2.ref_count :=
  ⟨by decide, runCalls_refines (fun _ _ h => (Prod.mk.inj h).2) reopened⟩

end SomeOs.Vfs
