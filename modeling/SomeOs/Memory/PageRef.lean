import SomeOs.Base.LinearProbe

/-! # The page reference table

An open-addressing table from page addresses to reference counts. A count above
one is live; a count of one is a removed record that keeps its key, and a count
of zero is a slot that was never used. `references` reads the recorded count and
is one for a page without a live record.
-/
namespace SomeOs.PageRef
open LinearProbe

abbrev minTableCapacity : ℕ := 128

structure PageRefTable where
  count : ℕ
  capacity : ℕ
  keys : ℕ → ℕ
  values : ℕ → ℕ

def PageRefTable.empty : PageRefTable := ⟨0, 0, fun _ => 0, fun _ => 0⟩

def hashInt64 (x : ℕ) : ℕ :=
  let x := ((x ^^^ (x >>> 30)) * 0xbf58476d1ce4e5b9) % 2 ^ 64
  let x := ((x ^^^ (x >>> 27)) * 0x94d049bb133111eb) % 2 ^ 64
  x ^^^ (x >>> 31)

/-- One round of the copying loop of `rebuildPageRefTable`. -/
def rebuildStep (table : PageRefTable) (new_size : ℕ) (new : (ℕ → ℕ) × (ℕ → ℕ)) (i : ℕ) :
    (ℕ → ℕ) × (ℕ → ℕ) :=
  if 1 < table.values i then
    let idx := probe (fun idx => !decide (1 ≤ new.2 idx)) new_size new_size
      (hashInt64 (table.keys i) % new_size)
    (Function.update new.1 idx (table.keys i), Function.update new.2 idx (table.values i))
  else new

def rebuildPageRefTable (table : PageRefTable) (new_size : ℕ) : PageRefTable :=
  let new := (List.range table.capacity).foldl (rebuildStep table new_size)
    (fun _ => 0, fun _ => 0)
  { table with keys := new.1, values := new.2, capacity := new_size }

def testForResize (table : PageRefTable) : PageRefTable :=
  if table.capacity < minTableCapacity then
    rebuildPageRefTable table minTableCapacity
  else if minTableCapacity < table.capacity ∧ table.count * 4 < table.capacity then
    rebuildPageRefTable table (table.capacity / 2)
  else if table.capacity * 2 < table.count * 3 then
    rebuildPageRefTable table (table.capacity * 3 / 2)
  else table

/-- The search loop shared by the three operations: it leaves at the key, at an
unused slot, or back at its start. -/
def findIndex (table : PageRefTable) (page : ℕ) : ℕ :=
  probe (fun idx => !(decide (table.keys idx ≠ page) && decide (1 ≤ table.values idx)))
    table.capacity table.capacity (hashInt64 page % table.capacity)

def hasOtherReferences (zero_page : ℕ) (table : PageRefTable) (page : ℕ) : Bool :=
  if page = zero_page then true
  else if table.count = 0 then false
  else
    let idx := findIndex table page
    if table.keys idx = page then decide (1 < table.values idx) else false

def addReferenceFor (table : PageRefTable) (page : ℕ) : PageRefTable :=
  let table := testForResize table
  let idx := findIndex table page
  if table.keys idx = page ∧ 1 < table.values idx then
    { table with values := Function.update table.values idx (table.values idx + 1) }
  else
    let idx := probe (fun idx => !(decide (table.keys idx ≠ page) && decide (1 < table.values idx)))
      table.capacity table.capacity (hashInt64 page % table.capacity)
    { table with
      keys := Function.update table.keys idx page
      values := Function.update table.values idx 2
      count := table.count + 1 }

def removeReferenceFor (table : PageRefTable) (page : ℕ) : PageRefTable :=
  if table.count ≠ 0 then
    let idx := findIndex table page
    -- A record that drops to one stays in place and counts as removed.
    if table.keys idx = page ∧ 1 < table.values idx then
      let table := { table with values := Function.update table.values idx (table.values idx - 1) }
      if table.values idx = 1 then testForResize { table with count := table.count - 1 } else table
    else table
  else table

def references (table : PageRefTable) (page : ℕ) : ℕ :=
  match (List.range table.capacity).find?
      (fun i => decide (table.keys i = page) && decide (1 < table.values i)) with
  | some i => table.values i
  | none => 1

def Live (table : PageRefTable) (i : ℕ) : Prop := i < table.capacity ∧ 1 < table.values i

/-- Slots before the one of a live record hold other keys and were used before. -/
def OnPath (keys values : ℕ → ℕ) (cap i : ℕ) : Prop :=
  ∃ k < cap, i = (hashInt64 (keys i) % cap + k) % cap ∧
    ∀ j < k, 1 ≤ values ((hashInt64 (keys i) % cap + j) % cap) ∧
      keys ((hashInt64 (keys i) % cap + j) % cap) ≠ keys i

def liveSlots (table : PageRefTable) : Finset ℕ :=
  (Finset.range table.capacity).filter (fun i => 1 < table.values i)

structure Wf (table : PageRefTable) : Prop where
  count_eq : table.count = (liveSlots table).card
  count_lt : 0 < table.capacity → table.count < table.capacity
  unique : ∀ i j, Live table i → Live table j → table.keys i = table.keys j → i = j
  path : ∀ i, Live table i → OnPath table.keys table.values table.capacity i

theorem mem_liveSlots {table : PageRefTable} {i : ℕ} : i ∈ liveSlots table ↔ Live table i := by
  simp [liveSlots, Live]

theorem empty_wf : Wf PageRefTable.empty where
  count_eq := rfl
  count_lt := by simp [PageRefTable.empty]
  unique := by simp [Live, PageRefTable.empty]
  path := by simp [Live, PageRefTable.empty]

section Reading
variable {table : PageRefTable} {page : ℕ}

theorem references_of_live (hw : Wf table) {i : ℕ} (hi : Live table i)
    (hk : table.keys i = page) : references table page = table.values i := by
  unfold references
  cases hf : (List.range table.capacity).find?
      (fun i => decide (table.keys i = page) && decide (1 < table.values i)) with
  | none =>
    have hn := List.find?_eq_none.mp hf i (List.mem_range.mpr hi.1)
    simp [hk, hi.2] at hn
  | some j =>
    have hj := List.find?_some hf
    have hm := List.mem_of_find?_eq_some hf
    simp only [Bool.and_eq_true, decide_eq_true_eq] at hj
    have hij := hw.unique j i ⟨List.mem_range.mp hm, hj.2⟩ hi (hj.1.trans hk.symm)
    rw [hij]

theorem references_of_not_live (h : ∀ i, Live table i → table.keys i ≠ page) :
    references table page = 1 := by
  unfold references
  cases hf : (List.range table.capacity).find?
      (fun i => decide (table.keys i = page) && decide (1 < table.values i)) with
  | none => rfl
  | some j =>
    have hj := List.find?_some hf
    have hm := List.mem_of_find?_eq_some hf
    simp only [Bool.and_eq_true, decide_eq_true_eq] at hj
    exact absurd hj.1 (h j ⟨List.mem_range.mp hm, hj.2⟩)

theorem live_or_not (table : PageRefTable) (page : ℕ) :
    (∃ i, Live table i ∧ table.keys i = page) ∨ ∀ i, Live table i → table.keys i ≠ page := by
  by_cases h : ∃ i, Live table i ∧ table.keys i = page
  · exact Or.inl h
  · exact Or.inr (fun i hi hk => h ⟨i, hi, hk⟩)

theorem one_le_references (hw : Wf table) (page : ℕ) : 1 ≤ references table page := by
  rcases live_or_not table page with ⟨i, hi, hk⟩ | h
  · rw [references_of_live hw hi hk]
    exact hi.2.le
  · rw [references_of_not_live h]

theorem findIndex_of_live (hw : Wf table) {i : ℕ} (hi : Live table i)
    (hk : table.keys i = page) : findIndex table page = i := by
  obtain ⟨k, hkc, hik, hbefore⟩ := hw.path i hi
  have hpos : 0 < table.capacity := by have := hi.1; omega
  rw [hk] at hik hbefore
  unfold findIndex
  rw [probe_eq_of_first (k := k) (Nat.mod_lt _ hpos) hkc]
  · exact hik.symm
  · rw [← hik]
    simp [hk]
  · intro j hj
    obtain ⟨hv, hkey⟩ := hbefore j hj
    simp only [Bool.not_eq_eq_eq_not, Bool.not_false, Bool.and_eq_true, decide_eq_true_eq]
    exact ⟨hkey, hv⟩

/-- The test answers whether the recorded count is above one. -/
theorem hasOtherReferences_eq {zero_page : ℕ} (hw : Wf table) (hp : page ≠ zero_page) :
    hasOtherReferences zero_page table page = decide (1 < references table page) := by
  unfold hasOtherReferences
  rw [if_neg hp]
  rcases live_or_not table page with ⟨i, hi, hk⟩ | h
  · have hcount : table.count ≠ 0 := by
      rw [hw.count_eq]
      exact Finset.card_ne_zero_of_mem (mem_liveSlots.mpr hi)
    rw [if_neg hcount, findIndex_of_live hw hi hk, references_of_live hw hi hk]
    simp [hk]
  · rw [references_of_not_live h]
    by_cases hc : table.count = 0
    · simp [hc]
    · have hpos : 0 < table.capacity := by
        by_contra h0
        have h0 : table.capacity = 0 := by omega
        rw [hw.count_eq] at hc
        simp [liveSlots, h0] at hc
      have hidx : findIndex table page < table.capacity := probe_lt (Nat.mod_lt _ hpos)
      simp only [hc, ↓reduceIte, lt_self_iff_false, decide_false]
      split
      · rename_i hk
        have hn : ¬ 1 < table.values (findIndex table page) := fun hv => h _ ⟨hidx, hv⟩ hk
        simpa using hn
      · rfl

end Reading

section Rebuilding

/-- The new arrays after the first `n` slots of the old table were copied. -/
structure Copied (table : PageRefTable) (size n : ℕ) (new : (ℕ → ℕ) × (ℕ → ℕ)) : Prop where
  zero_or_live : ∀ i, new.2 i = 0 ∨ 1 < new.2 i
  source : ∀ i < size, 1 < new.2 i →
    ∃ s < n, Live table s ∧ table.keys s = new.1 i ∧ table.values s = new.2 i
  image : ∀ s < n, Live table s → ∃ i < size, new.1 i = table.keys s ∧ new.2 i = table.values s
  unique : ∀ i < size, ∀ j < size, 1 < new.2 i → 1 < new.2 j → new.1 i = new.1 j → i = j
  path : ∀ i < size, 1 < new.2 i → OnPath new.1 new.2 size i
  card : ((Finset.range size).filter (fun i => 1 < new.2 i)).card =
    ((Finset.range n).filter (fun i => 1 < table.values i)).card

theorem copied_zero (table : PageRefTable) (size : ℕ) :
    Copied table size 0 (fun _ => 0, fun _ => 0) := by
  constructor <;> simp

theorem onPath_update {keys values : ℕ → ℕ} {cap i idx key value : ℕ} (hne : i ≠ idx)
    (hkey : keys i ≠ key) (hv : 1 ≤ value) (h : OnPath keys values cap i) :
    OnPath (Function.update keys idx key) (Function.update values idx value) cap i := by
  obtain ⟨k, hk, hik, hbefore⟩ := h
  unfold OnPath
  rw [Function.update_of_ne hne]
  refine ⟨k, hk, hik, fun j hj => ?_⟩
  by_cases hidx : (hashInt64 (keys i) % cap + j) % cap = idx
  · rw [hidx, Function.update_self, Function.update_self]
    exact ⟨hv, fun h => hkey h.symm⟩
  · rw [Function.update_of_ne hidx, Function.update_of_ne hidx]
    exact hbefore j hj

theorem onPath_self {keys values : ℕ → ℕ} {cap idx key value k : ℕ} (hk : k < cap)
    (hidx : idx = (hashInt64 key % cap + k) % cap)
    (hbefore : ∀ j < k, (hashInt64 key % cap + j) % cap ≠ idx ∧
      1 ≤ values ((hashInt64 key % cap + j) % cap) ∧
      keys ((hashInt64 key % cap + j) % cap) ≠ key) :
    OnPath (Function.update keys idx key) (Function.update values idx value) cap idx := by
  unfold OnPath
  rw [Function.update_self]
  refine ⟨k, hk, hidx, fun j hj => ?_⟩
  obtain ⟨hne, hv, hkey⟩ := hbefore j hj
  rw [Function.update_of_ne hne, Function.update_of_ne hne]
  exact ⟨hv, hkey⟩

theorem card_live_update {values : ℕ → ℕ} {cap idx value : ℕ} (hidx : idx < cap)
    (hold : ¬ 1 < values idx) (hnew : 1 < value) :
    ((Finset.range cap).filter (fun i => 1 < Function.update values idx value i)).card =
      ((Finset.range cap).filter (fun i => 1 < values i)).card + 1 := by
  rw [← Finset.card_insert_of_notMem (a := idx) (by simp [hold])]
  congr 1
  ext i
  by_cases h : i = idx
  · subst h
    simp [hnew, hidx]
  · simp [h]

theorem Copied.free_slot {table : PageRefTable} (hw : Wf table) {size n : ℕ} {new : (ℕ → ℕ) × (ℕ → ℕ)}
    (h : Copied table size n new) (hn : n < table.capacity) (hsize : table.count < size) :
    ∃ i < size, (!decide (1 ≤ new.2 i)) = true := by
  have hcard : ((Finset.range n).filter (fun i => 1 < table.values i)).card < size := by
    refine lt_of_le_of_lt (Finset.card_le_card ?_) (hw.count_eq ▸ hsize)
    intro i hi
    simp only [Finset.mem_filter, Finset.mem_range] at hi
    exact mem_liveSlots.mpr ⟨by omega, hi.2⟩
  by_contra hno
  push Not at hno
  have hall : (Finset.range size).filter (fun i => 1 < new.2 i) = Finset.range size := by
    apply Finset.filter_true_of_mem
    intro i hi
    have hi' := hno i (Finset.mem_range.mp hi)
    rcases h.zero_or_live i with h0 | h1
    · simp [h0] at hi'
    · exact h1
  have := h.card
  rw [hall, Finset.card_range] at this
  omega

theorem copied_succ {table : PageRefTable} (hw : Wf table) {size n : ℕ}
    {new : (ℕ → ℕ) × (ℕ → ℕ)} (hn : n < table.capacity) (hsize : table.count < size)
    (h : Copied table size n new) : Copied table size (n + 1) (rebuildStep table size new n) := by
  unfold rebuildStep
  by_cases hv : 1 < table.values n
  · rw [if_pos hv]
    have hfree := h.free_slot hw hn hsize
    obtain ⟨k, hk, hprobe, hstop, hbefore⟩ :=
      probe_spec (hashInt64 (table.keys n) % size) (Nat.mod_lt _ (by omega)) hfree
    simp only [hprobe]
    generalize hidx : (hashInt64 (table.keys n) % size + k) % size = idx at hstop ⊢
    have hlt : idx < size := hidx ▸ Nat.mod_lt _ (by omega)
    have hzero : new.2 idx = 0 := by simpa using hstop
    -- The key being copied is not in the new table: it would come from an earlier slot.
    have hkey : ∀ i < size, 1 < new.2 i → new.1 i ≠ table.keys n := by
      intro i hi hvi he
      obtain ⟨s, hs, hlive, hks, _⟩ := h.source i hi hvi
      have := hw.unique s n hlive ⟨hn, hv⟩ (hks.trans he)
      omega
    have hlive_ne : ∀ i, 1 < Function.update new.2 idx (table.values n) i → i ≠ idx → 1 < new.2 i := by
      intro i hi hne
      rwa [Function.update_of_ne hne] at hi
    constructor
    · intro i
      by_cases hi : i = idx
      · subst hi
        simp [hv]
      · simpa [Function.update_of_ne hi] using h.zero_or_live i
    · intro i hi hvi
      by_cases he : i = idx
      · subst he
        exact ⟨n, by omega, ⟨hn, hv⟩, by simp, by simp⟩
      · obtain ⟨s, hs, hl, h1, h2⟩ := h.source i hi (hlive_ne i hvi he)
        refine ⟨s, by omega, hl, ?_, ?_⟩
        · simpa [Function.update_of_ne he] using h1
        · simpa [Function.update_of_ne he] using h2
    · intro s hs hl
      rcases Nat.lt_succ_iff_lt_or_eq.mp hs with hs | rfl
      · obtain ⟨i, hi, h1, h2⟩ := h.image s hs hl
        have hne : i ≠ idx := by
          rintro rfl
          have := hl.2
          omega
        exact ⟨i, hi, by simpa [Function.update_of_ne hne] using h1,
          by simpa [Function.update_of_ne hne] using h2⟩
      · exact ⟨idx, hlt, by simp, by simp⟩
    · intro i hi j hj hvi hvj he
      by_cases hii : i = idx
      · by_cases hjj : j = idx
        · exact hii.trans hjj.symm
        · subst hii
          simp only [Function.update_self, Function.update_of_ne hjj] at he
          exact absurd he.symm (hkey j hj (hlive_ne j hvj hjj))
      · by_cases hjj : j = idx
        · subst hjj
          simp only [Function.update_self, Function.update_of_ne hii] at he
          exact absurd he (hkey i hi (hlive_ne i hvi hii))
        · simp only [Function.update_of_ne hii, Function.update_of_ne hjj] at he
          exact h.unique i hi j hj (hlive_ne i hvi hii) (hlive_ne j hvj hjj) he
    · intro i hi hvi
      by_cases he : i = idx
      · subst he
        refine onPath_self hk hidx.symm (fun j hj => ?_)
        have hb := hbefore j hj
        have hv' : 1 ≤ new.2 ((hashInt64 (table.keys n) % size + j) % size) := by
          simpa only [Bool.not_eq_eq_eq_not, Bool.not_false, decide_eq_true_eq] using hb
        refine ⟨fun he => ?_, hv', ?_⟩
        · rw [he] at hv'
          omega
        · have hlt' : (hashInt64 (table.keys n) % size + j) % size < size :=
            Nat.mod_lt _ (by omega)
          refine hkey _ hlt' ?_
          rcases h.zero_or_live ((hashInt64 (table.keys n) % size + j) % size) with h0 | h1
          · omega
          · exact h1
      · have hl := hlive_ne i hvi he
        exact onPath_update he (hkey i hi hl) hv.le (h.path i hi hl)
    · rw [card_live_update hlt (by omega) hv, h.card, Finset.range_add_one,
        Finset.filter_insert, if_pos hv, Finset.card_insert_of_notMem (by simp)]
  · rw [if_neg hv]
    exact {
      zero_or_live := h.zero_or_live
      source := fun i hi hvi => by
        obtain ⟨s, hs, hrest⟩ := h.source i hi hvi
        exact ⟨s, by omega, hrest⟩
      image := fun s hs hl => by
        rcases Nat.lt_succ_iff_lt_or_eq.mp hs with hs | rfl
        · exact h.image s hs hl
        · exact absurd hl.2 hv
      unique := h.unique
      path := h.path
      card := by rw [h.card, Finset.range_add_one, Finset.filter_insert, if_neg hv] }

theorem copied_all {table : PageRefTable} (hw : Wf table) (size : ℕ) (hsize : table.count < size)
    {n : ℕ} (hn : n ≤ table.capacity) :
    Copied table size n ((List.range n).foldl (rebuildStep table size) (fun _ => 0, fun _ => 0)) := by
  induction n with
  | zero => exact copied_zero table size
  | succ n ih =>
    rw [List.range_succ, List.foldl_append]
    exact copied_succ hw (by omega) hsize (ih (by omega))

/-- The table was moved to other arrays: the invariant and every recorded count
are kept, and there is room for one more record. -/
structure Resized (table new : PageRefTable) : Prop where
  wf : Wf new
  count_eq : new.count = table.count
  room : new.count + 1 < new.capacity
  references_eq : ∀ page, references new page = references table page

theorem rebuild_resized {table : PageRefTable} (hw : Wf table) {size : ℕ}
    (hsize : table.count + 1 < size) : Resized table (rebuildPageRefTable table size) := by
  have hc := copied_all hw size (by omega) le_rfl
  have hw' : Wf (rebuildPageRefTable table size) := {
    count_eq := hw.count_eq.trans hc.card.symm
    count_lt := fun _ => by simp only [rebuildPageRefTable]; omega
    unique := fun i j hi hj he => hc.unique i hi.1 j hj.1 hi.2 hj.2 he
    path := fun i hi => hc.path i hi.1 hi.2 }
  refine ⟨hw', rfl, hsize, fun page => ?_⟩
  rcases live_or_not table page with ⟨s, hs, hk⟩ | h
  · obtain ⟨i, hi, h1, h2⟩ := hc.image s hs.1 hs
    have hlive : Live (rebuildPageRefTable table size) i := ⟨hi, lt_of_lt_of_eq hs.2 h2.symm⟩
    rw [references_of_live hw hs hk, references_of_live hw' hlive (h1.trans hk)]
    exact h2
  · rw [references_of_not_live h, references_of_not_live]
    intro i hi he
    obtain ⟨s, _, hl, hks, _⟩ := hc.source i hi.1 hi.2
    exact h s hl (hks.trans he)

theorem testForResize_resized {table : PageRefTable} (hw : Wf table) :
    Resized table (testForResize table) := by
  have hcount : table.capacity = 0 → table.count = 0 := by
    intro h0
    rw [hw.count_eq]
    simp [liveSlots, h0]
  have hlt := hw.count_lt
  unfold testForResize
  by_cases h1 : table.capacity < 128
  · rw [if_pos h1]
    exact rebuild_resized hw (show table.count + 1 < 128 by omega)
  · rw [if_neg h1]
    by_cases h2 : 128 < table.capacity ∧ table.count * 4 < table.capacity
    · rw [if_pos h2]
      exact rebuild_resized hw (by omega)
    · rw [if_neg h2]
      by_cases h3 : table.capacity * 2 < table.count * 3
      · rw [if_pos h3]
        exact rebuild_resized hw (by omega)
      · rw [if_neg h3]
        exact ⟨hw, rfl, by omega, fun _ => rfl⟩

end Rebuilding

section Updating
variable {table : PageRefTable} {page : ℕ}

/-- Changing the count of a live record to another used value keeps the search
paths of all records. -/
theorem onPath_setValue {i idx value : ℕ} (hv : 1 ≤ value)
    (h : OnPath table.keys table.values table.capacity i) :
    OnPath table.keys (Function.update table.values idx value) table.capacity i := by
  obtain ⟨k, hk, hik, hbefore⟩ := h
  refine ⟨k, hk, hik, fun j hj => ⟨?_, (hbefore j hj).2⟩⟩
  by_cases hidx : (hashInt64 (table.keys i) % table.capacity + j) % table.capacity = idx
  · rw [hidx, Function.update_self]
    exact hv
  · rw [Function.update_of_ne hidx]
    exact (hbefore j hj).1

theorem references_congr {new : PageRefTable} (hw : Wf table) (hw' : Wf new) {q : ℕ}
    (h : ∀ i v, (Live table i ∧ table.keys i = q ∧ table.values i = v) ↔
      (Live new i ∧ new.keys i = q ∧ new.values i = v)) :
    references new q = references table q := by
  rcases live_or_not table q with ⟨i, hi, hk⟩ | hn
  · obtain ⟨hi', hk', hv'⟩ := (h i (table.values i)).mp ⟨hi, hk, rfl⟩
    rw [references_of_live hw hi hk, references_of_live hw' hi' hk', hv']
  · rw [references_of_not_live hn, references_of_not_live]
    intro i hi hk
    obtain ⟨hi', hk', _⟩ := (h i (new.values i)).mpr ⟨hi, hk, rfl⟩
    exact hn i hi' hk'

/-- The table with the count of slot `idx` replaced by a live one. -/
theorem setValue_spec (hw : Wf table) {idx : ℕ} (hi : Live table idx) (value : ℕ) (hv : 1 < value) :
    Wf { table with values := Function.update table.values idx value } ∧
      references { table with values := Function.update table.values idx value } (table.keys idx) =
        value ∧
      ∀ q, q ≠ table.keys idx →
        references { table with values := Function.update table.values idx value } q =
          references table q := by
  have hlive : ∀ i, Live { table with values := Function.update table.values idx value } i ↔
      Live table i := by
    intro i
    by_cases h : i = idx
    · subst h
      simp [Live, hv, hi.1, hi.2]
    · simp [Live, Function.update_of_ne h]
  have hw' : Wf { table with values := Function.update table.values idx value } := {
    count_eq := by
      refine hw.count_eq.trans (congrArg Finset.card ?_)
      ext i
      rw [mem_liveSlots, mem_liveSlots, hlive]
    count_lt := hw.count_lt
    unique := fun i j hi hj => hw.unique i j ((hlive i).mp hi) ((hlive j).mp hj)
    path := fun i hi => onPath_setValue hv.le (hw.path i ((hlive i).mp hi)) }
  refine ⟨hw', ?_, fun q hq => references_congr hw hw' (fun i v => ?_)⟩
  · rw [references_of_live hw' ((hlive idx).mpr hi) rfl]
    simp
  · rw [hlive]
    by_cases h : i = idx
    · subst h
      simp [hq.symm]
    · simp [Function.update_of_ne h]

/-- A record put into a slot without one, at the place where its search ends. -/
theorem insert_spec (hw : Wf table) (hroom : table.count + 1 < table.capacity)
    (habsent : ∀ i, Live table i → table.keys i ≠ page) {k : ℕ} (hk : k < table.capacity)
    {idx : ℕ} (hidx : idx = (hashInt64 page % table.capacity + k) % table.capacity)
    (hstop : ¬ 1 < table.values idx)
    (hbefore : ∀ j < k,
      table.keys ((hashInt64 page % table.capacity + j) % table.capacity) ≠ page ∧
      1 < table.values ((hashInt64 page % table.capacity + j) % table.capacity)) :
    Wf { table with
        keys := Function.update table.keys idx page
        values := Function.update table.values idx 2
        count := table.count + 1 } ∧
      references { table with
        keys := Function.update table.keys idx page
        values := Function.update table.values idx 2
        count := table.count + 1 } page = 2 ∧
      ∀ q, q ≠ page → references { table with
        keys := Function.update table.keys idx page
        values := Function.update table.values idx 2
        count := table.count + 1 } q = references table q := by
  have hlt : idx < table.capacity := hidx ▸ Nat.mod_lt _ (by omega)
  have hlive : ∀ i, i ≠ idx → (Live { table with
      keys := Function.update table.keys idx page
      values := Function.update table.values idx 2
      count := table.count + 1 } i ↔ Live table i) := by
    intro i h
    simp [Live, Function.update_of_ne h]
  have hw' : Wf { table with
      keys := Function.update table.keys idx page
      values := Function.update table.values idx 2
      count := table.count + 1 } := {
    count_eq := by
      simp only [liveSlots]
      rw [card_live_update hlt hstop (by omega), hw.count_eq]
      rfl
    count_lt := fun _ => hroom
    unique := by
      intro i j hi hj he
      by_cases hii : i = idx
      · by_cases hjj : j = idx
        · exact hii.trans hjj.symm
        · subst hii
          simp only [Function.update_self, Function.update_of_ne hjj] at he
          exact absurd he.symm (habsent j ((hlive j hjj).mp hj))
      · by_cases hjj : j = idx
        · subst hjj
          simp only [Function.update_self, Function.update_of_ne hii] at he
          exact absurd he (habsent i ((hlive i hii).mp hi))
        · simp only [Function.update_of_ne hii, Function.update_of_ne hjj] at he
          exact hw.unique i j ((hlive i hii).mp hi) ((hlive j hjj).mp hj) he
    path := by
      intro i hi
      by_cases h : i = idx
      · subst h
        refine onPath_self hk hidx (fun j hj => ?_)
        obtain ⟨h1, h2⟩ := hbefore j hj
        exact ⟨fun he => hstop (he ▸ h2), h2.le, h1⟩
      · have hl := (hlive i h).mp hi
        exact onPath_update h (habsent i hl) (by omega) (hw.path i hl) }
  refine ⟨hw', ?_, fun q hq => references_congr hw hw' (fun i v => ?_)⟩
  · rw [references_of_live hw' (i := idx) ⟨hlt, by simp⟩ (by simp)]
    simp
  · by_cases h : i = idx
    · subst h
      simp [Live, hstop, hq.symm]
    · rw [hlive i h]
      simp [Function.update_of_ne h]

theorem exists_dead_slot (hw : Wf table) (hroom : table.count < table.capacity) (page : ℕ) :
    ∃ i < table.capacity, (!(decide (table.keys i ≠ page) && decide (1 < table.values i))) = true := by
  by_contra hno
  push Not at hno
  have hall : liveSlots table = Finset.range table.capacity := by
    apply Finset.filter_true_of_mem
    intro i hi
    have hi' := hno i (Finset.mem_range.mp hi)
    simp only [ne_eq, Bool.not_eq_true', Bool.not_eq_false, Bool.and_eq_true,
      decide_eq_true_eq] at hi'
    exact hi'.2
  have hc := hw.count_eq
  rw [hall, Finset.card_range] at hc
  omega

/-- Adding a reference raises the recorded count of its page by one. -/
theorem addReferenceFor_spec (hw : Wf table) (page : ℕ) :
    Wf (addReferenceFor table page) ∧
      references (addReferenceFor table page) page = references table page + 1 ∧
      ∀ q, q ≠ page → references (addReferenceFor table page) q = references table q := by
  have hr := testForResize_resized hw
  unfold addReferenceFor
  generalize testForResize table = t at hr
  have hpos : 0 < t.capacity := by have := hr.room; omega
  simp only
  rcases live_or_not t page with ⟨i, hi, hk⟩ | habsent
  · have hfind := findIndex_of_live hr.wf hi hk
    rw [hfind, if_pos ⟨hk, hi.2⟩]
    obtain ⟨h1, h2, h3⟩ := setValue_spec hr.wf hi (t.values i + 1) (by have := hi.2; omega)
    rw [hk] at h2 h3
    refine ⟨h1, ?_, fun q hq => ?_⟩
    · rw [h2, ← hr.references_eq, references_of_live hr.wf hi hk]
    · rw [h3 q hq, hr.references_eq]
  · have hnot : ¬ (t.keys (findIndex t page) = page ∧ 1 < t.values (findIndex t page)) := by
      rintro ⟨h1, h2⟩
      exact habsent _ ⟨probe_lt (Nat.mod_lt _ hpos), h2⟩ h1
    rw [if_neg hnot]
    have hfree := exists_dead_slot hr.wf (by have := hr.room; omega) page
    obtain ⟨k, hk, hprobe, hstop, hbefore⟩ :=
      probe_spec (hashInt64 page % t.capacity) (Nat.mod_lt _ hpos) hfree
    simp only [hprobe]
    have hdead : ¬ 1 < t.values ((hashInt64 page % t.capacity + k) % t.capacity) := by
      intro hv
      have hl : Live t ((hashInt64 page % t.capacity + k) % t.capacity) := ⟨Nat.mod_lt _ hpos, hv⟩
      simp only [ne_eq, Bool.not_eq_eq_eq_not, Bool.not_true, Bool.and_eq_false_iff,
        decide_eq_false_iff_not, Decidable.not_not] at hstop
      rcases hstop with h | h
      · exact habsent _ hl h
      · exact h hv
    obtain ⟨h1, h2, h3⟩ := insert_spec hr.wf hr.room habsent hk rfl hdead (fun j hj => by
      simpa only [ne_eq, Bool.not_eq_eq_eq_not, Bool.not_false, Bool.and_eq_true,
        decide_eq_true_eq] using hbefore j hj)
    refine ⟨h1, ?_, fun q hq => ?_⟩
    · rw [h2, ← hr.references_eq, references_of_not_live habsent]
    · rw [h3 q hq, hr.references_eq]

/-- A live record of two drops to one and stops being live. -/
theorem drop_spec (hw : Wf table) {idx : ℕ} (hi : Live table idx) :
    Wf { table with values := Function.update table.values idx 1, count := table.count - 1 } ∧
      references { table with values := Function.update table.values idx 1, count := table.count - 1 }
        (table.keys idx) = 1 ∧
      ∀ q, q ≠ table.keys idx →
        references { table with
          values := Function.update table.values idx 1, count := table.count - 1 } q =
          references table q := by
  have hlive : ∀ i, Live { table with
      values := Function.update table.values idx 1, count := table.count - 1 } i ↔
      i ≠ idx ∧ Live table i := by
    intro i
    by_cases h : i = idx
    · subst h
      simp [Live]
    · simp [Live, h]
  have hw' : Wf { table with
      values := Function.update table.values idx 1, count := table.count - 1 } := {
    count_eq := by
      have herase : liveSlots { table with
          values := Function.update table.values idx 1, count := table.count - 1 } =
          (liveSlots table).erase idx := by
        ext i
        rw [mem_liveSlots, hlive, Finset.mem_erase, mem_liveSlots]
      rw [herase, Finset.card_erase_of_mem (mem_liveSlots.mpr hi), ← hw.count_eq]
    count_lt := fun h => by have := hw.count_lt h; simp only; omega
    unique := fun i j hi hj => hw.unique i j ((hlive i).mp hi).2 ((hlive j).mp hj).2
    path := fun i hi => onPath_setValue le_rfl (hw.path i ((hlive i).mp hi).2) }
  refine ⟨hw', references_of_not_live (fun i hl hk => ?_), fun q hq =>
    references_congr hw hw' (fun i v => ?_)⟩
  · obtain ⟨hne, hl⟩ := (hlive i).mp hl
    exact hne (hw.unique i idx hl hi hk)
  · rw [hlive]
    by_cases h : i = idx
    · subst h
      simp [hq.symm]
    · simp [h]

/-- Removing a reference lowers a count above one by one and does nothing to a
page without a live record. -/
theorem removeReferenceFor_spec (hw : Wf table) (page : ℕ) :
    Wf (removeReferenceFor table page) ∧
      references (removeReferenceFor table page) page =
        (if 1 < references table page then references table page - 1 else references table page) ∧
      ∀ q, q ≠ page → references (removeReferenceFor table page) q = references table q := by
  unfold removeReferenceFor
  rcases live_or_not table page with ⟨i, hi, hk⟩ | habsent
  · have hcount : table.count ≠ 0 := by
      rw [hw.count_eq]
      exact Finset.card_ne_zero_of_mem (mem_liveSlots.mpr hi)
    have hrefs := references_of_live hw hi hk
    rw [if_pos hcount, findIndex_of_live hw hi hk, if_pos ⟨hk, hi.2⟩, hrefs, if_pos hi.2]
    simp only [Function.update_self]
    split_ifs with h1
    · rw [h1]
      obtain ⟨hd, hd1, hd2⟩ := drop_spec hw hi
      rw [hk] at hd1 hd2
      have hr := testForResize_resized hd
      refine ⟨hr.wf, ?_, fun q hq => ?_⟩
      · rw [hr.references_eq, hd1]
      · rw [hr.references_eq, hd2 q hq]
    · obtain ⟨hs, hs1, hs2⟩ := setValue_spec hw hi (table.values i - 1)
        (by have := hi.2; omega)
      rw [hk] at hs1 hs2
      exact ⟨hs, hs1, hs2⟩
  · rw [references_of_not_live habsent, if_neg (lt_irrefl 1)]
    by_cases hc : table.count = 0
    · rw [if_neg (not_not.mpr hc)]
      exact ⟨hw, references_of_not_live habsent, fun _ _ => rfl⟩
    · rw [if_pos hc]
      have hpos : 0 < table.capacity := by
        by_contra h0
        have h0 : table.capacity = 0 := by omega
        rw [hw.count_eq] at hc
        simp [liveSlots, h0] at hc
      have hnot : ¬ (table.keys (findIndex table page) = page ∧
          1 < table.values (findIndex table page)) := by
        rintro ⟨h1, h2⟩
        exact habsent _ ⟨probe_lt (Nat.mod_lt _ hpos), h2⟩ h1
      rw [if_neg hnot]
      exact ⟨hw, references_of_not_live habsent, fun _ _ => rfl⟩

end Updating

end SomeOs.PageRef
