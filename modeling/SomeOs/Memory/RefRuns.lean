import SomeOs.Memory.PageRef

/-! # The page reference table as a map

Any sequence of added and removed references leaves a table that answers by the difference of
both for each page. A removal counts when the page is referenced at that time. The probe loops
that an operation runs on the way are listed, and each of them is left within one turn.
-/
namespace SomeOs.PageRef
open LinearProbe

inductive RefOp where
  | add (page : ℕ)
  | remove (page : ℕ)

def RefOp.page : RefOp → ℕ
  | .add page => page
  | .remove page => page

def refStep (table : PageRefTable) : RefOp → PageRefTable
  | .add page => addReferenceFor table page
  | .remove page => removeReferenceFor table page

def refRun (ops : List RefOp) : PageRefTable := ops.foldl refStep PageRefTable.empty

/-- The references added for a page, and those removed while it was referenced. -/
structure Tally where
  added : ℕ
  removed : ℕ

def tallyStep (page : ℕ) (t : Tally) : RefOp → Tally
  | .add p => if p = page then { t with added := t.added + 1 } else t
  | .remove p => if p = page ∧ t.removed < t.added then { t with removed := t.removed + 1 } else t

def tally (ops : List RefOp) (page : ℕ) : Tally := ops.foldl (tallyStep page) ⟨0, 0⟩

def Referenced (ops : List RefOp) (page : ℕ) : Prop := (tally ops page).removed < (tally ops page).added

instance (ops : List RefOp) (page : ℕ) : Decidable (Referenced ops page) := inferInstanceAs (Decidable (_ < _))

section Loops

def searchLoop (table : PageRefTable) (page : ℕ) : ProbeLoop where
  stop idx := !(decide (table.keys idx ≠ page) && decide (1 ≤ table.values idx))
  guarded := true
  cap := table.capacity
  start := hashInt64 page % table.capacity

/-- The loop of `addReferenceFor` that looks for a slot for a new record. -/
def insertLoop (table : PageRefTable) (page : ℕ) : ProbeLoop where
  stop idx := !(decide (table.keys idx ≠ page) && decide (1 < table.values idx))
  guarded := false
  cap := table.capacity
  start := hashInt64 page % table.capacity

/-- The new arrays when the slots before `i` were copied. -/
def rebuilt (table : PageRefTable) (new_size i : ℕ) : (ℕ → ℕ) × (ℕ → ℕ) :=
  (List.range i).foldl (rebuildStep table new_size) (fun _ => 0, fun _ => 0)

/-- The inner loops of `rebuildPageRefTable`. -/
def rebuildLoops (table : PageRefTable) (new_size : ℕ) : List ProbeLoop :=
  (List.range table.capacity).flatMap fun i =>
    if 1 < table.values i then
      [{ stop := fun idx => !decide (1 ≤ (rebuilt table new_size i).2 idx)
         guarded := false
         cap := new_size
         start := hashInt64 (table.keys i) % new_size }]
    else []

def resizeLoops (table : PageRefTable) : List ProbeLoop :=
  if table.capacity < minTableCapacity then
    rebuildLoops table minTableCapacity
  else if minTableCapacity < table.capacity ∧ table.count * 4 < table.capacity then
    rebuildLoops table (table.capacity / 2)
  else if table.capacity * 2 < table.count * 3 then
    rebuildLoops table (table.capacity * 3 / 2)
  else []

def Found (table : PageRefTable) (page : ℕ) : Prop :=
  table.keys (findIndex table page) = page ∧ 1 < table.values (findIndex table page)

instance (table : PageRefTable) (page : ℕ) : Decidable (Found table page) := inferInstanceAs (Decidable (_ ∧ _))

/-- The loops that an operation runs. -/
def probeLoops (table : PageRefTable) : RefOp → List ProbeLoop
  | .add page =>
    let resized := testForResize table
    resizeLoops table ++ searchLoop resized page :: if Found resized page then [] else [insertLoop resized page]
  | .remove page =>
    if table.count ≠ 0 then
      let idx := findIndex table page
      searchLoop table page ::
        if Found table page ∧ table.values idx - 1 = 1 then
          resizeLoops { table with values := Function.update table.values idx (table.values idx - 1), count := table.count - 1 }
        else []
    else []

def testLoops (table : PageRefTable) (page : ℕ) : List ProbeLoop :=
  if table.count = 0 then [] else [searchLoop table page]

variable {table : PageRefTable} {page : ℕ} {l : ProbeLoop}

theorem searchLoop_ends (hpos : 0 < table.capacity) (page : ℕ) : (searchLoop table page).Ends :=
  ProbeLoop.ends_of_guarded (Nat.mod_lt _ hpos) rfl

theorem insertLoop_ends (hw : Wf table) (hroom : table.count < table.capacity) (page : ℕ) : (insertLoop table page).Ends :=
  ProbeLoop.ends_of_exists (Nat.mod_lt _ (by omega)) (exists_dead_slot hw hroom page)

theorem rebuildLoops_end (hw : Wf table) {size : ℕ} (hsize : table.count < size) (hl : l ∈ rebuildLoops table size) :
    l.Ends := by
  obtain ⟨i, hi, hl⟩ := List.mem_flatMap.mp hl
  have hi := List.mem_range.mp hi
  split_ifs at hl with hv
  · rw [List.mem_singleton] at hl
    subst hl
    exact ProbeLoop.ends_of_exists (Nat.mod_lt _ (by omega)) ((copied_all hw size hsize hi.le).free_slot hw hi hsize)
  · cases hl

theorem Wf.count_eq_zero (hw : Wf table) (h : table.capacity = 0) : table.count = 0 := by
  rw [hw.count_eq]
  simp [liveSlots, h]

theorem resizeLoops_end (hw : Wf table) (hl : l ∈ resizeLoops table) : l.Ends := by
  have hzero := hw.count_eq_zero
  have hlt := hw.count_lt
  simp only [resizeLoops, minTableCapacity] at hl
  split_ifs at hl with h1 h2 h3
  · exact rebuildLoops_end hw (show table.count < 128 by omega) hl
  · exact rebuildLoops_end hw (by omega) hl
  · exact rebuildLoops_end hw (by omega) hl
  · cases hl

theorem probeLoops_end (hw : Wf table) (op : RefOp) (hl : l ∈ probeLoops table op) : l.Ends := by
  cases op with
  | add page =>
    have hr := testForResize_resized hw
    have hroom := hr.room
    simp only [probeLoops, List.mem_append, List.mem_cons] at hl
    rcases hl with hl | rfl | hl
    · exact resizeLoops_end hw hl
    · exact searchLoop_ends (by omega) page
    · split_ifs at hl with hfound
      · cases hl
      · rw [List.mem_singleton] at hl
        subst hl
        exact insertLoop_ends hr.wf (by omega) page
  | remove page =>
    simp only [probeLoops] at hl
    split_ifs at hl with hc hfound
    · rcases List.mem_cons.mp hl with rfl | hl
      · exact searchLoop_ends (Nat.pos_of_ne_zero fun h => hc (hw.count_eq_zero h)) page
      · obtain ⟨⟨hkey, hv⟩, hone⟩ := hfound
        have hpos : 0 < table.capacity := Nat.pos_of_ne_zero fun h => hc (hw.count_eq_zero h)
        have hlive : Live table (findIndex table page) := ⟨probe_lt (Nat.mod_lt _ hpos), hv⟩
        rw [hone] at hl
        exact resizeLoops_end (drop_spec hw hlive).1 hl
    · rw [List.mem_singleton] at hl
      subst hl
      exact searchLoop_ends (Nat.pos_of_ne_zero fun h => hc (hw.count_eq_zero h)) page
    · cases hl

theorem testLoops_end (hw : Wf table) (hl : l ∈ testLoops table page) : l.Ends := by
  unfold testLoops at hl
  split_ifs at hl with hc
  · cases hl
  · rw [List.mem_singleton] at hl
    subst hl
    exact searchLoop_ends (Nat.pos_of_ne_zero fun h => hc (hw.count_eq_zero h)) page

end Loops

/-- The table records for each page one more than the references that are left. -/
structure Records (ops : List RefOp) (table : PageRefTable) : Prop where
  wf : Wf table
  le : ∀ page, (tally ops page).removed ≤ (tally ops page).added
  references : ∀ page, references table page + (tally ops page).removed = (tally ops page).added + 1

section Runs
variable {table : PageRefTable} {ops : List RefOp}

theorem tally_snoc (ops : List RefOp) (op : RefOp) (page : ℕ) :
    tally (ops ++ [op]) page = tallyStep page (tally ops page) op := by
  simp [tally]

theorem Records.step (h : Records ops table) (op : RefOp) : Records (ops ++ [op]) (refStep table op) := by
  cases op with
  | add p =>
    obtain ⟨hw, hself, hothers⟩ := addReferenceFor_spec h.wf p
    refine ⟨hw, fun page => ?_, fun page => ?_⟩
    · have hle := h.le page
      rw [tally_snoc]
      simp only [tallyStep]
      split_ifs with hp
      · exact hle.trans (Nat.le_succ _)
      · exact hle
    · have href := h.references page
      rw [tally_snoc]
      simp only [tallyStep, refStep]
      split_ifs with hp
      · subst hp
        rw [hself]
        dsimp only
        omega
      · rw [hothers page (Ne.symm hp)]
        exact href
  | remove p =>
    obtain ⟨hw, hself, hothers⟩ := removeReferenceFor_spec h.wf p
    refine ⟨hw, fun page => ?_, fun page => ?_⟩
    · have hle := h.le page
      rw [tally_snoc]
      simp only [tallyStep]
      split_ifs with hp
      · exact hp.2
      · exact hle
    · have href := h.references page
      rw [tally_snoc]
      simp only [tallyStep, refStep]
      by_cases hpage : p = page
      · subst hpage
        rw [hself]
        split_ifs with href' hp hp
        · show PageRef.references table p - 1 + ((tally ops p).removed + 1) = (tally ops p).added + 1
          omega
        · omega
        · omega
        · omega
      · rw [hothers page (Ne.symm hpage), if_neg fun hp => hpage hp.1]
        exact href

theorem records_run (ops : List RefOp) : Records ops (refRun ops) := by
  induction ops using List.reverseRecOn with
  | nil => exact ⟨empty_wf, fun _ => le_refl 0, fun _ => rfl⟩
  | append_singleton ops op ih =>
    have hrun : refRun (ops ++ [op]) = refStep (refRun ops) op := by simp [refRun]
    rw [hrun]
    exact ih.step op

theorem Records.one_lt_iff (h : Records ops table) (page : ℕ) : 1 < PageRef.references table page ↔ Referenced ops page := by
  have := h.references page
  unfold Referenced
  omega

theorem page_of_referenced {page : ℕ} (h : Referenced ops page) : page ∈ ops.map RefOp.page := by
  by_contra hno
  have hnone : ∀ t : Tally, ops.foldl (tallyStep page) t = t := by
    intro t
    clear h
    induction ops generalizing t with
    | nil => rfl
    | cons op ops ih =>
      rw [List.map_cons, List.mem_cons, not_or] at hno
      have hop : tallyStep page t op = t := by
        cases op with
        | add p => exact if_neg fun hp => hno.1 hp.symm
        | remove p => exact if_neg fun hp => hno.1 hp.1.symm
      rw [List.foldl_cons, hop]
      exact ih hno.2 t
  have hzero : tally ops page = ⟨0, 0⟩ := hnone _
  rw [Referenced, hzero] at h
  exact absurd h (lt_irrefl 0)

/-- The live slots are as many as the pages with a reference. -/
theorem Records.count_eq (h : Records ops table) :
    table.count = ((ops.map RefOp.page).toFinset.filter (Referenced ops)).card := by
  have himage : (ops.map RefOp.page).toFinset.filter (Referenced ops) = (liveSlots table).image table.keys := by
    ext page
    rw [Finset.mem_filter, List.mem_toFinset, Finset.mem_image]
    constructor
    · rintro ⟨-, href⟩
      rcases live_or_not table page with ⟨i, hi, hk⟩ | hno
      · exact ⟨i, mem_liveSlots.mpr hi, hk⟩
      · have := (h.one_lt_iff page).mpr href
        rw [references_of_not_live hno] at this
        exact absurd this (lt_irrefl 1)
    · rintro ⟨i, hi, rfl⟩
      have hi := mem_liveSlots.mp hi
      have href : Referenced ops (table.keys i) := by
        rw [← h.one_lt_iff, references_of_live h.wf hi rfl]
        exact hi.2
      exact ⟨page_of_referenced href, href⟩
  rw [himage, Finset.card_image_of_injOn, h.wf.count_eq]
  intro i hi j hj heq
  exact h.wf.unique i j (mem_liveSlots.mp hi) (mem_liveSlots.mp hj) heq

/-- The table answers by the references that are left for a page, counts the pages with one, and all its
probe loops end. -/
theorem refTable_refines_map (zero_page : ℕ) (ops : List RefOp) :
    (∀ page, page ≠ zero_page → (hasOtherReferences zero_page (refRun ops) page = true ↔ Referenced ops page)) ∧
    (refRun ops).count = ((ops.map RefOp.page).toFinset.filter (Referenced ops)).card ∧
    (∀ op, ∀ l ∈ probeLoops (refRun ops) op, l.Ends) ∧
    ∀ page, ∀ l ∈ testLoops (refRun ops) page, l.Ends := by
  have h := records_run ops
  refine ⟨fun page hp => ?_, h.count_eq, fun op l hl => probeLoops_end h.wf op hl, fun page l hl => testLoops_end h.wf hl⟩
  rw [hasOtherReferences_eq h.wf hp, decide_eq_true_iff]
  exact h.one_lt_iff page

end Runs

/-- A page is referenced again after its record was removed and another page was added. -/
theorem refTable_refines_map_reused :
    hasOtherReferences 4096 (refRun [.add 8192, .remove 8192, .remove 8192, .add 12288, .add 8192]) 8192 = true ∧
    (refRun [.add 8192, .remove 8192, .remove 8192, .add 12288, .add 8192]).count = 2 := by
  obtain ⟨htest, hcount, -⟩ :=
    refTable_refines_map 4096 [.add 8192, .remove 8192, .remove 8192, .add 12288, .add 8192]
  refine ⟨(htest 8192 (by decide)).mpr (by decide), ?_⟩
  rw [hcount]
  decide

end SomeOs.PageRef
