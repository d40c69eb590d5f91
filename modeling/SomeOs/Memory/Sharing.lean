import SomeOs.Memory.Accounting

/-! # Copying and freeing whole tables

Cloning shares every frame of a table and counts one more reference for each of
its leaves. Freeing gives up one reference for each leaf and hands a frame back
when the last one goes.
-/
namespace SomeOs.MemSpace
open SparseArray PageRef Paging

theorem pageAddr_inj {f g : ℕ} (h : pageAddr f = pageAddr g) : f = g := by
  simp only [pageAddr, pageSize] at h
  omega

def sharedEntry (zp : ℕ) (e : PageTableEntry) : PageTableEntry :=
  if e.w && e.paddr != zp then { e with c := true, w := false } else e

@[simp] theorem sharedEntry_paddr (zp : ℕ) (e : PageTableEntry) :
    (sharedEntry zp e).paddr = e.paddr := by
  unfold sharedEntry
  split_ifs <;> rfl

@[simp] theorem sharedEntry_v (zp : ℕ) (e : PageTableEntry) : (sharedEntry zp e).v = e.v := by
  unfold sharedEntry
  split_ifs <;> rfl

@[simp] theorem sharedEntry_g (zp : ℕ) (e : PageTableEntry) : (sharedEntry zp e).g = e.g := by
  unfold sharedEntry
  split_ifs <;> rfl

theorem sharedEntry_w {zp : ℕ} {e : PageTableEntry} (h : (sharedEntry zp e).w = true) :
    e.w = true ∧ e.paddr = zp := by
  unfold sharedEntry at h
  split_ifs at h with hc
  refine ⟨h, ?_⟩
  simpa [h] using hc

structure Clonable (zp : ℕ) (e : PageTableEntry) : Prop where
  plain : e.g = false
  readable : e.w = true → e.paddr ≠ zp → e.r = true ∨ e.x = true

theorem Clonable.rwx {zp : ℕ} {e : PageTableEntry} (h : Clonable zp e) (hx : e.rwx = true) :
    (sharedEntry zp e).rwx = true := by
  unfold sharedEntry
  split_ifs with hc
  · simp only [Bool.and_eq_true, bne_iff_ne, ne_eq] at hc
    rcases h.readable hc.1 hc.2 with h1 | h1 <;> simp [PageEntryBits.rwx, h1]
  · exact hx

/-- One shared leaf: both entries are the shared one, and one reference more is
counted unless the frame is the zero page. -/
theorem copyMemoryPageEntry_spec (zp : ℕ) {refs : PageRefTable} {e : PageTableEntry}
    (hw : Wf refs) (hp : e.g = false) :
    (copyMemoryPageEntry zp refs e e).1 = sharedEntry zp e ∧
      (copyMemoryPageEntry zp refs e e).2.1 = sharedEntry zp e ∧
      Wf (copyMemoryPageEntry zp refs e e).2.2 ∧
      ∀ f, f ≠ zp → references (copyMemoryPageEntry zp refs e e).2.2 (pageAddr f) =
        references refs (pageAddr f) + mapsTo e f := by
  unfold copyMemoryPageEntry
  rw [if_neg (by simp [hp])]
  by_cases hz : e.paddr = zp
  · rw [if_pos hz]
    have hsame : sharedEntry zp e = e := by simp [sharedEntry, hz]
    refine ⟨hsame.symm, hsame.symm, hw, fun f hf => ?_⟩
    have hne : e.paddr ≠ f := fun h => hf (h.symm.trans hz)
    simp [mapsTo, hne]
  · rw [if_neg hz]
    obtain ⟨hwf, hinc, hother⟩ := addReferenceFor_spec hw (pageAddr e.paddr)
    have hrefs : ∀ f, f ≠ zp → references (addReferenceFor refs (pageAddr e.paddr)) (pageAddr f) =
        references refs (pageAddr f) + mapsTo e f := by
      intro f _
      by_cases hef : e.paddr = f
      · subst hef
        simp [mapsTo, hinc]
      · simp [mapsTo, hef, hother (pageAddr f) (fun h => hef (pageAddr_inj h).symm)]
    cases hew : e.w with
    | true =>
      have hshared : sharedEntry zp e = { e with c := true, w := false } := by
        simp [sharedEntry, hew, hz]
      simp only [if_true]
      exact ⟨hshared.symm, hshared.symm, hwf, hrefs⟩
    | false =>
      have hsame : sharedEntry zp e = e := by simp [sharedEntry, hew]
      simp only [Bool.false_eq_true, if_false]
      exact ⟨hsame.symm, hsame.symm, hwf, hrefs⟩

structure FramesShared (zp : ℕ) (es : List PageTableEntry) (tables : List ℕ)
    (st st' : FrameState) : Prop where
  wf : Wf st'.refs
  free : ∀ f, tables.count f + st'.free.count f = st.free.count f
  refs : ∀ f, f ≠ zp →
    references st'.refs (pageAddr f) = references st.refs (pageAddr f) + mapCount es f

theorem FramesShared.append {zp : ℕ} {es es' : List PageTableEntry} {tables tables' : List ℕ}
    {st st' st'' : FrameState} (h : FramesShared zp es tables st st')
    (h' : FramesShared zp es' tables' st' st'') :
    FramesShared zp (es ++ es') (tables ++ tables') st st'' where
  wf := h'.wf
  free := fun f => by
    have h1 := h.free f
    have h2 := h'.free f
    simp only [List.count_append]
    omega
  refs := fun f hf => by
    rw [h'.refs f hf, h.refs f hf, mapCount_append]
    omega

structure TableShared (zp n base : ℕ) (src dst src' : PageTable) : Prop where
  copy_leaves : leavesFrom n base dst = (leavesFrom n base src).map (fun p => (p.1, sharedEntry zp p.2))
  source_leaves : leavesFrom n base src' = (leavesFrom n base src).map (fun p => (p.1, sharedEntry zp p.2))
  regular : Regular n dst ∧ Regular n src'
  tables : tablesFrom n src' = tablesFrom n src

structure SlotShared (zp n base : ℕ) (src dst src' : Slot) : Prop where
  copy_leaves : slotLeaves n base dst = (slotLeaves n base src).map (fun p => (p.1, sharedEntry zp p.2))
  source_leaves : slotLeaves n base src' = (slotLeaves n base src).map (fun p => (p.1, sharedEntry zp p.2))
  regular : RegularSlot n dst ∧ RegularSlot n src'
  tables : slotTables n src' = slotTables n src

/-- The slots of a table are copied one after the other. -/
theorem copySlots_spec {zp n base : ℕ} {copy : Slot → FrameState → Option (Slot × Slot × FrameState)}
    (hcopy : ∀ {base s st d s' st'}, RegularSlot n s → (∀ p ∈ slotLeaves n base s, Clonable zp p.2) →
      Wf st.refs → copy s st = some (d, s', st') → SlotShared zp n base s d s' ∧
        FramesShared zp ((slotLeaves n base s).map Prod.snd) (slotTables n d) st st')
    {src dst src' : PageTable} {st st' : FrameState} (hr : Regular n src)
    (hclone : ∀ p ∈ leavesFrom n base src, Clonable zp p.2) (hw : Wf st.refs)
    (h : copySlots copy src st = some (dst, src', st')) :
    TableShared zp n base src dst src' ∧
      FramesShared zp ((leavesFrom n base src).map Prod.snd) (tablesFrom n dst) st st' := by
  induction src generalizing st dst src' with
  | nil =>
    simp only [copySlots, Option.some.injEq, Prod.mk.injEq] at h
    obtain ⟨rfl, rfl, rfl⟩ := h
    refine ⟨⟨rfl, rfl, ⟨hr, hr⟩, rfl⟩, ⟨hw, fun f => ?_, fun f _ => rfl⟩⟩
    simp [tablesFrom]
  | cons p rest ih =>
    obtain ⟨i, s⟩ := p
    simp only [copySlots, Option.bind_eq_some_iff, Option.map_eq_some_iff, Prod.mk.injEq] at h
    obtain ⟨⟨d, s', st₁⟩, hslot, ⟨dst₁, src₁, st₂⟩, hrest, rfl, rfl, rfl⟩ := h
    rw [leavesFrom_cons] at hclone
    obtain ⟨hs, hf⟩ := hcopy (hr (i, s) (by simp))
      (fun p hp => hclone p (List.mem_append_left _ hp)) hw hslot
    obtain ⟨ht, hf'⟩ := ih (fun p hp => hr p (List.mem_cons_of_mem _ hp))
      (fun p hp => hclone p (List.mem_append_right _ hp)) hf.wf hrest
    refine ⟨⟨?_, ?_, ⟨?_, ?_⟩, ?_⟩, ?_⟩
    · rw [leavesFrom_cons, leavesFrom_cons, List.map_append, hs.copy_leaves, ht.copy_leaves]
    · rw [leavesFrom_cons, leavesFrom_cons, List.map_append, hs.source_leaves, ht.source_leaves]
    · intro p hp
      rcases List.mem_cons.mp hp with rfl | hp
      · exact hs.regular.1
      · exact ht.regular.1 p hp
    · intro p hp
      rcases List.mem_cons.mp hp with rfl | hp
      · exact hs.regular.2
      · exact ht.regular.2 p hp
    · have := ht.tables
      simp only [tablesFrom, List.flatMap_cons] at this ⊢
      rw [hs.tables, this]
    · have := hf.append hf'
      rw [leavesFrom_cons, List.map_append]
      simpa only [tablesFrom, List.flatMap_cons] using this

theorem slotLeaves_leaf {n base : ℕ} {e : PageTableEntry} {next : PageTable} (hv : e.v = true)
    (hx : e.rwx = true) : slotLeaves n base (.mk e next) = [(base, e)] := by
  cases n <;> simp [slotLeaves, hv, hx]

theorem slotLeaves_invalid {n base : ℕ} {e : PageTableEntry} {next : PageTable} (hv : e.v = false) :
    slotLeaves n base (.mk e next) = [] := by
  cases n <;> simp [slotLeaves, hv]

theorem regularSlot_invalid {n : ℕ} {e : PageTableEntry} {next : PageTable} (hv : e.v = false) :
    RegularSlot n (.mk e next) := by
  cases n <;> simp [RegularSlot, hv]

/-- A slot is shared with everything below it. -/
theorem copySlot_spec {zp n base : ℕ} {s d s' : Slot} {st st' : FrameState} (hr : RegularSlot n s)
    (hclone : ∀ p ∈ slotLeaves n base s, Clonable zp p.2) (hw : Wf st.refs)
    (h : copySlot zp n s st = some (d, s', st')) :
    SlotShared zp n base s d s' ∧
      FramesShared zp ((slotLeaves n base s).map Prod.snd) (slotTables n d) st st' := by
  induction n generalizing base s d s' st st' with
  | zero =>
    obtain ⟨e, next⟩ := s
    simp only [copySlot] at h
    cases hv : e.v with
    | false =>
      simp only [hv, Bool.false_eq_true, if_false, Option.some.injEq, Prod.mk.injEq] at h
      obtain ⟨rfl, rfl, rfl⟩ := h
      refine ⟨⟨?_, ?_, ⟨regularSlot_invalid hv, regularSlot_invalid hv⟩, rfl⟩, ?_⟩
      · simp [slotLeaves_invalid hv]
      · simp [slotLeaves_invalid hv]
      · rw [slotLeaves_invalid hv]
        exact ⟨hw, fun f => by simp [slotTables], fun f _ => rfl⟩
    | true =>
      have hx := hr hv
      simp only [hv, hx, if_true, Option.some.injEq, Prod.mk.injEq] at h
      obtain ⟨rfl, rfl, rfl⟩ := h
      rw [slotLeaves_leaf hv hx] at hclone ⊢
      have hc : Clonable zp e := hclone (base, e) (by simp)
      obtain ⟨h1, h2, hwf, hrefs⟩ := copyMemoryPageEntry_spec zp hw hc.plain
      have hsx := hc.rwx hx
      rw [h1, h2]
      refine ⟨⟨?_, ?_, ⟨fun _ => hsx, fun _ => hsx⟩, rfl⟩, ⟨hwf, fun f => ?_, fun f hf => ?_⟩⟩
      · rw [slotLeaves_leaf (by simpa using hv) hsx, slotLeaves_leaf hv hx]
        rfl
      · rw [slotLeaves_leaf (by simpa using hv) hsx, slotLeaves_leaf hv hx]
        rfl
      · simp [slotTables]
      · simpa using hrefs f hf
  | succ n ih =>
    obtain ⟨e, next⟩ := s
    simp only [copySlot] at h
    cases hv : e.v with
    | false =>
      simp only [hv, Bool.false_eq_true, if_false, Option.some.injEq, Prod.mk.injEq] at h
      obtain ⟨rfl, rfl, rfl⟩ := h
      refine ⟨⟨?_, ?_, ⟨regularSlot_invalid hv, regularSlot_invalid hv⟩, rfl⟩, ?_⟩
      · simp [slotLeaves_invalid hv]
      · simp [slotLeaves_invalid hv]
      · rw [slotLeaves_invalid hv]
        exact ⟨hw, fun f => by simp [slotTables, hv], fun f _ => rfl⟩
    | true =>
      obtain ⟨hx, hnext⟩ := hr hv
      simp only [hv, hx, if_true, Bool.false_eq_true, if_false] at h
      cases hfree : st.free with
      | nil => simp [hfree] at h
      | cons page free =>
        simp only [hfree, Option.map_eq_some_iff, Prod.mk.injEq] at h
        obtain ⟨⟨dst, src', st₁⟩, hcopy, rfl, rfl, rfl⟩ := h
        rw [slotLeaves_branch hv hx] at hclone ⊢
        have hw₀ : Wf (FrameState.mk st.refs free).refs := hw
        obtain ⟨ht, hf⟩ := copySlots_spec ih hnext hclone hw₀ hcopy
        have hdv : ({ e with paddr := page } : PageTableEntry).v = true := hv
        have hdx : ({ e with paddr := page } : PageTableEntry).rwx = false := hx
        refine ⟨⟨?_, ?_, ⟨fun _ => ⟨hdx, ht.regular.1⟩, fun _ => ⟨hx, ht.regular.2⟩⟩, ?_⟩, hf.wf,
          fun f => ?_, hf.refs⟩
        · rw [slotLeaves_branch hdv hdx, slotLeaves_branch hv hx, ht.copy_leaves]
        · rw [slotLeaves_branch hv hx, slotLeaves_branch hv hx, ht.source_leaves]
        · rw [slotTables_branch hv hx, slotTables_branch hv hx, ht.tables]
        · have := hf.free f
          simp only [slotTables_branch hdv hdx, hfree, List.count_cons] at this ⊢
          omega

theorem copyAllPagesAndAllocUsers_spec {zp : ℕ} {src dst src' : PageTable} {st st' : FrameState}
    (hr : Regular 2 src) (hclone : ∀ e ∈ entries src, Clonable zp e) (hw : Wf st.refs)
    (h : copyAllPagesAndAllocUsers zp src st = some (dst, src', st')) :
    TableShared zp 2 0 src dst src' ∧ FramesShared zp (entries src) (tablesFrom 2 dst) st st' :=
  copySlots_spec copySlot_spec hr (fun p hp => hclone p.2 (List.mem_map.mpr ⟨p, hp, rfl⟩)) hw h

theorem TableShared.entries_dst {zp : ℕ} {src dst src' : PageTable}
    (h : TableShared zp 2 0 src dst src') : entries dst = (entries src).map (sharedEntry zp) := by
  simp only [entries, leaves, h.copy_leaves, List.map_map]
  rfl

theorem TableShared.entries_src {zp : ℕ} {src dst src' : PageTable}
    (h : TableShared zp 2 0 src dst src') : entries src' = (entries src).map (sharedEntry zp) := by
  simp only [entries, leaves, h.source_leaves, List.map_map]
  rfl

theorem mapCount_shared (zp : ℕ) (es : List PageTableEntry) (f : ℕ) :
    mapCount (es.map (sharedEntry zp)) f = mapCount es f := by
  simp only [mapCount, List.countP_map]
  congr 1
  funext e
  simp

/-- What giving up the leaves `es` does to a frame: each takes one reference away,
and the one after the last counted reference hands the frame back. -/
structure FramesDropped (zp : ℕ) (es : List PageTableEntry) (tables : List ℕ)
    (st st' : FrameState) : Prop where
  wf : Wf st'.refs
  refs : ∀ f, f ≠ zp →
    references st'.refs (pageAddr f) = max 1 (references st.refs (pageAddr f) - mapCount es f)
  free : ∀ f, f ≠ zp → st'.free.count f = st.free.count f + tables.count f +
    (mapCount es f + 1 - references st.refs (pageAddr f))
  zero : st'.free.count zp = st.free.count zp + tables.count zp

theorem FramesDropped.refl (zp : ℕ) {st : FrameState} (hw : Wf st.refs) :
    FramesDropped zp [] [] st st where
  wf := hw
  refs := fun f _ => by
    have := one_le_references hw (pageAddr f)
    simp only [mapCount_nil]
    omega
  free := fun f _ => by
    have := one_le_references hw (pageAddr f)
    simp only [mapCount_nil, List.count_nil]
    omega
  zero := by simp

theorem FramesDropped.append {zp : ℕ} {es es' : List PageTableEntry} {tables tables' : List ℕ}
    {st st' st'' : FrameState} (h : FramesDropped zp es tables st st')
    (h' : FramesDropped zp es' tables' st' st'') :
    FramesDropped zp (es ++ es') (tables ++ tables') st st'' where
  wf := h'.wf
  refs := fun f hf => by
    rw [h'.refs f hf, h.refs f hf, mapCount_append]
    omega
  free := fun f hf => by
    rw [h'.free f hf, h.free f hf, h.refs f hf, mapCount_append, List.count_append]
    omega
  zero := by
    rw [h'.zero, h.zero, List.count_append]
    omega

/-- A leaf gives up its frame. -/
theorem freePageEntryData_spec (zp : ℕ) {st : FrameState} {e : PageTableEntry} (hw : Wf st.refs)
    (hp : e.g = false) : FramesDropped zp [e] [] st (freePageEntryData zp st e) := by
  unfold freePageEntryData
  rw [if_neg (by simp [hp])]
  by_cases hz : e.paddr = zp
  · rw [if_pos hz]
    have hnone : ∀ f, f ≠ zp → mapCount [e] f = mapCount [] f := by
      intro f hf
      have hne : e.paddr ≠ f := fun h => hf (h.symm.trans hz)
      simp [mapsTo, hne]
    have hsame := FramesDropped.refl zp hw
    exact ⟨hw, fun f hf => by rw [hnone f hf]; exact hsame.refs f hf,
      fun f hf => by rw [hnone f hf]; exact hsame.free f hf, hsame.zero⟩
  · rw [if_neg hz, hasOtherReferences_eq hw (fun h => hz (pageAddr_inj h))]
    have hone := one_le_references hw (pageAddr e.paddr)
    by_cases hmany : 1 < references st.refs (pageAddr e.paddr)
    · obtain ⟨hwf, hdec, hother⟩ := removeReferenceFor_spec hw (pageAddr e.paddr)
      rw [if_pos hmany] at hdec
      rw [if_pos (by simpa using hmany)]
      refine ⟨hwf, fun f _ => ?_, fun f _ => ?_, by simp⟩
      · by_cases hef : e.paddr = f
        · subst hef
          simp only [mapCount_cons, mapCount_nil, mapsTo, if_true, hdec]
          omega
        · have hf := one_le_references hw (pageAddr f)
          rw [hother (pageAddr f) (fun h => hef (pageAddr_inj h).symm)]
          simp only [mapCount_cons, mapCount_nil, mapsTo, if_neg hef]
          omega
      · have hf := one_le_references hw (pageAddr f)
        by_cases hef : e.paddr = f
        · subst hef
          simp only [mapCount_cons, mapCount_nil, mapsTo, if_true, List.count_nil]
          omega
        · simp only [mapCount_cons, mapCount_nil, mapsTo, if_neg hef, List.count_nil]
          omega
    · rw [if_neg (by simpa using hmany)]
      refine ⟨hw, fun f _ => ?_, fun f _ => ?_, ?_⟩
      · have hf := one_le_references hw (pageAddr f)
        by_cases hef : e.paddr = f
        · subst hef
          simp only [mapCount_cons, mapCount_nil, mapsTo, if_true]
          omega
        · simp only [mapCount_cons, mapCount_nil, mapsTo, if_neg hef]
          omega
      · have hf := one_le_references hw (pageAddr f)
        by_cases hef : e.paddr = f
        · subst hef
          simp only [mapCount_cons, mapCount_nil, mapsTo, if_true, List.count_cons, List.count_nil,
            beq_self_eq_true]
          omega
        · simp only [mapCount_cons, mapCount_nil, mapsTo, if_neg hef, List.count_cons, List.count_nil,
            beq_iff_eq]
          omega
      · simp [hz]

theorem FramesDropped.branch {zp page : ℕ} {es : List PageTableEntry} {tables : List ℕ}
    {st st' : FrameState} (h : FramesDropped zp es tables st st') :
    FramesDropped zp es (page :: tables) st { st' with free := page :: st'.free } where
  wf := h.wf
  refs := h.refs
  free := fun f hf => by
    simp only [List.count_cons, h.free f hf]
    omega
  zero := by
    simp only [List.count_cons, h.zero]
    omega

theorem freeSlots_spec {zp n base : ℕ} {free : FrameState → Slot → FrameState}
    (hfree : ∀ {base s st}, RegularSlot n s → (∀ p ∈ slotLeaves n base s, p.2.g = false) →
      Wf st.refs → FramesDropped zp ((slotLeaves n base s).map Prod.snd) (slotTables n s) st
        (free st s))
    {table : PageTable} {st : FrameState} (hr : Regular n table)
    (hp : ∀ p ∈ leavesFrom n base table, p.2.g = false) (hw : Wf st.refs) :
    FramesDropped zp ((leavesFrom n base table).map Prod.snd) (tablesFrom n table) st
      (table.foldl (fun st p => free st p.2) st) := by
  induction table generalizing st with
  | nil => exact .refl zp hw
  | cons p rest ih =>
    rw [leavesFrom_cons] at hp
    have hslot := hfree (hr p (by simp)) (fun q hq => hp q (List.mem_append_left _ hq)) hw
    have hrest := ih (fun q hq => hr q (List.mem_cons_of_mem _ hq))
      (fun q hq => hp q (List.mem_append_right _ hq)) hslot.wf
    have := hslot.append hrest
    rw [leavesFrom_cons, List.map_append, List.foldl_cons]
    simpa only [tablesFrom, List.flatMap_cons] using this

/-- A slot gives up all leaves below it and hands its table pages back. -/
theorem freeSlot_spec {zp n base : ℕ} {s : Slot} {st : FrameState} (hr : RegularSlot n s)
    (hp : ∀ p ∈ slotLeaves n base s, p.2.g = false) (hw : Wf st.refs) :
    FramesDropped zp ((slotLeaves n base s).map Prod.snd) (slotTables n s) st
      (freeSlot zp n st s) := by
  induction n generalizing base s st with
  | zero =>
    obtain ⟨e, next⟩ := s
    simp only [freeSlot]
    cases hv : e.v with
    | false =>
      rw [slotLeaves_invalid hv]
      exact .refl zp hw
    | true =>
      have hx := hr hv
      rw [slotLeaves_leaf hv hx] at hp ⊢
      simp only [hx, if_true]
      exact freePageEntryData_spec zp hw (hp (base, e) (by simp))
  | succ n ih =>
    obtain ⟨e, next⟩ := s
    simp only [freeSlot]
    cases hv : e.v with
    | false =>
      rw [slotLeaves_invalid hv, slotTables_not_branch (by simp [hv])]
      exact .refl zp hw
    | true =>
      obtain ⟨hx, hnext⟩ := hr hv
      rw [slotLeaves_branch hv hx] at hp ⊢
      rw [slotTables_branch hv hx]
      simp only [hx, if_true, Bool.false_eq_true, if_false]
      exact (freeSlots_spec ih hnext hp hw).branch

theorem freePagesInTable_spec (zp : ℕ) {table : PageTable} {st : FrameState} (hr : Regular 2 table)
    (hp : ∀ e ∈ entries table, e.g = false) (hw : Wf st.refs) :
    FramesDropped zp (entries table) (tablesFrom 2 table) st (freePagesInTable zp 2 st table) :=
  freeSlots_spec freeSlot_spec hr (fun p hm => hp p.2 (List.mem_map.mpr ⟨p, hm, rfl⟩)) hw

end SomeOs.MemSpace
