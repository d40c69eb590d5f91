import SomeOs.Memory.Accounting

/-! # The table edits of the single operations

Page faults, `mprotect`, heap growth and segment loading only edit the table of
one process. For each of them the entries that give way and the entries that take
their place are named, with what a writable new entry can refer to.
-/
namespace SomeOs.MemSpace
open SparseArray PageRef Paging

section Fault
variable {s : MemState} {id vaddr : ℕ}

/-- The outcomes of a page fault: nothing changes, or the entry becomes writable
and keeps its frame or gets the next free one. -/
theorem handlePageFault_cases (s : MemState) (id vaddr : ℕ) :
    handlePageFault s id vaddr = (false, s) ∨
    ∃ m e, get? s.spaces id = some m ∧ virtToEntry 2 m.mem vaddr = some e ∧ e.c = true ∧
      (handlePageFault s id vaddr).1 = true ∧
      ((e.paddr ≠ s.zero_page ∧
          hasOtherReferences (pageAddr s.zero_page) s.ref_count (pageAddr e.paddr) = false ∧
          (handlePageFault s id vaddr).2 =
            s.setMem id m (setEntry 2 m.mem vaddr (writableCopy e e.paddr))) ∨
        ∃ page free phys, s.free = page :: free ∧
          (e.paddr = s.zero_page ∨
            hasOtherReferences (pageAddr s.zero_page) s.ref_count (pageAddr e.paddr) = true) ∧
          (handlePageFault s id vaddr).2 =
            { s.setMem id m (setEntry 2 m.mem vaddr (writableCopy e page)) with
              free := free, phys := phys }) := by
  unfold handlePageFault
  cases hm : get? s.spaces id with
  | none => exact Or.inl rfl
  | some m =>
    simp only
    cases he : virtToEntry 2 m.mem vaddr with
    | none => exact Or.inl rfl
    | some e =>
      simp only
      by_cases hc : (e.v && e.c) = true
      · rw [if_pos hc]
        have hcc : e.c = true := by simp_all
        by_cases hz : e.paddr = s.zero_page
        · rw [if_pos hz]
          cases hfree : s.free with
          | nil => exact Or.inl rfl
          | cons page free =>
            exact Or.inr ⟨m, e, rfl, he, hcc, rfl, Or.inr ⟨page, free, _, rfl, Or.inl hz, rfl⟩⟩
        · rw [if_neg hz]
          cases hr : hasOtherReferences (pageAddr s.zero_page) s.ref_count (pageAddr e.paddr) with
          | false => exact Or.inr ⟨m, e, rfl, he, hcc, rfl, Or.inl ⟨hz, hr, rfl⟩⟩
          | true =>
            simp only [if_true]
            cases hfree : s.free with
            | nil => exact Or.inl rfl
            | cons page free =>
              exact Or.inr ⟨m, e, rfl, he, hcc, rfl, Or.inr ⟨page, free, _, rfl, Or.inr hr, rfl⟩⟩
      · rw [if_neg hc]
        exact Or.inl rfl

/-- A write access leaves the state as it is, or takes the fault of an entry that
cannot be written. -/
theorem virtToPhys_state (s : MemState) (id vaddr : ℕ) (allow_all : Bool) :
    (virtToPhys s (some id) vaddr true allow_all).2 = s ∨
      (∃ m e, get? s.spaces id = some m ∧ virtToEntry 2 m.mem vaddr = some e ∧ e.w = false) ∧
        (virtToPhys s (some id) vaddr true allow_all).2 = (handlePageFault s id vaddr).2 := by
  unfold virtToPhys
  simp only
  cases hm : get? s.spaces id with
  | none => exact Or.inl rfl
  | some m =>
    simp only
    cases he : virtToEntry 2 m.mem vaddr with
    | none => exact Or.inl rfl
    | some e =>
      simp only [if_true]
      cases hw : e.w with
      | true => exact Or.inl rfl
      | false =>
        simp only [Bool.false_eq_true, if_false]
        cases hc : e.c with
        | true =>
          refine Or.inr ⟨⟨m, e, rfl, he, hw⟩, ?_⟩
          simp only [if_true]
          split_ifs
          · split <;> rfl
          · rfl
        | false =>
          left
          simp only [Bool.false_eq_true, if_false]
          split_ifs <;> rfl

theorem writableCopy_rwx (e : PageTableEntry) (paddr : ℕ) : (writableCopy e paddr).rwx = true := by
  simp [writableCopy, PageEntryBits.rwx]

end Fault

section Protect
variable {request : ProtectSyscallRequest}

theorem protectCallback_keeps (h : request.protect &&& 7 ≠ 0) (e : PageTableEntry) (va : ℕ)
    (hv : e.v = true) (hx : e.rwx = true) :
    (allPagesProtectCallback request e va).v = true ∧
      (allPagesProtectCallback request e va).rwx = true := by
  unfold allPagesProtectCallback
  split_ifs
  · refine ⟨hv, ?_⟩
    simp only [PageEntryBits.rwx, Bool.or_eq_true, decide_eq_true_eq]
    by_contra hno
    push Not at hno
    obtain ⟨⟨h1, h2⟩, h4⟩ := hno
    apply h
    have hsplit : (7 : ℕ) = 1 ||| 2 ||| 4 := rfl
    rw [hsplit, Nat.and_or_distrib_left, Nat.and_or_distrib_left, h1, h2, h4]
    rfl
  · exact ⟨hv, hx⟩

@[simp] theorem protectCallback_paddr (e : PageTableEntry) (va : ℕ) :
    (allPagesProtectCallback request e va).paddr = e.paddr := by
  unfold allPagesProtectCallback
  split_ifs <;> rfl

@[simp] theorem protectCallback_g (e : PageTableEntry) (va : ℕ) :
    (allPagesProtectCallback request e va).g = e.g := by
  unfold allPagesProtectCallback
  split_ifs <;> rfl

theorem protect_maps (h : request.protect &&& 7 ≠ 0) {mem : PageTable} (hr : Regular 2 mem) (f : ℕ) :
    mapCount (entries (allPagesDo mem (allPagesProtectCallback request))) f =
      mapCount (entries mem) f := by
  simp only [entries, (leaves_allPagesDo (protectCallback_keeps h) hr).1, List.map_map, mapCount,
    List.countP_map]
  congr 1
  funext p
  simp

theorem protect_edit (zp : ℕ) (h : request.protect &&& 7 ≠ 0) {mem : PageTable} (free : List ℕ)
    (hr : Regular 2 mem) :
    TableEdit zp mem (allPagesDo mem (allPagesProtectCallback request)) free free (entries mem)
      (entries (allPagesDo mem (allPagesProtectCallback request))) [] := by
  have hl := leaves_allPagesDo (protectCallback_keeps h) hr
  refine ⟨fun _ => hl.2, fun f => ?_, fun f => ?_, fun f _ => ?_, fun e he => Or.inr he, ?_⟩
  · rw [protect_maps h hr]
  · rw [tables_allPagesDo hr]
    simp
  · rw [protect_maps h hr]
    simp
  · intro hp e he
    rw [entries, hl.1, List.map_map] at he
    obtain ⟨p, hpm, rfl⟩ := List.mem_map.mp he
    simpa using hp p.2 (List.mem_map.mpr ⟨p, hpm, rfl⟩)

end Protect

/-- Growing the heap maps the zero page read-only, over at most the entries that
were found in the new range. -/
theorem growHeap_edit {zp n vaddr : ℕ} {mem mem' : PageTable} {free free' : List ℕ}
    (h : growHeap zp n vaddr mem free = some (mem', free')) :
    ∃ old new, TableEdit zp mem mem' free free' old new [] ∧ (∀ e ∈ new, e.w = false) ∧
      ((∀ k < n, ∀ e, virtToEntry 2 mem (vaddr + k * pageSize) = some e → e.paddr = zp) →
        ∀ e ∈ old, e.paddr = zp) := by
  induction n generalizing vaddr mem free with
  | zero =>
    simp only [growHeap, Option.some.injEq, Prod.mk.injEq] at h
    obtain ⟨rfl, rfl⟩ := h
    exact ⟨[], [], .refl zp mem free, by simp, by simp⟩
  | succ n ih =>
    simp only [growHeap, Option.bind_eq_some_iff] at h
    obtain ⟨⟨mem₁, free₁⟩, hmap, hrec⟩ := h
    obtain ⟨old₁, hold, hedit⟩ := TableEdit.mapPage zp rfl hmap rfl
    obtain ⟨old₂, new₂, hedit₂, hw, hzero⟩ := ih hrec
    refine ⟨old₁ ++ old₂, [_] ++ new₂, hedit.trans hedit₂, ?_, fun hpages => ?_⟩
    · intro e he
      rcases List.mem_append.mp he with he | he
      · rw [List.mem_singleton] at he
        rw [he]
        rfl
      · exact hw e he
    · intro e he
      rcases List.mem_append.mp he with he | he
      · rcases hold with ⟨rfl, _⟩ | ⟨e₁, rfl, he₁⟩
        · simp at he
        · rw [List.mem_singleton] at he
          subst he
          exact hpages 0 (by omega) e (by simpa using he₁)
      · refine hzero (fun k hk x hx => ?_) e he
        rcases virtToEntry_mapPage hmap hx with rfl | hx
        · rfl
        · refine hpages (k + 1) (by omega) x ?_
          rw [← hx]
          congr 1
          simp only [pageSize]
          omega

section Segments
variable {zp filesz limit : ℕ} {bits : PageEntryBits}

/-- The pages a segment loop can visit: the ones from its start below the limit,
or any page below it when the loop wraps around the address space. -/
def SegmentPage (start limit p : ℕ) : Prop :=
  p % pageSize = 0 ∧ p < limit ∧ (start ≤ p ∨ 2 ^ 64 - pageSize < limit)

theorem segmentPage_next {start limit p q : ℕ} (hp : p % pageSize = 0) (hlt : p < limit)
    (hl : limit < 2 ^ 64)
    (hq : SegmentPage ((p + pageSize) % 2 ^ 64) limit q) (hs : start ≤ p) :
    SegmentPage start limit q := by
  obtain ⟨h1, h2, h3⟩ := hq
  refine ⟨h1, h2, ?_⟩
  rcases h3 with h3 | h3
  · by_cases hwrap : p + pageSize < 2 ^ 64
    · rw [Nat.mod_eq_of_lt hwrap] at h3
      exact Or.inl (by omega)
    · right
      simp only [pageSize] at *
      omega
  · exact Or.inr h3

theorem orBits_rwx {e : PageTableEntry} (h : e.rwx = true) : (e.orBits bits).rwx = true := by
  simp only [PageTableEntry.orBits, PageEntryBits.rwx, Bool.or_eq_true] at h ⊢
  tauto

/-- The loop over the file part of a segment: a new entry has a fresh frame, or
the one of an entry that was found in the range and may now be writable. -/
theorem allocateFilePages_edit (zp : ℕ) (hg : bits.g = false) (hl : limit < 2 ^ 64)
    {fuel position : ℕ} {st st' : LoadState} {b : Bool} {position' : ℕ}
    (hp : position % pageSize = 0)
    (h : allocateFilePages bits filesz limit fuel position st = some (b, position', st')) :
    ∃ old new taken, TableEdit zp st.table st'.table st.free st'.free old new taken ∧
      (∀ f, mapCount old f ≤ mapCount new f) ∧
      (∀ e ∈ new, e.paddr ∈ taken ∨ ∃ p e₀, SegmentPage position limit p ∧
        virtToEntry 2 st.table p = some e₀ ∧ e₀.paddr = e.paddr ∧
        (e.w = true → e₀.w = true ∨ bits.w = true)) ∧
      (∀ va x, virtToEntry 2 st'.table va = some x → x ∈ new ∨ virtToEntry 2 st.table va = some x) ∧
      position' % pageSize = 0 ∧ (b = true → max position limit ≤ position') := by
  induction fuel generalizing position st with
  | zero => simp [allocateFilePages] at h
  | succ fuel ih =>
    simp only [allocateFilePages] at h
    by_cases hlt : position < limit
    · rw [if_pos hlt] at h
      have hnext : (position + pageSize) % 2 ^ 64 % pageSize = 0 := by
        simp only [pageSize] at hp ⊢
        omega
      cases he : virtToEntry 2 st.table position with
      | some e =>
        simp only [he] at h
        obtain ⟨hev, hex⟩ := entries_valid (entry_mem he)
        obtain ⟨old, new, taken, hedit, hmaps, hnew, hview, hpos, hend⟩ := ih hnext h
        have hset : TableEdit zp st.table (setEntry 2 st.table position (e.orBits bits)) st.free st.free
            [e] [e.orBits bits] [] :=
          .setEntry he (by simp [PageTableEntry.orBits, hev]) (orBits_rwx hex)
            (by simp [PageTableEntry.orBits, hg]) rfl (Or.inl rfl)
        have hcur : ∀ va x, virtToEntry 2 (setEntry 2 st.table position (e.orBits bits)) va = some x →
            x = e.orBits bits ∨ virtToEntry 2 st.table va = some x :=
          fun va x hx => virtToEntry_setEntry (fun _ => orBits_rwx hex) hx
        have hhere : SegmentPage position limit position := ⟨hp, hlt, Or.inl le_rfl⟩
        have hw : (e.orBits bits).w = true → e.w = true ∨ bits.w = true := by
          simp [PageTableEntry.orBits]
        refine ⟨[e] ++ old, [e.orBits bits] ++ new, taken, by simpa using hset.trans hedit,
          fun f => ?_, fun x hxm => ?_, fun va x hxv => ?_, hpos, fun hb => by have := hend hb; omega⟩
        · have := hmaps f
          have hsame : mapsTo (e.orBits bits) f = mapsTo e f := rfl
          simp only [List.cons_append, List.nil_append, mapCount_cons, hsame]
          omega
        · rcases List.mem_append.mp hxm with hxm | hxm
          · rw [List.mem_singleton] at hxm
            subst hxm
            exact Or.inr ⟨position, e, hhere, he, rfl, hw⟩
          · rcases hnew x hxm with ht | ⟨p, e₀, hseg, he₀, hpa, hw₀⟩
            · exact Or.inl ht
            · rcases hcur p e₀ he₀ with rfl | he₀
              · exact Or.inr ⟨position, e, hhere, he, hpa, fun hxw => by
                  rcases hw₀ hxw with hw₀ | hw₀
                  · exact hw hw₀
                  · exact Or.inr hw₀⟩
              · exact Or.inr ⟨p, e₀, segmentPage_next hp hlt hl hseg le_rfl, he₀, hpa, hw₀⟩
        · rcases hview va x hxv with hxm | hxv
          · exact Or.inl (List.mem_append_right _ hxm)
          · rcases hcur va x hxv with rfl | hxv
            · exact Or.inl (by simp)
            · exact Or.inr hxv
      | none =>
        simp only [he] at h
        cases hfree : st.free with
        | nil =>
          simp only [hfree, Option.some.injEq, Prod.mk.injEq] at h
          obtain ⟨rfl, rfl, rfl⟩ := h
          refine ⟨[], [], [], hfree ▸ .refl zp st.table st.free, by simp, by simp, fun _ _ hx => Or.inr hx,
            hp, by simp⟩
        | cons page free =>
          simp only [hfree, Option.bind_eq_some_iff] at h
          obtain ⟨⟨mem₁, free₁⟩, hmap, hrec⟩ := h
          obtain ⟨old, new, taken, hedit, hmaps, hnew, hview, hpos, hend⟩ := ih hnext hrec
          have hfresh := TableEdit.mapFresh zp hg he hmap
          have hcur := fun va x (hx : virtToEntry 2 mem₁ va = some x) => virtToEntry_mapPage hmap hx
          refine ⟨[] ++ old, [{ bits with v := true, paddr := page }] ++ new, [page] ++ taken,
            hfresh.trans hedit, fun f => ?_, fun x hxm => ?_, fun va x hxv => ?_, hpos, fun hb => by have := hend hb; omega⟩
          · have := hmaps f
            simp only [List.nil_append, List.cons_append, mapCount_cons]
            omega
          · rcases List.mem_append.mp hxm with hxm | hxm
            · rw [List.mem_singleton] at hxm
              subst hxm
              exact Or.inl (by simp)
            · rcases hnew x hxm with ht | ⟨p, e₀, hseg, he₀, hpa, hw₀⟩
              · exact Or.inl (List.mem_append_right _ ht)
              · rcases hcur p e₀ he₀ with rfl | he₀
                · exact Or.inl (by simp [← hpa])
                · exact Or.inr ⟨p, e₀, segmentPage_next hp hlt hl hseg le_rfl, he₀, hpa, hw₀⟩
          · rcases hview va x hxv with hxm | hxv
            · exact Or.inl (List.mem_append_right _ hxm)
            · rcases hcur va x hxv with rfl | hxv
              · exact Or.inl (by simp)
              · exact Or.inr hxv
    · rw [if_neg hlt] at h
      cases h
      exact ⟨[], [], [], .refl zp _ _, by simp, by simp, fun _ _ hx => Or.inr hx,
        hp, fun _ => by omega⟩

/-- The loader's tables keep their copy-on-write pages readable or executable. -/
theorem allocateFilePages_loaded (hc : bits.c = false) {fuel position : ℕ} {st st' : LoadState}
    {b : Bool} {position' : ℕ} (hld : Loaded st.table)
    (h : allocateFilePages bits filesz limit fuel position st = some (b, position', st')) :
    Loaded st'.table := by
  induction fuel generalizing position st with
  | zero => simp [allocateFilePages] at h
  | succ fuel ih =>
    simp only [allocateFilePages] at h
    by_cases hlt : position < limit
    · rw [if_pos hlt] at h
      cases he : virtToEntry 2 st.table position with
      | some e =>
        simp only [he] at h
        obtain ⟨hev, hex⟩ := entries_valid (entry_mem he)
        refine ih (fun va x hx hxc => ?_) h
        rcases virtToEntry_setEntry (fun _ => orBits_rwx hex) hx with rfl | hx
        · simp only [PageTableEntry.orBits, hc, Bool.or_false, Bool.or_eq_true] at hxc ⊢
          rcases hld position e he hxc with h1 | h1 <;> simp [h1]
        · exact hld va x hx hxc
      | none =>
        simp only [he] at h
        cases hfree : st.free with
        | nil =>
          simp only [hfree, Option.some.injEq, Prod.mk.injEq] at h
          exact h.2.2 ▸ hld
        | cons page free =>
          simp only [hfree, Option.bind_eq_some_iff] at h
          obtain ⟨⟨mem₁, free₁⟩, hmap, hrec⟩ := h
          refine ih (fun va x hx hxc => ?_) hrec
          rcases virtToEntry_mapPage hmap hx with rfl | hx
          · simp [hc] at hxc
          · exact hld va x hx hxc
    · rw [if_neg hlt] at h
      cases h
      exact hld

def zeroPart (bits : PageEntryBits) (e : PageTableEntry) : PageTableEntry :=
  if (e.orBits bits).c then { e.orBits bits with w := false } else e.orBits bits

theorem zeroPart_rwx (hc : bits.c = false) {e : PageTableEntry} (hx : e.rwx = true)
    (hl : e.c = true → e.r = true ∨ e.x = true) : (zeroPart bits e).rwx = true := by
  unfold zeroPart
  split_ifs with h
  · have he : e.c = true := by simpa [PageTableEntry.orBits, hc] using h
    rcases hl he with h1 | h1 <;> simp [PageTableEntry.orBits, PageEntryBits.rwx, h1]
  · exact orBits_rwx hx

theorem zeroPart_v {e : PageTableEntry} (hv : e.v = true) : (zeroPart bits e).v = true := by
  unfold zeroPart
  split_ifs <;> simp [PageTableEntry.orBits, hv]

theorem zeroPart_g (hg : bits.g = false) (e : PageTableEntry) : (zeroPart bits e).g = e.g := by
  unfold zeroPart
  split_ifs <;> simp [PageTableEntry.orBits, hg]

theorem zeroPart_c (hc : bits.c = false) (e : PageTableEntry) : (zeroPart bits e).c = e.c := by
  unfold zeroPart
  split_ifs <;> simp [PageTableEntry.orBits, hc]

theorem zeroPart_paddr (e : PageTableEntry) : (zeroPart bits e).paddr = e.paddr := by
  unfold zeroPart
  split_ifs <;> rfl

theorem zeroPart_readable {e : PageTableEntry} (h : e.r = true ∨ e.x = true) :
    (zeroPart bits e).r = true ∨ (zeroPart bits e).x = true := by
  unfold zeroPart
  rcases h with h | h <;> split_ifs <;> simp [PageTableEntry.orBits, h]

theorem zeroPart_w (hc : bits.c = false) {e : PageTableEntry} (hw : (zeroPart bits e).w = true) :
    e.w = true ∨ bits.w = true ∧ e.c = false := by
  unfold zeroPart at hw
  split_ifs at hw with h
  have hec : e.c = false := by simpa [PageTableEntry.orBits, hc] using h
  simp only [PageTableEntry.orBits, Bool.or_eq_true] at hw
  exact hw.imp id (fun hb => ⟨hb, hec⟩)

/-- The loop over the zero part of a segment: a writable new entry keeps the
frame of an entry found in the range that was writable or not copy-on-write. -/
theorem allocateZeroPages_edit (hg : bits.g = false) (hc : bits.c = false)
    (hl : limit < 2 ^ 64) {fuel position : ℕ} {mem mem' : PageTable} {free free' : List ℕ}
    (hp : position % pageSize = 0) (hld : Loaded mem)
    (h : allocateZeroPages zp bits limit fuel position mem free = some (mem', free')) :
    Loaded mem' ∧ ∃ old new, TableEdit zp mem mem' free free' old new [] ∧
      (∀ f, mapCount old f ≤ mapCount new f) ∧
      (∀ e ∈ new, e.w = true → ∃ p e₀, SegmentPage position limit p ∧
        virtToEntry 2 mem p = some e₀ ∧ e₀.paddr = e.paddr ∧
        (e₀.w = true ∨ bits.w = true ∧ e₀.c = false)) := by
  induction fuel generalizing position mem free with
  | zero => simp [allocateZeroPages] at h
  | succ fuel ih =>
    simp only [allocateZeroPages] at h
    by_cases hlt : position < limit
    · rw [if_pos hlt] at h
      have hnext : (position + pageSize) % 2 ^ 64 % pageSize = 0 := by
        simp only [pageSize] at hp ⊢
        omega
      have hhere : SegmentPage position limit position := ⟨hp, hlt, Or.inl le_rfl⟩
      cases he : virtToEntry 2 mem position with
      | some e =>
        simp only [he] at h
        change allocateZeroPages zp bits limit fuel _ (setEntry 2 mem position (zeroPart bits e)) free =
          some (mem', free') at h
        obtain ⟨hev, hex⟩ := entries_valid (entry_mem he)
        have hx' := zeroPart_rwx hc hex (hld position e he)
        have hpa : (zeroPart bits e).paddr = e.paddr := zeroPart_paddr e
        have hset : TableEdit zp mem (setEntry 2 mem position (zeroPart bits e)) free free
            [e] [zeroPart bits e] [] :=
          .setEntry he (zeroPart_v hev) hx' (zeroPart_g hg e) rfl (Or.inl hpa)
        have hcur : ∀ va x, virtToEntry 2 (setEntry 2 mem position (zeroPart bits e)) va = some x →
            x = zeroPart bits e ∨ virtToEntry 2 mem va = some x :=
          fun va x hx => virtToEntry_setEntry (fun _ => hx') hx
        have hld' : Loaded (setEntry 2 mem position (zeroPart bits e)) := by
          intro va x hx hxc
          rcases hcur va x hx with rfl | hx
          · rw [zeroPart_c hc] at hxc
            exact zeroPart_readable (hld position e he hxc)
          · exact hld va x hx hxc
        obtain ⟨hfin, old, new, hedit, hmaps, hrest⟩ := ih hnext hld' h
        refine ⟨hfin, [e] ++ old, [zeroPart bits e] ++ new, hset.trans hedit, fun f => ?_,
          fun x hxm hxw => ?_⟩
        · have := hmaps f
          have hsame : mapsTo (zeroPart bits e) f = mapsTo e f := by rw [mapsTo, mapsTo, hpa]
          simp only [List.cons_append, List.nil_append, mapCount_cons, hsame]
          omega
        · rcases List.mem_append.mp hxm with hxm | hxm
          · rw [List.mem_singleton] at hxm
            subst hxm
            exact ⟨position, e, hhere, he, hpa.symm, zeroPart_w hc hxw⟩
          · obtain ⟨p, e₀, hseg, he₀, hpa₀, hor⟩ := hrest x hxm hxw
            rcases hcur p e₀ he₀ with rfl | he₀
            · refine ⟨position, e, hhere, he, hpa.symm.trans hpa₀, ?_⟩
              rcases hor with hw | ⟨hw, hec⟩
              · exact zeroPart_w hc hw
              · rw [zeroPart_c hc] at hec
                exact Or.inr ⟨hw, hec⟩
            · exact ⟨p, e₀, segmentPage_next hp hlt hl hseg le_rfl, he₀, hpa₀, hor⟩
      | none =>
        simp only [he, Option.bind_eq_some_iff] at h
        obtain ⟨⟨mem₁, free₁⟩, hmap, hrec⟩ := h
        generalize hb : (if bits.w then { bits with w := false, c := true } else bits) = b at hmap
        have hbw : b.w = false := by
          rw [← hb]
          split_ifs with h1
          · rfl
          · simpa using h1
        have hbc : b.c = bits.w := by
          rw [← hb]
          split_ifs with h1
          · simp [h1]
          · simp [hc, h1]
        have hbg : b.g = false := by
          rw [← hb]
          split_ifs <;> exact hg
        have hbx := mapPage_rwx hmap
        obtain ⟨old₁, hold, hedit₁⟩ := TableEdit.mapPage zp hbg hmap rfl
        have hcur := fun va x (hx : virtToEntry 2 mem₁ va = some x) => virtToEntry_mapPage hmap hx
        have hld' : Loaded mem₁ := by
          intro va x hx hxc
          rcases hcur va x hx with rfl | hx
          · simpa [PageEntryBits.rwx, hbw] using hbx
          · exact hld va x hx hxc
        obtain ⟨hfin, old, new, hedit, hmaps, hrest⟩ := ih hnext hld' hrec
        refine ⟨hfin, old₁ ++ old, [_] ++ new, hedit₁.trans hedit, fun f => ?_, fun x hxm hxw => ?_⟩
        · rcases hold with ⟨rfl, _⟩ | ⟨e, _, he'⟩
          · have := hmaps f
            simp only [List.cons_append, List.nil_append, mapCount_cons]
            omega
          · rw [he] at he'
            cases he'
        · rcases List.mem_append.mp hxm with hxm | hxm
          · rw [List.mem_singleton] at hxm
            subst hxm
            simp [hbw] at hxw
          · obtain ⟨p, e₀, hseg, he₀, hpa₀, hor⟩ := hrest x hxm hxw
            rcases hcur p e₀ he₀ with rfl | he₀
            · simp only [hbw, hbc] at hor
              rcases hor with hor | ⟨h1, h2⟩
              · cases hor
              · rw [h1] at h2
                cases h2
            · exact ⟨p, e₀, segmentPage_next hp hlt hl hseg le_rfl, he₀, hpa₀, hor⟩
    · rw [if_neg hlt] at h
      cases h
      exact ⟨hld, [], [], .refl zp _ _, by simp, by simp⟩

end Segments

end SomeOs.MemSpace
