import SomeOs.Memory.Mapping

/-! # The heap of a process

The heap lies between the start break and the break, rounded up to a page. `sbrk` maps the
zero page copy-on-write above the old end and unmaps pages above the new end. Nothing but the
break keeps the heap apart from the stack and from the addresses that the three table levels
fold onto low ones, so that both are conditions here.
-/
namespace SomeOs.MemSpace
open SparseArray PageRef Paging Transition

def sbrkSyscall (s : MemState) (id : ℕ) (change : ℤ) : Option (ℕ × MemState) :=
  match get? s.spaces id with
  | none => none
  | some m => (changeProcessBreak s id change).map fun t => (m.brk, t)

def InHeap (m : ProcessMemory) (va : ℕ) : Prop := m.start_brk ≤ va % 2 ^ 39 ∧ va % 2 ^ 39 < pageUp m.brk

instance (m : ProcessMemory) (va : ℕ) : Decidable (InHeap m va) := inferInstanceAs (Decidable (_ ∧ _))

/-- The address is on one of `n` pages. -/
def InPages (start n va : ℕ) : Prop := ∃ k < n, SamePage 2 va (start + k * pageSize)

instance (start n va : ℕ) : Decidable (InPages start n va) := inferInstanceAs (Decidable (∃ k < n, _))

section Pages
variable {start n va vaddr : ℕ}

theorem inPages_succ : InPages start (n + 1) va ↔ SamePage 2 va start ∨ InPages (start + pageSize) n va := by
  constructor
  · rintro ⟨k, hk, hpage⟩
    cases k with
    | zero => exact Or.inl (by simpa using hpage)
    | succ k =>
      refine Or.inr ⟨k, by omega, ?_⟩
      rwa [show start + pageSize + k * pageSize = start + (k + 1) * pageSize by ring]
  · rintro (hpage | ⟨k, hk, hpage⟩)
    · exact ⟨0, by omega, by simpa using hpage⟩
    · refine ⟨k + 1, by omega, ?_⟩
      rwa [show start + pageSize + k * pageSize = start + (k + 1) * pageSize by ring] at hpage

theorem inPages_iff (hstart : start % pageSize = 0) (hend : start + n * pageSize ≤ 2 ^ 39) :
    InPages start n va ↔ start ≤ va % 2 ^ 39 ∧ va % 2 ^ 39 < start + n * pageSize := by
  simp only [InPages, samePage_iff, pageOf, pageSize] at *
  constructor
  · rintro ⟨k, hk, hpage⟩
    omega
  · intro h
    exact ⟨(va % 2 ^ 39 - start) / 4096, by omega, by omega⟩

theorem pageUp_mod (a : ℕ) : pageUp a % pageSize = 0 := Nat.mul_mod_left _ _

theorem pageUp_bounds {a : ℕ} (h : a ≤ 2 ^ 39) : a ≤ pageUp a ∧ pageUp a ≤ 2 ^ 39 := by
  simp only [pageUp, pageSize]
  omega

theorem start_le_breakEnd (m : ProcessMemory) (change : ℤ) : m.start_brk ≤ breakEnd m change := by
  simp only [breakEnd]
  split_ifs with h
  · exact le_rfl
  · exact Nat.le_of_not_lt h

end Pages

def heapEntry (zero_page : ℕ) : PageTableEntry := { heapBits with v := true, paddr := zero_page }

section Grow
variable {zp n vaddr : ℕ} {table t : PageTable} {free free' : List ℕ}

theorem growHeap_walk (h : growHeap zp n vaddr table free = some (t, free')) (va : ℕ) :
    Paging.walk 2 t va = if InPages vaddr n va then some (0, heapEntry zp) else Paging.walk 2 table va := by
  induction n generalizing vaddr table free with
  | zero =>
    cases h
    simp [InPages]
  | succ n ih =>
    obtain ⟨⟨t₁, free₁⟩, hmap, hrest⟩ := Option.bind_eq_some_iff.mp h
    rw [ih hrest, walk_mapPage hmap]
    by_cases hrest : InPages (vaddr + pageSize) n va
    · rw [if_pos hrest, if_pos (inPages_succ.mpr (Or.inr hrest))]
    · rw [if_neg hrest]
      by_cases hpage : SamePage 2 va vaddr
      · rw [if_pos hpage, if_pos (inPages_succ.mpr (Or.inl hpage))]
        rfl
      · rw [if_neg hpage, if_neg fun hin => (inPages_succ.mp hin).elim hpage hrest]

theorem growHeap_isSome (ht : Regular 2 table) (hfree : 2 * n ≤ free.length) :
    (growHeap zp n vaddr table free).isSome := by
  induction n generalizing vaddr table free with
  | zero => rfl
  | succ n ih =>
    obtain ⟨t, free', hmap, hlen⟩ :=
      @mapPage_isSome 2 vaddr zp table heapBits free ht (by decide) (by omega)
    rw [growHeap, hmap, Option.bind_some]
    exact ih (mapPage_regular ht hmap) (show 2 * n ≤ free'.length by omega)

end Grow

section Shrink
variable {s : MemState} {id n vaddr : ℕ} {m : ProcessMemory}

/-- The memory of a process after its table was edited, with all bytes as before. -/
structure Remapped (s t : MemState) (id : ℕ) (m : ProcessMemory) (mem : PageTable) : Prop where
  space : get? t.spaces id = some { m with mem := mem }
  zero_page : t.zero_page = s.zero_page
  phys : t.phys = s.phys

theorem unmapAndFreePage_walk (hs : Shape s) (hm : get? s.spaces id = some m) (vaddr : ℕ) :
    ∃ mem, Remapped s (unmapAndFreePage s id vaddr) id m mem ∧
      ∀ va, Paging.walk 2 mem va = if SamePage 2 va vaddr then none else Paging.walk 2 m.mem va := by
  unfold unmapAndFreePage
  simp only [hm]
  cases he : virtToEntry 2 m.mem vaddr with
  | none =>
    refine ⟨m.mem, ⟨hm, rfl, rfl⟩, fun va => ?_⟩
    split_ifs with hpage
    · rw [hpage.walk_eq]
      rw [virtToEntry_eq_walk] at he
      exact Option.map_eq_none_iff.mp he
    · rfl
  | some e =>
    obtain ⟨level, hw⟩ := walk_of_entry he
    have hlevel : level = 0 := walk_regular (hs.regular (id, m) (mem_of_get? hm)) hw
    subst hlevel
    refine ⟨setEntry 2 m.mem vaddr { e with v := false }, ⟨?_, rfl, rfl⟩, fun va => walk_clear hw rfl va⟩
    simp only [MemState.setMem, get?_set, if_true]

theorem shrinkHeap_walk (hs : Shape s) (hm : get? s.spaces id = some m) (n vaddr : ℕ) :
    ∃ mem, Remapped s (shrinkHeap id n vaddr s) id m mem ∧
      ∀ va, Paging.walk 2 mem va = if InPages vaddr n va then none else Paging.walk 2 m.mem va := by
  induction n generalizing s m vaddr with
  | zero => exact ⟨m.mem, ⟨hm, rfl, rfl⟩, fun va => by simp [InPages]⟩
  | succ n ih =>
    obtain ⟨mem₁, h₁, hwalk₁⟩ := unmapAndFreePage_walk hs hm vaddr
    obtain ⟨mem, h, hwalk⟩ := ih (unmapAndFreePage_shape hs id vaddr) h₁.space (vaddr + pageSize)
    refine ⟨mem, ⟨h.space, h.zero_page.trans h₁.zero_page, h.phys.trans h₁.phys⟩, fun va => ?_⟩
    rw [hwalk, hwalk₁]
    by_cases hrest : InPages (vaddr + pageSize) n va
    · rw [if_pos hrest, if_pos (inPages_succ.mpr (Or.inr hrest))]
    · rw [if_neg hrest]
      by_cases hpage : SamePage 2 va vaddr
      · rw [if_pos hpage, if_pos (inPages_succ.mpr (Or.inl hpage))]
      · rw [if_neg hpage, if_neg fun hin => (inPages_succ.mp hin).elim hpage hrest]

end Shrink

section Break
variable {s t : MemState} {id : ℕ} {m : ProcessMemory} {change : ℤ}

def movedWalk (s : MemState) (m : ProcessMemory) (change : ℤ) (va : ℕ) : Option (ℕ × PageTableEntry) :=
  if pageUp m.brk ≤ va % 2 ^ 39 ∧ va % 2 ^ 39 < pageUp (breakEnd m change) then some (0, heapEntry s.zero_page)
  else if pageUp (breakEnd m change) ≤ va % 2 ^ 39 ∧ va % 2 ^ 39 < pageUp m.brk then none
  else Paging.walk 2 m.mem va

theorem setBrk_space (hm : get? s.spaces id = some m) (brk : ℕ) :
    get? (s.setBrk id brk).spaces id = some { m with brk := brk } := by
  simp only [MemState.setBrk, hm, get?_set, if_true]

theorem setBrk_fields (s : MemState) (id brk : ℕ) :
    (s.setBrk id brk).zero_page = s.zero_page ∧ (s.setBrk id brk).phys = s.phys := by
  unfold MemState.setBrk
  cases get? s.spaces id with
  | none => exact ⟨rfl, rfl⟩
  | some m => exact ⟨rfl, rfl⟩

/-- What `changeProcessBreak` does to a process whose break stays in the range of the tables. -/
theorem changeProcessBreak_walk (hs : Shape s) (hm : get? s.spaces id = some m) (hbrk : m.brk ≤ 2 ^ 39)
    (hend : breakEnd m change ≤ 2 ^ 39) (h : changeProcessBreak s id change = some t) :
    ∃ mem, Remapped s t id { m with brk := breakEnd m change } mem ∧ ∀ va, Paging.walk 2 mem va = movedWalk s m change va := by
  have hb1 := pageUp_bounds hbrk
  have hb2 := pageUp_bounds hend
  have hm1 := pageUp_mod m.brk
  have hm2 := pageUp_mod (breakEnd m change)
  simp only [changeProcessBreak, hm] at h
  split_ifs at h with hload hsame hgrow
  · cases h
    obtain ⟨hz, hp⟩ := setBrk_fields s id (breakEnd m change)
    refine ⟨m.mem, ⟨setBrk_space hm _, hz, hp⟩, fun va => ?_⟩
    rw [movedWalk, if_neg (by omega), if_neg (by omega)]
  · obtain ⟨⟨mem, free⟩, hmap, rfl⟩ := Option.map_eq_some_iff.mp h
    obtain ⟨hz, hp⟩ := setBrk_fields { s.setMem id m mem with free := free } id (breakEnd m change)
    have hspace : get? ({ s.setMem id m mem with free := free } : MemState).spaces id = some { m with mem := mem } := by
      simp only [MemState.setMem, get?_set, if_true]
    refine ⟨mem, ⟨setBrk_space hspace _, hz, hp⟩, fun va => ?_⟩
    have hin := @inPages_iff (pageUp m.brk) ((pageUp (breakEnd m change) - pageUp m.brk) / pageSize) va hm1
      (by simp only [pageSize] at *; omega)
    rw [growHeap_walk hmap, movedWalk]
    by_cases hpage : InPages (pageUp m.brk) ((pageUp (breakEnd m change) - pageUp m.brk) / pageSize) va
    · have := hin.mp hpage
      rw [if_pos hpage, if_pos (by simp only [pageSize] at *; omega)]
    · rw [if_neg hpage, if_neg fun hr => hpage (hin.mpr (by simp only [pageSize] at *; omega)), if_neg (by omega)]
  · cases h
    obtain ⟨mem, hr, hwalk⟩ := shrinkHeap_walk hs hm ((pageUp m.brk - pageUp (breakEnd m change)) / pageSize)
      (pageUp (breakEnd m change))
    obtain ⟨hz, hp⟩ := setBrk_fields (shrinkHeap id ((pageUp m.brk - pageUp (breakEnd m change)) / pageSize)
      (pageUp (breakEnd m change)) s) id (breakEnd m change)
    refine ⟨mem, ⟨setBrk_space hr.space _, hz.trans hr.zero_page, hp.trans hr.phys⟩, fun va => ?_⟩
    have hin := @inPages_iff (pageUp (breakEnd m change)) ((pageUp m.brk - pageUp (breakEnd m change)) / pageSize) va hm2
      (by simp only [pageSize] at *; omega)
    rw [hwalk, movedWalk, if_neg (show ¬(pageUp m.brk ≤ va % 2 ^ 39 ∧ va % 2 ^ 39 < pageUp (breakEnd m change)) by omega)]
    by_cases hpage : InPages (pageUp (breakEnd m change)) ((pageUp m.brk - pageUp (breakEnd m change)) / pageSize) va
    · have := hin.mp hpage
      rw [if_pos hpage, if_pos (by simp only [pageSize] at *; omega)]
    · rw [if_neg hpage, if_neg fun hr => hpage (hin.mpr (by simp only [pageSize] at *; omega))]

theorem changeProcessBreak_isSome (hs : Shape s) (hm : get? s.spaces id = some m) (hload : m.loading = false)
    (hfree : 2 * ((pageUp (breakEnd m change) - pageUp m.brk) / pageSize) ≤ s.free.length) :
    (changeProcessBreak s id change).isSome := by
  simp only [changeProcessBreak, hm, hload, Bool.false_eq_true, if_false]
  split_ifs with hsame hgrow
  · rfl
  · rw [Option.isSome_map]
    exact growHeap_isSome (hs.regular (id, m) (mem_of_get? hm)) hfree
  · rfl

end Break

/-- A heap page is the zero page until it is written to, and has a frame of its own then. -/
structure HeapEntry (s : MemState) (e : PageTableEntry) : Prop where
  user : e.u = true
  readable : e.r = true
  frame : e.paddr = s.zero_page ∧ e.c = true ∧ e.w = false ∨ e.paddr ≠ s.zero_page ∧ e.c = false ∧ e.w = true

/-- The leaf is as at the start, or a copy-on-write leaf that has taken its fault since. -/
def SameOrFaulted (s t : MemState) (id va : ℕ) : Prop :=
  t.walk id va = s.walk id va ∨
    ∃ e f, s.walk id va = some (0, e) ∧ e.c = true ∧ t.walk id va = some (0, writableCopy e f)

/-- A machine on which a process moves its break, and the addresses it has written to. -/
structure Session where
  state : MemState
  written : List ℕ

inductive HeapOp where
  | sbrk (change : ℤ)
  | fault (vaddr : ℕ)
  | store (vaddr : ℕ) (byte : UInt8)

def heapStep (id : ℕ) (σ : Session) : HeapOp → Option Session
  | .sbrk change => (sbrkSyscall σ.state id change).map fun r =>
    ⟨r.2, σ.written.filter fun a => (get? r.2.spaces id).any fun m => a < pageUp m.brk⟩
  | .fault vaddr => some ⟨(handlePageFault σ.state id vaddr).2, σ.written⟩
  | .store vaddr byte => (userStore σ.state id vaddr byte).map fun t => ⟨t, vaddr % 2 ^ 39 :: σ.written⟩

def BreakSafe (s : MemState) (id : ℕ) (change : ℤ) : Prop :=
  ∀ m, get? s.spaces id = some m → breakEnd m change ≤ 2 ^ 39 ∧
    ∀ va, pageUp m.brk ≤ va % 2 ^ 39 → va % 2 ^ 39 < pageUp (breakEnd m change) → s.walk id va = none

def HeapSafe (id : ℕ) (σ : Session) : HeapOp → Prop
  | .sbrk change => BreakSafe σ.state id change
  | _ => True

def ZeroFilled (s : MemState) : Prop := ∀ a, a / pageSize = s.zero_page → s.phys a = 0

/-- The heap of a process between two calls, where `s` is the state in which the program was started. -/
structure HeapInv (id : ℕ) (s : MemState) (σ : Session) (m : ProcessMemory) : Prop where
  sound : Sound σ.state
  owned : Owned σ.state
  zeros : ZeroFilled σ.state
  space : get? σ.state.spaces id = some m
  running : m.loading = false
  aligned : m.start_brk % pageSize = 0
  above : m.start_brk ≤ m.brk
  below : m.brk = m.start_brk ∨ m.brk ≤ 2 ^ 39
  fresh : ∀ va, InHeap m va → s.walk id va = none
  mapped : ∀ va, InHeap m va → ∃ e, σ.state.walk id va = some (0, e) ∧ HeapEntry σ.state e ∧
    (va % 2 ^ 39 ∉ σ.written → σ.state.phys (e.paddr * pageSize + va % pageSize) = 0)
  outside : ∀ va, ¬InHeap m va → SameOrFaulted s σ.state id va

section Inv
variable {id : ℕ} {s : MemState} {σ τ : Session} {m : ProcessMemory}

theorem HeapInv.brk_le (h : HeapInv id s σ m) (hend : m.start_brk ≤ 2 ^ 39) : m.brk ≤ 2 ^ 39 := by
  rcases h.below with hb | hb
  · rw [hb]
    exact hend
  · exact hb

theorem HeapInv.walk_eq (h : HeapInv id s σ m) (va : ℕ) : σ.state.walk id va = Paging.walk 2 m.mem va :=
  walk_of_space h.space va

/-- The break is moved over unmapped pages. -/
theorem HeapInv.sbrk (h : HeapInv id s σ m) {change : ℤ} (hsafe : BreakSafe σ.state id change) {t : MemState}
    (ht : changeProcessBreak σ.state id change = some t) :
    ∃ mem, HeapInv id s ⟨t, σ.written.filter fun a => (get? t.spaces id).any fun m => a < pageUp m.brk⟩
      { m with brk := breakEnd m change, mem := mem } := by
  obtain ⟨hend, hnone⟩ := hsafe m h.space
  have hstart := start_le_breakEnd m change
  have hbrk := h.brk_le (hstart.trans hend)
  have habove := h.above
  have hb1 := pageUp_bounds hbrk
  have hb2 := pageUp_bounds hend
  obtain ⟨mem, hr, hwalk⟩ := changeProcessBreak_walk h.sound.toShape h.space hbrk hend ht
  have hop : step σ.state (.sbrk id change) = some t := ht
  have hok : WriteSafe σ.state (.sbrk id change) := trivial
  obtain ⟨hsound, howned⟩ := step_owned ⟨h.sound, h.owned⟩ hok hop
  have hwalk' : ∀ va, t.walk id va = movedWalk σ.state m change va := by
    intro va
    rw [walk_of_space hr.space]
    exact hwalk va
  refine ⟨mem, hsound, howned, ?_, hr.space, h.running, h.aligned, hstart, Or.inr hend, ?_, ?_, ?_⟩
  · intro a ha
    rw [hr.phys]
    exact h.zeros a (by rw [ha, hr.zero_page])
  · intro va hva
    have hva : m.start_brk ≤ va % 2 ^ 39 ∧ va % 2 ^ 39 < pageUp (breakEnd m change) := hva
    by_cases hold : InHeap m va
    · exact h.fresh va hold
    · unfold InHeap at hold
      -- The page was not mapped before the heap grew over it.
      have hw := hnone va (by omega) hva.2
      rcases h.outside va hold with hsame | ⟨e, f, -, -, hnow⟩
      · rw [← hsame, hw]
      · rw [hw] at hnow
        cases hnow
  · intro va hva
    have hva : m.start_brk ≤ va % 2 ^ 39 ∧ va % 2 ^ 39 < pageUp (breakEnd m change) := hva
    by_cases hold : InHeap m va
    · obtain ⟨e, hw, hentry, hzero⟩ := h.mapped va hold
      unfold InHeap at hold
      refine ⟨e, ?_, ⟨hentry.user, hentry.readable, by rw [hr.zero_page]; exact hentry.frame⟩, fun hnot => ?_⟩
      · rw [hwalk', movedWalk, if_neg (by omega), if_neg (by omega), ← h.walk_eq, hw]
      · rw [hr.phys]
        refine hzero fun hin => hnot (List.mem_filter.mpr ⟨hin, ?_⟩)
        simp only [hr.space, Option.any_some, decide_eq_true_eq]
        exact hva.2
    · unfold InHeap at hold
      refine ⟨heapEntry σ.state.zero_page, ?_, ⟨rfl, rfl, Or.inl ⟨hr.zero_page.symm, rfl, rfl⟩⟩, fun _ => ?_⟩
      · rw [hwalk', movedWalk, if_pos (by omega)]
      · rw [hr.phys]
        refine h.zeros _ ?_
        simp only [heapEntry, pageSize]
        omega
  · intro va hva
    have hva : ¬(m.start_brk ≤ va % 2 ^ 39 ∧ va % 2 ^ 39 < pageUp (breakEnd m change)) := hva
    by_cases hold : InHeap m va
    · left
      rw [h.fresh va hold, hwalk', movedWalk]
      unfold InHeap at hold
      rw [if_neg (by omega), if_pos (by omega)]
    · have hsame : t.walk id va = σ.state.walk id va := by
        rw [hwalk', movedWalk, h.walk_eq]
        unfold InHeap at hold
        rw [if_neg (by omega), if_neg (by omega)]
      unfold SameOrFaulted
      rw [hsame]
      exact h.outside va hold

theorem handlePageFault_fault {s : MemState} (hs : Sound s) (id vaddr : ℕ) : (handlePageFault s id vaddr).2 = s ∨
    ∃ e, s.walk id vaddr = some (0, e) ∧ e.c = true ∧ ¬(NeedsPage s e ∧ s.free = []) ∧
      (handlePageFault s id vaddr).2 = s.fault id vaddr e := by
  rcases handlePageFault_cases s id vaddr with h | ⟨m, e, hm, he, hc, hdone, -⟩
  · exact Or.inl (by rw [h])
  · have hv := (entries_valid (entry_mem he)).1
    obtain ⟨level, hw⟩ := walk_of_entry he
    have hlevel : level = 0 := walk_regular (hs.regular (id, m) (mem_of_get? hm)) hw
    subst hlevel
    rw [handlePageFault_eq hm he hv hc] at hdone ⊢
    split_ifs at hdone ⊢ with hnone
    refine Or.inr ⟨e, by rw [walk_of_space hm, hw], hc, hnone, ?_⟩
    simp only [MemState.fault, hm]

theorem leaf_frame (e : PageTableEntry) (va : ℕ) : (e.paddr * pageSize + va % pageSize) / pageSize = e.paddr := by
  simp only [pageSize]
  omega

/-- A write fault, on the heap or outside. -/
theorem HeapInv.fault (h : HeapInv id s σ m) (vaddr : ℕ) :
    ∃ mem, HeapInv id s ⟨(handlePageFault σ.state id vaddr).2, σ.written⟩ { m with mem := mem } := by
  have hop : step σ.state (.handlePageFault id vaddr) = some (handlePageFault σ.state id vaddr).2 := rfl
  have hok : WriteSafe σ.state (.handlePageFault id vaddr) := trivial
  obtain ⟨hsound, howned⟩ := step_owned ⟨h.sound, h.owned⟩ hok hop
  rcases handlePageFault_fault h.sound id vaddr with heq | ⟨e, hw, hc, hnone, heq⟩
  · rw [heq]
    exact ⟨m.mem, h.sound, h.owned, h.zeros, h.space, h.running, h.aligned, h.above, h.below, h.fresh, h.mapped, h.outside⟩
  · rw [heq] at hsound howned ⊢
    obtain ⟨-, hzp, -, hphys⟩ := @fault_fields σ.state id vaddr e _ hw
    have hwalk := fault_walk hw
    have hspace : get? (σ.state.fault id vaddr e).spaces id =
        some { m with mem := setEntry 2 m.mem vaddr (writableCopy e (faultFrame σ.state e)) } := by
      simp only [MemState.fault, h.space, faulted_space, if_true]
    have hkeep : ∀ a, a / pageSize ∉ σ.state.free → (σ.state.fault id vaddr e).phys a = σ.state.phys a := by
      intro a ha
      rw [hphys]
      exact faultPhys_of_not_free hnone ha
    refine ⟨_, hsound, howned, ?_, hspace, h.running, h.aligned, h.above, h.below, h.fresh, ?_, ?_⟩
    · intro a ha
      have ha : a / pageSize = (σ.state.fault id vaddr e).zero_page := ha
      rw [hzp] at ha
      show (σ.state.fault id vaddr e).phys a = 0
      rw [hkeep a (by rw [ha]; exact zero_page_not_free h.sound)]
      exact h.zeros a ha
    · intro va hva
      obtain ⟨e', hw', hentry, hzero⟩ := h.mapped va hva
      by_cases hpage : SamePage 2 va vaddr
      · have hee : e' = e := by
          rw [walk_samePage hpage, hw] at hw'
          exact (congrArg Prod.snd (Option.some.inj hw')).symm
        subst hee
        -- A heap page that takes a fault is the zero page.
        have hz : e'.paddr = σ.state.zero_page := by
          rcases hentry.frame with hf | hf
          · exact hf.1
          · rw [hf.2.1] at hc
            cases hc
        have hneeds : NeedsPage σ.state e' := Or.inl hz
        have hmem := faultFrame_mem hneeds fun hnil => hnone ⟨hneeds, hnil⟩
        refine ⟨writableCopy e' (faultFrame σ.state e'), ?_, ⟨hentry.user, hentry.readable, Or.inr ⟨?_, rfl, rfl⟩⟩, fun _ => ?_⟩
        · rw [hwalk, if_pos ⟨rfl, hpage⟩]
        · show faultFrame σ.state e' ≠ (σ.state.fault id vaddr e').zero_page
          rw [hzp]
          exact fun heq => zero_page_not_free h.sound (heq ▸ hmem)
        · show (σ.state.fault id vaddr e').phys (pageAddr (faultFrame σ.state e') + va % pageSize) = 0
          rw [hphys, faultPhys_page _ (Nat.mod_lt _ (by decide)), if_pos hz]
      · refine ⟨e', ?_, ⟨hentry.user, hentry.readable, ?_⟩, fun hnot => ?_⟩
        · rw [hwalk, if_neg fun hp => hpage hp.2, hw']
        · show e'.paddr = (σ.state.fault id vaddr e).zero_page ∧ _ ∨ e'.paddr ≠ (σ.state.fault id vaddr e).zero_page ∧ _
          rw [hzp]
          exact hentry.frame
        · show (σ.state.fault id vaddr e).phys _ = 0
          rw [hkeep _ (by rw [leaf_frame]; exact frame_not_free h.sound hw')]
          exact hzero hnot
    · intro va hva
      have hold := h.outside va hva
      by_cases hpage : SamePage 2 va vaddr
      · have hnow : σ.state.walk id va = some (0, e) := (walk_samePage hpage).trans hw
        rcases hold with hsame | ⟨e', f, -, -, hcopy⟩
        · refine Or.inr ⟨e, faultFrame σ.state e, hsame.symm.trans hnow, hc, ?_⟩
          rw [hwalk, if_pos ⟨rfl, hpage⟩]
        · rw [hnow] at hcopy
          cases hcopy
          cases hc
      · have hsame : (σ.state.fault id vaddr e).walk id va = σ.state.walk id va := by
          rw [hwalk, if_neg fun hp => hpage hp.2]
        unfold SameOrFaulted
        rw [hsame]
        exact hold

/-- A store reaches the bytes of its own page only. -/
theorem HeapInv.store (h : HeapInv id s σ m) {vaddr : ℕ} {byte : UInt8} {t : MemState}
    (ht : userStore σ.state id vaddr byte = some t) : HeapInv id s ⟨t, vaddr % 2 ^ 39 :: σ.written⟩ m := by
  have hop : step σ.state (.userStore id vaddr byte) = some t := ht
  have hok : WriteSafe σ.state (.userStore id vaddr byte) := trivial
  obtain ⟨hsound, howned⟩ := step_owned ⟨h.sound, h.owned⟩ hok hop
  simp only [userStore, h.space] at ht
  cases he : virtToEntry 2 m.mem vaddr with
  | none => simp [he] at ht
  | some e =>
    simp only [he] at ht
    split_ifs at ht with huw
    cases ht
    have hw : e.w = true := by simp_all
    obtain ⟨hz, hone⟩ := h.owned e (mem_allLeaves h.space (entry_mem he)) hw
    have hreg := h.sound.regular (id, m) (mem_of_get? h.space)
    obtain ⟨level, hwalk⟩ := walk_of_entry he
    have hlevel : level = 0 := walk_regular hreg hwalk
    subst hlevel
    have hplace := unsafeVirtToPhys_of_regular hreg he
    rw [← h.walk_eq] at hwalk
    refine ⟨hsound, howned, ?_, h.space, h.running, h.aligned, h.above, h.below, h.fresh, ?_, h.outside⟩
    · intro a ha
      have hne : a ≠ unsafeVirtToPhys 2 m.mem vaddr := by
        intro heq
        rw [hplace] at heq
        apply hz
        rw [← leaf_frame e vaddr, ← heq]
        exact ha
      simp only [Function.update_of_ne hne]
      exact h.zeros a ha
    · intro va hva
      obtain ⟨e', hw', hentry, hzero⟩ := h.mapped va hva
      refine ⟨e', hw', ⟨hentry.user, hentry.readable, hentry.frame⟩, fun hnot => ?_⟩
      rw [List.mem_cons, not_or] at hnot
      -- Another address of the byte would be a second mapping of the frame.
      have hne : e'.paddr * pageSize + va % pageSize ≠ unsafeVirtToPhys 2 m.mem vaddr := by
        intro heq
        rw [hplace] at heq
        have hframe : e'.paddr = e.paddr := by rw [← leaf_frame e' va, heq, leaf_frame]
        have hpage := (samePage_iff va vaddr).mp (samePage_of_sole hwalk hw' hframe hone)
        have hoff : va % pageSize = vaddr % pageSize := by
          rw [hframe] at heq
          exact Nat.add_left_cancel heq
        apply hnot.1
        simp only [pageOf, pageSize] at hpage hoff
        omega
      simp only [Function.update_of_ne hne]
      exact hzero hnot.2

end Inv

section Start
variable {s t : MemState} {id fuel : ℕ}

end Start

theorem breakEnd_eq {m : ProcessMemory} (hbrk : m.brk ≤ 2 ^ 39) {change : ℤ} (h1 : -2 ^ 63 ≤ change) (h2 : change < 2 ^ 63) :
    (breakEnd m change : ℤ) = max (m.start_brk : ℤ) (m.brk + change) := by
  have hsigned : toSigned ((2 ^ 64 - m.brk) % 2 ^ 64) = -m.brk := by
    unfold toSigned
    split_ifs <;> omega
  simp only [breakEnd, hsigned]
  split_ifs <;> omega

/-- The heap of a process is as `sbrk` promises: `s` is the state in which the program was started, `m` its memory now. -/
structure HeapOnly (id : ℕ) (s : MemState) (σ : Session) (m : ProcessMemory) : Prop where
  space : get? σ.state.spaces id = some m
  start : ∃ m₀, get? s.spaces id = some m₀ ∧ m.start_brk = m₀.start_brk
  above : m.start_brk ≤ m.brk
  mapped : ∀ va, InHeap m va → ∃ e, σ.state.walk id va = some (0, e) ∧ HeapEntry σ.state e
  zero : ∀ va, InHeap m va → va % 2 ^ 39 ∉ σ.written → userLoad σ.state id va = some 0
  outside : ∀ va, ¬InHeap m va → SameOrFaulted s σ.state id va
  moves : ∀ change old t, BreakSafe σ.state id change → sbrkSyscall σ.state id change = some (old, t) →
    old = m.brk ∧ ∃ m', get? t.spaces id = some m' ∧
      (-2 ^ 63 ≤ change → change < 2 ^ 63 → (m'.brk : ℤ) = max (m.start_brk : ℤ) (m.brk + change)) ∧
      ∀ va, ¬InHeap m va → ¬InHeap m' va → t.walk id va = σ.state.walk id va
  succeeds : ∀ change, 2 * ((pageUp (breakEnd m change) - pageUp m.brk) / pageSize) ≤ σ.state.free.length →
    (sbrkSyscall σ.state id change).isSome

section Runs
variable {id start : ℕ} {s : MemState} {σ τ : Session} {m : ProcessMemory}

theorem userLoad_of_walk (hs : Sound s) {va : ℕ} {e : PageTableEntry} (hw : s.walk id va = some (0, e)) (hu : e.u = true)
    (hr : e.r = true) : userLoad s id va = some (s.phys (e.paddr * pageSize + va % pageSize)) := by
  obtain ⟨m, hm, hwalk⟩ := space_of_walk hw
  have he := entry_of_walk hwalk
  dsimp only at he
  have hplace := unsafeVirtToPhys_of_regular (hs.regular (id, m) (mem_of_get? hm)) he
  simp only [userLoad, hm, he, hu, hr, Bool.and_self, if_true, hplace]

theorem HeapInv.only (h : HeapInv id s σ m) {m₀ : ProcessMemory} (hm₀ : get? s.spaces id = some m₀)
    (hstart : m.start_brk = m₀.start_brk) : HeapOnly id s σ m where
  space := h.space
  start := ⟨m₀, hm₀, hstart⟩
  above := h.above
  mapped va hva := by
    obtain ⟨e, hw, hentry, -⟩ := h.mapped va hva
    exact ⟨e, hw, hentry⟩
  zero va hva hnot := by
    obtain ⟨e, hw, hentry, hzero⟩ := h.mapped va hva
    rw [userLoad_of_walk h.sound hw hentry.user hentry.readable, hzero hnot]
  outside := h.outside
  moves change old t hsafe hcall := by
    simp only [sbrkSyscall, h.space, Option.map_eq_some_iff, Prod.mk.injEq] at hcall
    obtain ⟨t', ht, rfl, rfl⟩ := hcall
    obtain ⟨hend, -⟩ := hsafe m h.space
    have hle := start_le_breakEnd m change
    have hbrk := h.brk_le (hle.trans hend)
    have hb1 := pageUp_bounds hbrk
    have hb2 := pageUp_bounds hend
    have habove := h.above
    obtain ⟨mem, hr, hwalk⟩ := changeProcessBreak_walk h.sound.toShape h.space hbrk hend ht
    refine ⟨rfl, _, hr.space, fun h1 h2 => breakEnd_eq hbrk h1 h2, fun va hva hva' => ?_⟩
    have hva' : ¬(m.start_brk ≤ va % 2 ^ 39 ∧ va % 2 ^ 39 < pageUp (breakEnd m change)) := hva'
    unfold InHeap at hva
    rw [walk_of_space hr.space, h.walk_eq]
    show Paging.walk 2 mem va = _
    rw [hwalk, movedWalk, if_neg (by omega), if_neg (by omega)]
  succeeds change hfree := by
    simp only [sbrkSyscall, h.space, Option.isSome_map]
    exact changeProcessBreak_isSome h.sound.toShape h.space h.running hfree

theorem heapStep_inv {op : HeapOp} (h : ∃ m, HeapInv id s σ m ∧ m.start_brk = start) (hsafe : HeapSafe id σ op)
    (hstep : heapStep id σ op = some τ) : ∃ m, HeapInv id s τ m ∧ m.start_brk = start := by
  obtain ⟨m, h, hstart⟩ := h
  cases op with
  | sbrk change =>
    simp only [heapStep, sbrkSyscall, h.space, Option.map_eq_some_iff] at hstep
    obtain ⟨r, ⟨t, ht, rfl⟩, rfl⟩ := hstep
    obtain ⟨mem, h'⟩ := h.sbrk hsafe ht
    exact ⟨_, h', hstart⟩
  | fault vaddr =>
    cases hstep
    obtain ⟨mem, h'⟩ := h.fault vaddr
    exact ⟨_, h', hstart⟩
  | store vaddr byte =>
    obtain ⟨t, ht, rfl⟩ := Option.map_eq_some_iff.mp hstep
    exact ⟨m, h.store ht, hstart⟩

end Runs

section Examples
variable {s t : MemState} {id : ℕ} {m : ProcessMemory} {change : ℤ}

end Examples

end SomeOs.MemSpace
