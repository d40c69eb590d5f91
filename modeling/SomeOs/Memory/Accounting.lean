import SomeOs.Memory.MemSpace

/-! # Frame accounting

For every frame three numbers are followed: how often it is a table page or
free, how many leaf entries map it, and the count recorded for it. Each operation
is described by what it does to them; the invariants of memory spaces are
arithmetic facts about these numbers.
-/
namespace SomeOs.MemSpace
open SparseArray PageRef Paging

def pooled (s : MemState) (frame : ℕ) : ℕ :=
  (allTables s.spaces).count frame + s.free.count frame

def recorded (s : MemState) (frame : ℕ) : ℕ := references s.ref_count (pageAddr frame)

def mapsTo (e : PageTableEntry) (f : ℕ) : ℕ := if e.paddr = f then 1 else 0

def mapCount (es : List PageTableEntry) (f : ℕ) : ℕ := es.countP (fun e => e.paddr == f)

@[simp] theorem mapCount_append (l r : List PageTableEntry) (f : ℕ) :
    mapCount (l ++ r) f = mapCount l f + mapCount r f := List.countP_append
@[simp] theorem mapCount_nil (f : ℕ) : mapCount [] f = 0 := rfl

@[simp] theorem mapCount_cons (e : PageTableEntry) (l : List PageTableEntry) (f : ℕ) :
    mapCount (e :: l) f = mapsTo e f + mapCount l f := by
  simp only [mapCount, mapsTo, List.countP_cons, beq_iff_eq]
  omega

theorem mapCount_pos {l : List PageTableEntry} {e : PageTableEntry} (h : e ∈ l) :
    0 < mapCount l e.paddr := List.countP_pos_iff.mpr ⟨e, h, by simp⟩

theorem mappings_eq (s : MemState) (f : ℕ) : mappings s f = mapCount (allLeaves s.spaces) f := rfl

def entries (mem : PageTable) : List PageTableEntry := (leaves mem).map Prod.snd

theorem allLeaves_split {spaces : List (ℕ × ProcessMemory)} {id : ℕ} {m : ProcessMemory}
    (h : get? spaces id = some m) :
    ∃ l r, allLeaves spaces = l ++ entries m.mem ++ r ∧
      (∀ m' : ProcessMemory, allLeaves (set spaces id m') = l ++ entries m'.mem ++ r) ∧
      allLeaves (erase spaces id) = l ++ r := by
  obtain ⟨p, q, hl, hs, he⟩ := split_of_get? h
  refine ⟨allLeaves p, allLeaves q, ?_, fun m' => ?_, ?_⟩
  · nth_rewrite 1 [hl]
    simp [allLeaves, entries]
  · rw [hs]
    simp [allLeaves, entries]
  · rw [he]
    simp [allLeaves]

theorem allTables_split {spaces : List (ℕ × ProcessMemory)} {id : ℕ} {m : ProcessMemory}
    (h : get? spaces id = some m) :
    ∃ l r, allTables spaces = l ++ (m.root :: tablesFrom 2 m.mem) ++ r ∧
      (∀ m' : ProcessMemory, allTables (set spaces id m') =
        l ++ (m'.root :: tablesFrom 2 m'.mem) ++ r) ∧
      allTables (erase spaces id) = l ++ r := by
  obtain ⟨p, q, hl, hs, he⟩ := split_of_get? h
  refine ⟨allTables p, allTables q, ?_, fun m' => ?_, ?_⟩
  · nth_rewrite 1 [hl]
    simp [allTables]
  · rw [hs]
    simp [allTables]
  · rw [he]
    simp [allTables]

theorem allLeaves_new {spaces : List (ℕ × ProcessMemory)} {id : ℕ} (h : get? spaces id = none)
    (m : ProcessMemory) : ∃ l r, allLeaves spaces = l ++ r ∧
      allLeaves (set spaces id m) = l ++ entries m.mem ++ r := by
  obtain ⟨p, q, hl, hs⟩ := split_of_get?_none h
  refine ⟨allLeaves p, allLeaves q, ?_, ?_⟩
  · nth_rewrite 1 [hl]
    simp [allLeaves]
  · rw [hs]
    simp [allLeaves, entries]

theorem allTables_new {spaces : List (ℕ × ProcessMemory)} {id : ℕ} (h : get? spaces id = none)
    (m : ProcessMemory) : ∃ l r, allTables spaces = l ++ r ∧
      allTables (set spaces id m) = l ++ (m.root :: tablesFrom 2 m.mem) ++ r := by
  obtain ⟨p, q, hl, hs⟩ := split_of_get?_none h
  refine ⟨allTables p, allTables q, ?_, ?_⟩
  · nth_rewrite 1 [hl]
    simp [allTables]
  · rw [hs]
    simp [allTables]

theorem mem_allLeaves {spaces : List (ℕ × ProcessMemory)} {id : ℕ} {m : ProcessMemory}
    {e : PageTableEntry} (h : get? spaces id = some m) (he : e ∈ entries m.mem) :
    e ∈ allLeaves spaces := List.mem_flatMap.mpr ⟨(id, m), mem_of_get? h, he⟩

theorem entry_mem {mem : PageTable} {vaddr : ℕ} {e : PageTableEntry}
    (h : virtToEntry 2 mem vaddr = some e) : e ∈ entries mem := by
  obtain ⟨l, va, r, hl, _⟩ := setEntry_leaves 0 h
  exact List.mem_map.mpr ⟨(va, e), by rw [leaves, hl]; simp, rfl⟩

theorem entries_valid {mem : PageTable} {e : PageTableEntry} (h : e ∈ entries mem) :
    e.v = true ∧ e.rwx = true := by
  obtain ⟨p, hp, rfl⟩ := List.mem_map.mp h
  obtain ⟨q, _, hq⟩ := List.mem_flatMap.mp hp
  exact leaves_valid hq

def Loaded (mem : PageTable) : Prop :=
  ∀ va e, virtToEntry 2 mem va = some e → e.c = true → e.r = true ∨ e.x = true

structure Shape (s : MemState) : Prop where
  wf : Wf s.ref_count
  regular : ∀ p ∈ s.spaces, Regular 2 p.2.mem
  plain : ∀ e ∈ allLeaves s.spaces, e.g = false
  loaded : ∀ p ∈ s.spaces, p.2.loading = true → Loaded p.2.mem

/-- The arithmetic of one frame: the zero page is never in the pool, no frame is
in it twice or while it is mapped, and the recorded count bounds the mappings. -/
structure FrameSound (zp f pool maps refs : ℕ) : Prop where
  zero_pool : f = zp → pool = 0
  pool_le : pool ≤ 1
  pool_maps : 0 < pool → maps = 0
  maps_le : f ≠ zp → maps ≤ refs

structure Sound (s : MemState) : Prop extends Shape s where
  frame : ∀ f, FrameSound s.zero_page f (pooled s f) (mappings s f) (recorded s f)

/-- No writable leaf refers to the zero page or to a frame with a second mapping. -/
def Owned (s : MemState) : Prop :=
  ∀ e ∈ allLeaves s.spaces, e.w = true → e.paddr ≠ s.zero_page ∧ mappings s e.paddr = 1

/-- A table was edited without touching the reference table: the entries `old`
gave way to `new`, and `taken` left the pool of free frames and table pages to
be mapped. -/
structure TableEdit (zp : ℕ) (mem mem' : PageTable) (free free' : List ℕ)
    (old new : List PageTableEntry) (taken : List ℕ) : Prop where
  regular : Regular 2 mem → Regular 2 mem'
  maps : ∀ f, mapCount (entries mem') f + mapCount old f = mapCount (entries mem) f + mapCount new f
  pool : ∀ f, (tablesFrom 2 mem').count f + free'.count f + taken.count f =
    (tablesFrom 2 mem).count f + free.count f
  fits : ∀ f, f ≠ zp → mapCount new f ≤ mapCount old f + taken.count f
  sub : ∀ e ∈ entries mem', e ∈ entries mem ∨ e ∈ new
  plain : (∀ e ∈ entries mem, e.g = false) → ∀ e ∈ new, e.g = false

namespace TableEdit
variable {zp : ℕ} {mem mem' mem'' : PageTable} {free free' free'' : List ℕ}
variable {old new old' new' : List PageTableEntry} {taken taken' : List ℕ}

theorem refl (zp : ℕ) (mem : PageTable) (free : List ℕ) : TableEdit zp mem mem free free [] [] [] where
  regular := id
  maps := fun _ => rfl
  pool := fun _ => rfl
  fits := fun _ _ => Nat.zero_le _
  sub := fun _ he => Or.inl he
  plain := fun _ e he => absurd he (by simp)

theorem trans (h : TableEdit zp mem mem' free free' old new taken)
    (h' : TableEdit zp mem' mem'' free' free'' old' new' taken') :
    TableEdit zp mem mem'' free free'' (old ++ old') (new ++ new') (taken ++ taken') where
  regular := h'.regular ∘ h.regular
  maps := fun f => by
    have h1 := h.maps f
    have h2 := h'.maps f
    simp only [mapCount_append]
    omega
  pool := fun f => by
    have h1 := h.pool f
    have h2 := h'.pool f
    simp only [List.count_append]
    omega
  fits := fun f hf => by
    have h1 := h.fits f hf
    have h2 := h'.fits f hf
    simp only [mapCount_append, List.count_append]
    omega
  sub := fun e he => by
    rcases h'.sub e he with he | he
    · rcases h.sub e he with he | he
      · exact Or.inl he
      · exact Or.inr (List.mem_append_left _ he)
    · exact Or.inr (List.mem_append_right _ he)
  plain := fun hp e he => by
    have hnew := h.plain hp
    rcases List.mem_append.mp he with he | he
    · exact hnew e he
    · refine h'.plain (fun e he => ?_) e he
      rcases h.sub e he with he | he
      · exact hp e he
      · exact hnew e he

/-- Storing an entry that is a leaf. A frame other than the old one comes from
the front of the free list. -/
theorem setEntry {vaddr : ℕ} {e e' : PageTableEntry} (h : virtToEntry 2 mem vaddr = some e)
    (hv : e'.v = true) (hx : e'.rwx = true) (hg : e'.g = e.g) (hfree : free = taken ++ free')
    (hfits : e'.paddr = e.paddr ∨ e'.paddr ∈ taken) :
    TableEdit zp mem (setEntry 2 mem vaddr e') free free' [e] [e'] taken where
  regular := setEntry_regular (fun _ => hx)
  maps := fun f => by
    obtain ⟨l, va, r, h1, h2⟩ := setEntry_leaves 0 h
    simp only [entries, leaves, h1, h2 e' (fun _ => hx), hv, if_true, List.map_append, List.map_cons,
      List.map_nil, mapCount_append, mapCount_cons, mapCount_nil]
    omega
  pool := fun f => by
    rw [setEntry_tables 2 vaddr mem (fun _ => hx), hfree, List.count_append]
    omega
  fits := fun f _ => by
    simp only [mapCount_cons, mapCount_nil, mapsTo]
    split_ifs with h1 h2
    · omega
    · rcases hfits with h3 | h3
      · exact absurd (h3 ▸ h1) h2
      · have := List.count_pos_iff.mpr (h1 ▸ h3)
        omega
    · omega
    · omega
  sub := fun x hx' => by
    obtain ⟨l, va, r, h1, h2⟩ := setEntry_leaves 0 h
    simp only [entries, leaves, h1, h2 e' (fun _ => hx), hv, if_true, List.map_append, List.map_cons,
      List.map_nil, List.mem_append, List.mem_cons] at hx' ⊢
    tauto
  plain := fun hp x hx' => by
    rw [List.mem_singleton] at hx'
    rw [hx', hg]
    exact hp e (entry_mem h)

/-- Mapping a page at an address, over the entry that was found there if any. -/
theorem mapPage (zp : ℕ) {vaddr paddr : ℕ} {bits : PageEntryBits} (hg : bits.g = false)
    (h : mapPage vaddr paddr bits 0 2 mem free = some (mem', free')) (hfits : paddr = zp) :
    ∃ old, (old = [] ∧ virtToEntry 2 mem vaddr = none ∨
        ∃ e, old = [e] ∧ virtToEntry 2 mem vaddr = some e) ∧
      TableEdit zp mem mem' free free' old [{ bits with v := true, paddr := paddr }] [] := by
  obtain ⟨_, l, va, r, h1, h2⟩ := mapPage_leaves 0 h
  have hsub : ∀ old, (∀ f, mapCount (entries mem') f + mapCount old f = mapCount (entries mem) f +
        mapCount [{ bits with v := true, paddr := paddr }] f) →
      (∀ e ∈ entries mem', e ∈ entries mem ∨
        e ∈ [({ bits with v := true, paddr := paddr } : PageTableEntry)]) →
      TableEdit zp mem mem' free free' old [{ bits with v := true, paddr := paddr }] [] := by
    intro old hmaps hsub
    refine ⟨fun hr => mapPage_regular hr h, hmaps, fun f => ?_, fun f hf => ?_, hsub, ?_⟩
    · simpa using mapPage_tables h f
    · have hne : paddr ≠ f := fun he => hf (he ▸ hfits)
      simp [mapsTo, hne]
    · intro _ e he
      rw [List.mem_singleton] at he
      rw [he]
      exact hg
  rcases h2 with ⟨hnone, h2⟩ | ⟨e, hsome, h2⟩
  · refine ⟨[], Or.inl ⟨rfl, hnone⟩, hsub [] (fun f => ?_) (fun e he => ?_)⟩
    · simp only [entries, leaves, h1, h2, List.map_append, List.map_cons, mapCount_append,
        mapCount_cons, mapCount_nil]
      omega
    · simp only [entries, leaves, h1, h2, List.map_append, List.map_cons, List.mem_append,
        List.mem_cons] at he ⊢
      tauto
  · refine ⟨[e], Or.inr ⟨e, rfl, hsome⟩, hsub [e] (fun f => ?_) (fun x hx => ?_)⟩
    · simp only [entries, leaves, h1, h2, List.map_append, List.map_cons, mapCount_append,
        mapCount_cons, mapCount_nil]
      omega
    · simp only [entries, leaves, h1, h2, List.map_append, List.map_cons, List.mem_append,
        List.mem_cons] at hx ⊢
      tauto

/-- Mapping a fresh page at an unmapped address. -/
theorem mapFresh (zp : ℕ) {vaddr paddr : ℕ} {bits : PageEntryBits} (hg : bits.g = false)
    (hnone : virtToEntry 2 mem vaddr = none)
    (h : Paging.mapPage vaddr paddr bits 0 2 mem free = some (mem', free')) :
    TableEdit zp mem mem' (paddr :: free) free' [] [{ bits with v := true, paddr := paddr }]
      [paddr] := by
  obtain ⟨_, l, va, r, h1, h2⟩ := mapPage_leaves 0 h
  have h2 : leavesFrom 2 0 mem = l ++ r := by
    rcases h2 with ⟨_, h2⟩ | ⟨e, he, _⟩
    · exact h2
    · rw [hnone] at he
      cases he
  refine ⟨fun hr => mapPage_regular hr h, fun f => ?_, fun f => ?_, fun f hf => ?_, fun e he => ?_,
    fun _ e he => ?_⟩
  · simp only [entries, leaves, h1, h2, List.map_append, List.map_cons, mapCount_append,
      mapCount_cons, mapCount_nil]
    omega
  · have := mapPage_tables h f
    simp only [List.count_cons, List.count_nil]
    omega
  · simp only [mapCount_cons, mapCount_nil, mapsTo, List.count_cons, List.count_nil, beq_iff_eq]
    omega
  · simp only [entries, leaves, h1, h2, List.map_append, List.map_cons, List.mem_append,
      List.mem_cons] at he ⊢
    tauto
  · rw [List.mem_singleton] at he
    rw [he]
    exact hg

end TableEdit

structure EditedState (s t : MemState) (id : ℕ) (m m' : ProcessMemory) : Prop where
  space : get? s.spaces id = some m
  spaces : t.spaces = set s.spaces id m'
  root : m'.root = m.root
  zero_page : t.zero_page = s.zero_page
  ref_count : t.ref_count = s.ref_count

section Edited
variable {s t : MemState} {id : ℕ} {m m' : ProcessMemory}
variable {old new : List PageTableEntry} {taken : List ℕ}

theorem EditedState.maps (h : EditedState s t id m m')
    (he : TableEdit s.zero_page m.mem m'.mem s.free t.free old new taken) (f : ℕ) :
    mappings t f + mapCount old f = mappings s f + mapCount new f := by
  obtain ⟨l, r, h1, h2, _⟩ := allLeaves_split h.space
  rw [mappings_eq, mappings_eq, h.spaces, h1, h2]
  have := he.maps f
  simp only [mapCount_append]
  omega

theorem EditedState.pool (h : EditedState s t id m m')
    (he : TableEdit s.zero_page m.mem m'.mem s.free t.free old new taken) (f : ℕ) :
    pooled t f + taken.count f = pooled s f := by
  obtain ⟨l, r, h1, h2, _⟩ := allTables_split h.space
  unfold pooled
  rw [h.spaces, h1, h2, h.root]
  have := he.pool f
  simp only [List.count_append, List.count_cons]
  omega

theorem EditedState.sub (h : EditedState s t id m m')
    (he : TableEdit s.zero_page m.mem m'.mem s.free t.free old new taken) {e : PageTableEntry}
    (hm : e ∈ allLeaves t.spaces) : e ∈ allLeaves s.spaces ∨ e ∈ new := by
  obtain ⟨l, r, h1, h2, _⟩ := allLeaves_split h.space
  rw [h.spaces, h2] at hm
  rw [h1]
  simp only [List.mem_append] at hm ⊢
  rcases hm with (hm | hm) | hm
  · tauto
  · rcases he.sub e hm with hm | hm <;> tauto
  · tauto

theorem EditedState.shape (h : EditedState s t id m m')
    (he : TableEdit s.zero_page m.mem m'.mem s.free t.free old new taken) (hs : Shape s)
    (hl : m'.loading = true → Loaded m'.mem) : Shape t where
  wf := h.ref_count ▸ hs.wf
  regular := fun p hp => by
    rw [h.spaces] at hp
    rcases mem_set hp with rfl | hp
    · exact he.regular (hs.regular (id, m) (mem_of_get? h.space))
    · exact hs.regular p hp
  plain := fun e hm => by
    rcases h.sub he hm with hm | hm
    · exact hs.plain e hm
    · exact he.plain (fun x hx => hs.plain x (mem_allLeaves h.space hx)) e hm
  loaded := fun p hp hn => by
    rw [h.spaces] at hp
    rcases mem_set hp with rfl | hp
    · exact hl hn
    · exact hs.loaded p hp hn

/-- Every edit keeps the accounting sound. -/
theorem EditedState.sound (h : EditedState s t id m m')
    (he : TableEdit s.zero_page m.mem m'.mem s.free t.free old new taken) (hs : Sound s)
    (hl : m'.loading = true → Loaded m'.mem) : Sound t where
  toShape := h.shape he hs.toShape hl
  frame := fun f => by
    have hmaps := h.maps he f
    have hpool := h.pool he f
    have hfits := he.fits f
    obtain ⟨h1, h2, h3, h4⟩ := hs.frame f
    have hrefs := one_le_references hs.wf (pageAddr f)
    have hrec : recorded t f = recorded s f := by unfold recorded; rw [h.ref_count]
    have hrec' : 1 ≤ recorded s f := hrefs
    rw [h.zero_page, hrec]
    by_cases hz : f = s.zero_page
    · exact ⟨fun _ => by have := h1 hz; omega, by omega, fun hp => by have := h1 hz; omega,
        fun hne => absurd hz hne⟩
    · have hfits := hfits hz
      have h4 := h4 hz
      refine ⟨fun hf => absurd hf hz, by omega, fun hp => ?_, fun _ => ?_⟩
      · have := h3 (by omega)
        omega
      · by_cases htaken : 0 < taken.count f
        · have := h3 (by omega)
          omega
        · omega

/-- An edit keeps writable frames owned when each new writable entry is a fresh
frame or keeps one that had a single mapping. -/
theorem EditedState.owned (h : EditedState s t id m m')
    (he : TableEdit s.zero_page m.mem m'.mem s.free t.free old new taken) (hs : Sound s)
    (ho : Owned s)
    (hnew : ∀ e ∈ new, e.w = true → e.paddr ∈ taken ∨
      e.paddr ≠ s.zero_page ∧ mappings s e.paddr = 1) : Owned t := by
  intro e hm hw
  rw [h.zero_page]
  have hpos : 0 < mappings t e.paddr := mapCount_pos hm
  have hmaps := h.maps he e.paddr
  have hpool := h.pool he e.paddr
  obtain ⟨h1, h2, h3, _⟩ := hs.frame e.paddr
  have hcases : e.paddr ∈ taken ∨ e.paddr ≠ s.zero_page ∧ mappings s e.paddr = 1 := by
    rcases h.sub he hm with hm | hm
    · exact Or.inr (ho e hm hw)
    · exact hnew e hm hw
  have hz : e.paddr ≠ s.zero_page := by
    rcases hcases with ht | ⟨hz, _⟩
    · intro hz
      have := List.count_pos_iff.mpr ht
      have := h1 hz
      omega
    · exact hz
  have hfits := he.fits e.paddr hz
  refine ⟨hz, ?_⟩
  by_cases ht : 0 < taken.count e.paddr
  · have := h3 (by omega)
    omega
  · rcases hcases with hmem | ⟨_, hone⟩
    · exact absurd (List.count_pos_iff.mpr hmem) ht
    · omega

end Edited

end SomeOs.MemSpace
