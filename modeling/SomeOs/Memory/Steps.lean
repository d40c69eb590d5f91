import SomeOs.Memory.Edits
import SomeOs.Memory.Sharing

/-! # What one step does to the frames

Every operation edits the table of one process, shares all leaves of one process,
gives leaves up, or leaves the leaves of all processes as they are. The
conditions under which an edit keeps writable frames unshared and keeps counted
frames mapped stand beside it.
-/
namespace SomeOs.MemSpace
open SparseArray PageRef Paging

def Sole (s : MemState) (frame : ℕ) : Prop := frame ≠ s.zero_page ∧ mappings s frame = 1

/-- A page that can be written can also be read or executed, so that its entry
still is a leaf when cloning takes the write permission away. -/
def CloneSafe (s : MemState) (id : ℕ) : Prop :=
  ∀ m, get? s.spaces id = some m → ∀ e ∈ entries m.mem, e.w = true → e.paddr ≠ s.zero_page →
    e.r = true ∨ e.x = true

/-- Write permission is given to unshared frames only. -/
def WriteSafe (s : MemState) : MemOp → Prop
  | .cloneMemorySpace id _ => CloneSafe s id
  | .protect id addr length protect =>
    length ≠ 0 → protect &&& 2 ≠ 0 → ∀ m, get? s.spaces id = some m → ∀ p ∈ leaves m.mem,
      (protectRequest addr length protect).start ≤ p.1 →
      p.1 < (protectRequest addr length protect).stop → p.2.u = true → Sole s p.2.paddr
  | .allocatePages _ id addr filesz memsz flags =>
    (segmentBits flags).w = true → ∀ m, get? s.spaces id = some m → ∀ p e,
      virtToEntry 2 m.mem p = some e →
      (SegmentPage (addr / pageSize * pageSize) ((addr + filesz) % 2 ^ 64) p → Sole s e.paddr) ∧
      (SegmentPage (max (addr / pageSize * pageSize) ((addr + filesz) % 2 ^ 64))
        ((addr + memsz) % 2 ^ 64) p → e.c = false → Sole s e.paddr)
  | _ => True

def FaultSafe (s : MemState) (id vaddr : ℕ) : Prop :=
  ∀ m e, get? s.spaces id = some m → virtToEntry 2 m.mem vaddr = some e → e.c = true →
    e.paddr ≠ s.zero_page → 1 < recorded s e.paddr → s.free = []

/-- No frame loses a mapping without giving up its reference. -/
def CountSafe (s : MemState) : MemOp → Prop
  | .cloneMemorySpace id _ => CloneSafe s id
  | .handlePageFault id vaddr => FaultSafe s id vaddr
  | .virtToPhysWrite id vaddr _ =>
    (∃ m e, get? s.spaces id = some m ∧ virtToEntry 2 m.mem vaddr = some e ∧ e.w = true) ∨
      FaultSafe s id vaddr
  | .sbrk id change =>
    ∀ m, get? s.spaces id = some m →
      ∀ k < (pageUp (breakEnd m change) - pageUp m.brk) / pageSize, ∀ e,
        virtToEntry 2 m.mem (pageUp m.brk + k * pageSize) = some e → e.paddr = s.zero_page
  | _ => True

section Checks
variable (s : MemState) (id vaddr addr length protect frame : ℕ) (change : ℤ)

instance decidableSole : Decidable (Sole s frame) := inferInstanceAs (Decidable (_ ∧ _))

instance decidableCloneSafe : Decidable (CloneSafe s id) :=
  inferInstanceAs (Decidable (∀ m ∈ get? s.spaces id, ∀ e ∈ entries m.mem, e.w = true →
    e.paddr ≠ s.zero_page → e.r = true ∨ e.x = true))

instance decidableFaultSafe : Decidable (FaultSafe s id vaddr) :=
  decidable_of_iff (∀ m ∈ get? s.spaces id, ∀ e ∈ virtToEntry 2 m.mem vaddr, e.c = true → e.paddr ≠ s.zero_page →
      1 < recorded s e.paddr → s.free = [])
    ⟨fun h m e hm he => h m hm e he, fun h m hm e he => h m e hm he⟩

instance decidableProtectSafe : Decidable (WriteSafe s (.protect id addr length protect)) :=
  inferInstanceAs (Decidable (length ≠ 0 → protect &&& 2 ≠ 0 → ∀ m ∈ get? s.spaces id, ∀ p ∈ leaves m.mem,
    (protectRequest addr length protect).start ≤ p.1 → p.1 < (protectRequest addr length protect).stop → p.2.u = true →
      Sole s p.2.paddr))

instance decidableBreakSafe : Decidable (CountSafe s (.sbrk id change)) :=
  decidable_of_iff (∀ m ∈ get? s.spaces id, ∀ k < (pageUp (breakEnd m change) - pageUp m.brk) / pageSize,
      ∀ e ∈ virtToEntry 2 m.mem (pageUp m.brk + k * pageSize), e.paddr = s.zero_page)
    ⟨fun h m hm k hk e he => h m hm k hk e he, fun h m hm k hk e he => h m hm k hk e he⟩

end Checks

/-- The leaves and references are as before, and no mapped frame is in the pool. -/
structure IdleState (s t : MemState) : Prop where
  zero_page : t.zero_page = s.zero_page
  ref_count : t.ref_count = s.ref_count
  shape : Shape t
  leaves : allLeaves t.spaces = allLeaves s.spaces
  pool : ∀ f, pooled t f ≤ 1 ∧ (0 < pooled t f → f ≠ s.zero_page ∧ mappings s f = 0)

/-- The leaves `es` were given up. -/
structure DroppedState (s t : MemState) (es : List PageTableEntry) : Prop where
  zero_page : t.zero_page = s.zero_page
  shape : Shape t
  sub : ∀ e ∈ allLeaves t.spaces, e ∈ allLeaves s.spaces
  maps : ∀ f, mappings t f + mapCount es f = mappings s f
  refs : ∀ f, f ≠ s.zero_page → recorded t f = max 1 (recorded s f - mapCount es f)
  pool : ∀ f, f ≠ s.zero_page → pooled t f = pooled s f + (mapCount es f + 1 - recorded s f)
  zero_pool : pooled t s.zero_page = pooled s s.zero_page
  tables : ∀ f, (allTables t.spaces).count f ≤ (allTables s.spaces).count f

/-- The leaves `es` of one process were shared, all others are in `rest`. -/
structure SharedState (s t : MemState) (es rest : List PageTableEntry) : Prop where
  zero_page : t.zero_page = s.zero_page
  shape : Shape t
  before : ∀ e, e ∈ allLeaves s.spaces ↔ e ∈ es ∨ e ∈ rest
  after : ∀ e ∈ allLeaves t.spaces, (∃ e₀ ∈ es, e = sharedEntry s.zero_page e₀) ∨ e ∈ rest
  count : ∀ f, mappings s f = mapCount es f + mapCount rest f
  maps : ∀ f, mappings t f = mappings s f + mapCount es f
  refs : ∀ f, f ≠ s.zero_page → recorded t f = recorded s f + mapCount es f
  pool : ∀ f, pooled t f = pooled s f

/-- The kinds of steps. -/
inductive Effect (s t : MemState) (own exact : Prop) : Prop
  | idle (h : IdleState s t)
  | edit {id : ℕ} {m m' : ProcessMemory} {old new : List PageTableEntry} {taken : List ℕ}
      (h : EditedState s t id m m')
      (he : TableEdit s.zero_page m.mem m'.mem s.free t.free old new taken)
      (hl : m'.loading = true → Loaded m'.mem)
      (hown : own → Owned s → ∀ e ∈ new, e.w = true → e.paddr ∈ taken ∨ Sole s e.paddr)
      (hexact : exact → ∀ f, f ≠ s.zero_page → mapCount old f ≤ mapCount new f)
  | share {es rest : List PageTableEntry} (h : SharedState s t es rest)
  | drop {es : List PageTableEntry} (h : DroppedState s t es)

namespace DroppedState
variable {s t u : MemState} {es es' : List PageTableEntry}

theorem refl (hs : Shape s) : DroppedState s s [] where
  zero_page := rfl
  shape := hs
  sub := fun _ he => he
  maps := fun _ => rfl
  refs := fun f _ => by
    have : 1 ≤ recorded s f := one_le_references hs.wf _
    simp only [mapCount_nil]
    omega
  pool := fun f _ => by
    have : 1 ≤ recorded s f := one_le_references hs.wf _
    simp only [mapCount_nil]
    omega
  zero_pool := rfl
  tables := fun _ => le_rfl

theorem trans (h : DroppedState s t es) (h' : DroppedState t u es') :
    DroppedState s u (es ++ es') where
  zero_page := h'.zero_page.trans h.zero_page
  shape := h'.shape
  sub := fun e he => h.sub e (h'.sub e he)
  maps := fun f => by
    have h1 := h.maps f
    have h2 := h'.maps f
    simp only [mapCount_append]
    omega
  refs := fun f hf => by
    rw [h'.refs f (by rwa [h.zero_page]), h.refs f hf, mapCount_append]
    omega
  pool := fun f hf => by
    rw [h'.pool f (by rwa [h.zero_page]), h.pool f hf, h.refs f hf, mapCount_append]
    omega
  zero_pool := by
    have := h'.zero_pool
    rw [h.zero_page] at this
    rw [this, h.zero_pool]
  tables := fun f => (h'.tables f).trans (h.tables f)

end DroppedState

section Drop
variable {s : MemState} {id : ℕ} {m : ProcessMemory}

theorem Shape.plain_entries (hs : Shape s) (hm : get? s.spaces id = some m) :
    ∀ e ∈ entries m.mem, e.g = false := fun e he => hs.plain e (mem_allLeaves hm he)

/-- Unmapping a page gives up the leaf it finds. -/
theorem unmapAndFreePage_dropped (hs : Shape s) (id vaddr : ℕ) :
    ∃ es, DroppedState s (unmapAndFreePage s id vaddr) es := by
  unfold unmapAndFreePage
  cases hm : get? s.spaces id with
  | none => exact ⟨[], .refl hs⟩
  | some m =>
    simp only
    cases he : virtToEntry 2 m.mem vaddr with
    | none => exact ⟨[], .refl hs⟩
    | some e =>
      simp only
      have hinv : ({ e with v := false } : PageTableEntry).v = true →
          ({ e with v := false } : PageTableEntry).rwx = true := by simp
      have hw : Wf (FrameState.mk s.ref_count s.free).refs := hs.wf
      have hdrop := freePageEntryData_spec s.zero_page hw
        (hs.plain_entries hm e (entry_mem he))
      generalize freePageEntryData s.zero_page ⟨s.ref_count, s.free⟩ e = st at hdrop
      obtain ⟨l, r, h1, h2, _⟩ := allLeaves_split hm
      obtain ⟨tl, tr, ht1, ht2, _⟩ := allTables_split hm
      obtain ⟨el, va, er, hl1, hl2⟩ := setEntry_leaves 0 he
      have hnew := hl2 { e with v := false } hinv
      have hold : entries m.mem = el.map Prod.snd ++ e :: er.map Prod.snd := by
        simp [entries, leaves, hl1]
      have hent : entries (setEntry 2 m.mem vaddr { e with v := false }) =
          el.map Prod.snd ++ er.map Prod.snd := by
        simp [entries, leaves, hnew]
      have htab := setEntry_tables 2 vaddr m.mem hinv
      refine ⟨[e], rfl, ⟨hdrop.wf, fun p hp => ?_, fun x hx => ?_, fun p hp hld => ?_⟩,
        fun x hx => ?_, fun f => ?_, hdrop.refs, fun f hf => ?_, ?_, fun f => ?_⟩
      · rcases mem_set hp with rfl | hp
        · exact setEntry_regular hinv (hs.regular (id, m) (mem_of_get? hm))
        · exact hs.regular p hp
      · refine hs.plain x ?_
        simp only [MemState.setMem, h1, h2, hold, hent, List.mem_append, List.mem_cons] at hx ⊢
        tauto
      · rcases mem_set hp with rfl | hp
        · intro a x hx hxc
          rcases virtToEntry_setEntry hinv hx with rfl | hx'
          · exact absurd (entries_valid (entry_mem hx)).1 (by simp)
          · exact hs.loaded (id, m) (mem_of_get? hm) hld a x hx' hxc
        · exact hs.loaded p hp hld
      · simp only [MemState.setMem, h1, h2, hold, hent, List.mem_append, List.mem_cons] at hx ⊢
        tauto
      · simp only [mappings_eq, MemState.setMem, h1, h2, hold, hent, mapCount_append, mapCount_cons,
          mapCount_nil]
        omega
      · have := hdrop.free f hf
        simp only [List.count_nil] at this
        simp only [pooled, MemState.setMem, ht1, ht2, htab, this, recorded]
        omega
      · have := hdrop.zero
        simp only [List.count_nil] at this
        simp only [pooled, MemState.setMem, ht1, ht2, htab, this]
        omega
      · simp only [MemState.setMem, ht1, ht2, htab]
        exact le_rfl

theorem unmapAndFreePage_shape (hs : Shape s) (id vaddr : ℕ) :
    Shape (unmapAndFreePage s id vaddr) := by
  obtain ⟨es, h⟩ := unmapAndFreePage_dropped hs id vaddr
  exact h.shape

theorem shrinkHeap_dropped (hs : Shape s) (id n vaddr : ℕ) :
    ∃ es, DroppedState s (shrinkHeap id n vaddr s) es := by
  induction n generalizing vaddr s with
  | zero => exact ⟨[], .refl hs⟩
  | succ n ih =>
    obtain ⟨es, h⟩ := unmapAndFreePage_dropped hs id vaddr
    obtain ⟨es', h'⟩ := ih h.shape (vaddr + pageSize)
    exact ⟨es ++ es', h.trans h'⟩

/-- Teardown gives up all leaves of a process. -/
theorem deallocMemorySpace_dropped (hs : Shape s) (id : ℕ) :
    ∃ es, DroppedState s (deallocMemorySpace s id) es := by
  unfold deallocMemorySpace
  cases hm : get? s.spaces id with
  | none => exact ⟨[], .refl hs⟩
  | some m =>
    simp only
    have hw : Wf (FrameState.mk s.ref_count s.free).refs := hs.wf
    have hdrop := freePagesInTable_spec s.zero_page (hs.regular (id, m) (mem_of_get? hm))
      (hs.plain_entries hm) hw
    generalize freePagesInTable s.zero_page 2 ⟨s.ref_count, s.free⟩ m.mem = st at hdrop
    obtain ⟨l, r, h1, _, h3⟩ := allLeaves_split hm
    obtain ⟨tl, tr, ht1, _, ht3⟩ := allTables_split hm
    have hsub : ∀ e ∈ allLeaves (erase s.spaces id), e ∈ allLeaves s.spaces := by
      intro e he
      simp only [h1, h3, List.mem_append] at he ⊢
      tauto
    refine ⟨entries m.mem, rfl, ⟨hdrop.wf, fun p hp => hs.regular p (mem_erase hp),
      fun e he => hs.plain e (hsub e he), fun p hp => hs.loaded p (mem_erase hp)⟩, hsub, fun f => ?_,
      hdrop.refs, fun f hf => ?_, ?_, fun f => ?_⟩
    · simp only [mappings_eq, h1, h3, mapCount_append]
      omega
    · have := hdrop.free f hf
      simp only [pooled, recorded, ht1, ht3, List.count_append, List.count_cons, this]
      omega
    · have := hdrop.zero
      simp only [pooled, ht1, ht3, List.count_append, List.count_cons, this]
      omega
    · simp only [ht1, ht3, List.count_append]
      omega

end Drop

/-- Cloning shares all leaves of the source. -/
theorem cloneMemorySpace_shared {s t : MemState} {id new : ℕ} (hs : Shape s) (hc : CloneSafe s id)
    (h : cloneMemorySpace s id new = some t) : ∃ es rest, SharedState s t es rest := by
  unfold cloneMemorySpace at h
  cases hm : get? s.spaces id with
  | none => simp [hm] at h
  | some m =>
    cases hn : get? s.spaces new with
    | some m' => simp [hm, hn] at h
    | none =>
      cases hfree : s.free with
      | nil => simp [hm, hn, hfree] at h
      | cons page free =>
        simp only [hm, hn, hfree] at h
        split_ifs at h with hload
        obtain ⟨⟨dst, src', st⟩, hcopy, rfl⟩ := Option.map_eq_some_iff.mp h
        obtain ⟨ht, hf⟩ := copyAllPagesAndAllocUsers_spec (hs.regular (id, m) (mem_of_get? hm))
          (fun e he => ⟨hs.plain_entries hm e he, hc m hm e he⟩) hs.wf hcopy
        have hne : new ≠ id := by
          rintro rfl
          rw [hm] at hn
          cases hn
        have hn' : get? (set s.spaces id { m with mem := src' }) new = none := by
          rw [get?_set, if_neg hne, hn]
        obtain ⟨l, r, h1, h2, _⟩ := allLeaves_split hm
        obtain ⟨l', r', h3, h4⟩ := allLeaves_new hn' { m with root := page, mem := dst }
        obtain ⟨tl, tr, ht1, ht2, _⟩ := allTables_split hm
        obtain ⟨tl', tr', ht3, ht4⟩ := allTables_new hn' { m with root := page, mem := dst }
        rw [h2] at h3
        rw [ht2] at ht3
        simp only [ht.entries_src, ht.entries_dst, ht.tables] at h3 h4 ht3
        have hafter : ∀ e ∈ l' ++ List.map (sharedEntry s.zero_page) (entries m.mem) ++ r',
            (∃ e₀ ∈ entries m.mem, e = sharedEntry s.zero_page e₀) ∨ e ∈ l ++ r := by
          intro e he
          have hsplit : e ∈ l' ++ r' ∨ e ∈ List.map (sharedEntry s.zero_page) (entries m.mem) := by
            simp only [List.mem_append] at he ⊢
            tauto
          rw [← h3] at hsplit
          simp only [List.mem_append, List.mem_map] at hsplit ⊢
          rcases hsplit with ((he | ⟨e₀, he₀, rfl⟩) | he) | ⟨e₀, he₀, rfl⟩
          · exact Or.inr (Or.inl he)
          · exact Or.inl ⟨e₀, he₀, rfl⟩
          · exact Or.inr (Or.inr he)
          · exact Or.inl ⟨e₀, he₀, rfl⟩
        refine ⟨entries m.mem, l ++ r, rfl, ⟨hf.wf, fun p hp => ?_, fun e he => ?_, fun p hp hld => ?_⟩,
          fun e => ?_, fun e he => hafter e (h4 ▸ he), fun f => ?_, fun f => ?_, hf.refs, fun f => ?_⟩
        · rcases mem_set hp with rfl | hp
          · exact ht.regular.1
          · rcases mem_set hp with rfl | hp
            · exact ht.regular.2
            · exact hs.regular p hp
        · rcases hafter e (h4 ▸ he) with ⟨e₀, he₀, rfl⟩ | he
          · simpa using hs.plain_entries hm e₀ he₀
          · refine hs.plain e ?_
            simp only [h1, List.mem_append] at he ⊢
            tauto
        · rcases mem_set hp with rfl | hp
          · exact absurd hld hload
          · rcases mem_set hp with rfl | hp
            · exact absurd hld hload
            · exact hs.loaded p hp hld
        · simp only [h1, List.mem_append]
          tauto
        · simp only [mappings_eq, h1, mapCount_append]
          omega
        · have hcount := congrArg (fun es => mapCount es f) h3
          simp only [mappings_eq, h1, h4, mapCount_append, mapCount_shared] at hcount ⊢
          omega
        · have hcount := congrArg (fun ts => ts.count f) ht3
          have hpages := hf.free f
          simp only [pooled, ht1, ht4, hfree, List.count_append, List.count_cons] at hcount hpages ⊢
          omega

section Effects
variable {s t : MemState} {id : ℕ}

theorem IdleState.of_same (hs : Sound s) (h1 : t.spaces = s.spaces) (h2 : t.ref_count = s.ref_count)
    (h3 : t.zero_page = s.zero_page) (h4 : t.free = s.free) : IdleState s t where
  zero_page := h3
  ref_count := h2
  shape := ⟨h2 ▸ hs.wf, h1 ▸ hs.regular, h1 ▸ hs.plain, h1 ▸ hs.loaded⟩
  leaves := by rw [h1]
  pool := fun f => by
    obtain ⟨hz, hle, hmaps, _⟩ := hs.frame f
    have hsame : pooled t f = pooled s f := by
      unfold pooled
      rw [h1, h4]
    rw [hsame]
    exact ⟨hle, fun hp => ⟨fun hf => by have := hz hf; omega, hmaps hp⟩⟩

/-- A new process has an empty table in a page that was free. -/
theorem createMemorySpace_idle (hs : Sound s) (h : createMemorySpace s id = some t) :
    IdleState s t := by
  unfold createMemorySpace at h
  cases hm : get? s.spaces id with
  | some m => simp [hm] at h
  | none =>
    cases hfree : s.free with
    | nil => simp [hm, hfree] at h
    | cons page free =>
      simp only [hm, hfree, Option.some.injEq] at h
      subst h
      obtain ⟨l, r, h1, h2⟩ := allLeaves_new hm ⟨page, [], 0, 0, true⟩
      obtain ⟨tl, tr, ht1, ht2⟩ := allTables_new hm ⟨page, [], 0, 0, true⟩
      have hleaves : allLeaves (set s.spaces id ⟨page, [], 0, 0, true⟩) = allLeaves s.spaces := by
        rw [h1, h2]
        simp [entries, Paging.leaves, leavesFrom]
      refine ⟨rfl, rfl, ⟨hs.wf, fun p hp => ?_, hleaves ▸ hs.plain, fun p hp hld => ?_⟩, hleaves,
        fun f => ?_⟩
      · rcases mem_set hp with rfl | hp
        · exact fun q hq => absurd hq (by simp)
        · exact hs.regular p hp
      · rcases mem_set hp with rfl | hp
        · intro va e he
          rw [virtToEntry_nil] at he
          cases he
        · exact hs.loaded p hp hld
      · obtain ⟨hz, hle, hmaps, _⟩ := hs.frame f
        have hsame : pooled { s with spaces := set s.spaces id ⟨page, [], 0, 0, true⟩, free := free } f =
            pooled s f := by
          simp only [pooled, ht1, ht2, hfree, List.count_append, List.count_cons, tablesFrom,
            List.flatMap_nil, List.count_nil]
          omega
        rw [hsame]
        exact ⟨hle, fun hp => ⟨fun hf => by have := hz hf; omega, hmaps hp⟩⟩

theorem refill_idle {free : List ℕ} (hs : Sound s) (h : step s (.refill free) = some t) :
    IdleState s t := by
  simp only [step] at h
  split_ifs at h with hc
  obtain ⟨hnodup, hunused⟩ := hc
  cases h
  refine ⟨rfl, rfl, ⟨hs.wf, hs.regular, hs.plain, hs.loaded⟩, rfl, fun f => ?_⟩
  obtain ⟨hz, hle, hmaps, _⟩ := hs.frame f
  simp only [pooled] at hz hle hmaps ⊢
  by_cases hf : f ∈ free
  · obtain ⟨h1, h2, h3⟩ := hunused f hf
    have htables : (allTables s.spaces).count f = 0 := List.count_eq_zero_of_not_mem h3
    rw [htables, List.count_eq_one_of_mem hnodup hf]
    exact ⟨le_rfl, fun _ => ⟨h1, h2⟩⟩
  · rw [List.count_eq_zero_of_not_mem hf]
    refine ⟨by omega, fun hp => ⟨fun he => ?_, hmaps (by omega)⟩⟩
    have := hz he
    omega

variable {own exact : Prop}

/-- A write fault edits one entry. -/
theorem handlePageFault_effect (hs : Sound s) (id vaddr : ℕ)
    (hexact : exact → FaultSafe s id vaddr) :
    Effect s (handlePageFault s id vaddr).2 own exact := by
  rcases handlePageFault_cases s id vaddr with h | ⟨m, e, hm, he, hc, _, hcases⟩
  · rw [h]
    exact .idle (.of_same hs rfl rfl rfl rfl)
  · have hev := entries_valid (entry_mem he)
    have hmem : e ∈ allLeaves s.spaces := mem_allLeaves hm (entry_mem he)
    have hrec := fun hz : e.paddr ≠ s.zero_page =>
      hasOtherReferences_eq hs.wf (fun h : pageAddr e.paddr = pageAddr s.zero_page =>
        hz (pageAddr_inj h))
    have hloaded : ∀ page, m.loading = true →
        Loaded (setEntry 2 m.mem vaddr (writableCopy e page)) := by
      intro page hload va x hx hxc
      rcases virtToEntry_setEntry (fun _ => writableCopy_rwx e page) hx with rfl | hx
      · exact absurd hxc (by simp [writableCopy])
      · exact hs.loaded (id, m) (mem_of_get? hm) hload va x hx hxc
    rcases hcases with ⟨hz, href, ht⟩ | ⟨page, free, phys, hfree, hwhy, ht⟩
    · rw [ht]
      rw [hrec hz] at href
      have hedit : TableEdit s.zero_page m.mem (setEntry 2 m.mem vaddr (writableCopy e e.paddr))
          s.free s.free [e] [writableCopy e e.paddr] [] :=
        .setEntry he hev.1 (writableCopy_rwx e _) rfl rfl (Or.inl rfl)
      refine .edit (m := m) ⟨hm, rfl, rfl, rfl, rfl⟩ hedit (hloaded _) ?_ ?_
      · intro _ _ x hx _
        rw [List.mem_singleton] at hx
        subst hx
        have hpos : 0 < mappings s e.paddr := mapCount_pos hmem
        have hle := (hs.frame e.paddr).maps_le hz
        have hone : ¬ 1 < recorded s e.paddr := by simpa [recorded] using href
        exact Or.inr ⟨hz, show mappings s e.paddr = 1 by omega⟩
      · exact fun _ f _ => le_rfl
    · rw [ht]
      have hedit : TableEdit s.zero_page m.mem (setEntry 2 m.mem vaddr (writableCopy e page))
          s.free free [e] [writableCopy e page] [page] :=
        .setEntry he hev.1 (writableCopy_rwx e _) rfl hfree (Or.inr (by simp [writableCopy]))
      refine .edit (m := m) ⟨hm, rfl, rfl, rfl, rfl⟩ hedit (hloaded _) ?_ ?_
      · intro _ _ x hx _
        rw [List.mem_singleton] at hx
        subst hx
        exact Or.inl (by simp [writableCopy])
      · intro hx f hf
        by_cases hz : e.paddr = s.zero_page
        · have hne : e.paddr ≠ f := fun h => hf (h.symm.trans hz)
          simp [mapsTo, hne]
        · have href := hwhy.resolve_left hz
          rw [hrec hz] at href
          have := hexact hx m e hm he hc hz (by simpa [recorded] using href)
          rw [hfree] at this
          cases this

theorem setBrk_dropped (hs : Shape s) (id brk : ℕ) : DroppedState s (s.setBrk id brk) [] := by
  unfold MemState.setBrk
  cases hm : get? s.spaces id with
  | none => exact .refl hs
  | some m =>
    simp only
    obtain ⟨l, r, h1, h2, _⟩ := allLeaves_split hm
    obtain ⟨tl, tr, ht1, ht2, _⟩ := allTables_split hm
    have hleaves : allLeaves (set s.spaces id { m with brk := brk }) = allLeaves s.spaces := by
      rw [h1, h2]
    have htables : allTables (set s.spaces id { m with brk := brk }) = allTables s.spaces := by
      rw [ht1, ht2]
    have hsame := DroppedState.refl hs
    refine ⟨rfl, ⟨hs.wf, fun p hp => ?_, hleaves ▸ hs.plain, fun p hp hld => ?_⟩, ?_, ?_, hsame.refs,
      ?_, ?_, ?_⟩
    · rcases mem_set hp with rfl | hp
      · exact hs.regular (id, m) (mem_of_get? hm)
      · exact hs.regular p hp
    · rcases mem_set hp with rfl | hp
      · exact hs.loaded (id, m) (mem_of_get? hm) hld
      · exact hs.loaded p hp hld
    · simp [hleaves]
    · simp [mappings, hleaves]
    · simpa only [pooled, htables] using hsame.pool
    · simp only [pooled, htables]
    · simp [htables]

/-- Moving the break maps the zero page, or gives up the pages above the new end. -/
theorem changeProcessBreak_effect {change : ℤ} (hs : Sound s)
    (h : changeProcessBreak s id change = some t) (hexact : exact → CountSafe s (.sbrk id change)) :
    Effect s t own exact := by
  unfold changeProcessBreak at h
  cases hm : get? s.spaces id with
  | none => simp [hm] at h
  | some m =>
    simp only [hm] at h
    split_ifs at h with hload hsame hgrow
    · cases h
      exact .drop (setBrk_dropped hs.toShape _ _)
    · obtain ⟨⟨mem', free'⟩, hmap, rfl⟩ := Option.map_eq_some_iff.mp h
      obtain ⟨old, new, hedit, hw, hzero⟩ := growHeap_edit hmap
      have hset : get? (set s.spaces id { m with mem := mem' }) id = some { m with mem := mem' } := by
        rw [get?_set, if_pos rfl]
      have hst : EditedState s ({ s.setMem id m mem' with free := free' }.setBrk id (breakEnd m change))
          id m { m with mem := mem', brk := breakEnd m change } := by
        refine ⟨hm, ?_, rfl, ?_, ?_⟩ <;> simp only [MemState.setBrk, MemState.setMem, hset, set_set]
      have hfree : ({ s.setMem id m mem' with free := free' }.setBrk id (breakEnd m change)).free =
          free' := by
        simp only [MemState.setBrk, MemState.setMem, hset]
      refine .edit hst (hfree.symm ▸ hedit) (fun hl => absurd hl hload) (fun _ _ e he hew => ?_)
        (fun hx f hf => ?_)
      · rw [hw e he] at hew
        cases hew
      · have hold := hzero (hexact hx m hm)
        have : mapCount old f = 0 := by
          refine List.countP_eq_zero.mpr (fun e he => ?_)
          simpa [hold e he] using Ne.symm hf
        omega
    · cases h
      obtain ⟨es, hd⟩ := shrinkHeap_dropped hs.toShape id
        ((pageUp m.brk - pageUp (breakEnd m change)) / pageSize) (pageUp (breakEnd m change))
      exact .drop (hd.trans (setBrk_dropped hd.shape _ _))

/-- A protection change keeps all frames in their places. -/
theorem protectSyscall_effect {addr length protect : ℕ} (hs : Sound s)
    (h : protectSyscall s id addr length protect = some t)
    (hown : own → WriteSafe s (.protect id addr length protect)) : Effect s t own exact := by
  unfold protectSyscall at h
  cases hm : get? s.spaces id with
  | none => simp [hm] at h
  | some m =>
    simp only [hm] at h
    split_ifs at h with hload hnone
    · cases h
      exact .idle (.of_same hs rfl rfl rfl rfl)
    · cases h
      push Not at hnone
      have hr := hs.regular (id, m) (mem_of_get? hm)
      have hperm : (protectRequest addr length protect).protect &&& 7 ≠ 0 := hnone.1
      have hedit := protect_edit s.zero_page hperm s.free hr
      refine .edit (m := m) ⟨hm, rfl, rfl, rfl, rfl⟩ hedit (fun hl => absurd hl hload)
        (fun ho hs' e he hw => Or.inr ?_) (fun _ f _ => ?_)
      · have hl := (leaves_allPagesDo (protectCallback_keeps hperm) hr).1
        rw [entries, hl, List.map_map] at he
        obtain ⟨p, hp, rfl⟩ := List.mem_map.mp he
        simp only [Function.comp_apply, protectCallback_paddr] at hw ⊢
        unfold allPagesProtectCallback at hw
        split_ifs at hw with hin
        · simp only [Bool.and_eq_true, decide_eq_true_eq] at hin
          exact hown ho hnone.2 (decide_eq_true_eq.mp hw) m hm p hp hin.1.1 hin.1.2 hin.2
        · exact hs' p.2 (mem_allLeaves hm (List.mem_map.mpr ⟨p, hp, rfl⟩)) hw
      · exact (protect_maps hperm hr f).ge

theorem segmentBits_c (flags : ℕ) : (segmentBits flags).c = false := by
  unfold segmentBits
  simp only
  split_ifs <;> rfl

theorem segmentBits_g (flags : ℕ) : (segmentBits flags).g = false := by
  unfold segmentBits
  simp only
  split_ifs <;> rfl

/-- Loading a segment maps fresh frames and the zero page, and widens the
permissions of the entries it finds. -/
theorem allocatePages_effect {fuel addr filesz memsz flags : ℕ} {b : Bool} (hs : Sound s)
    (h : allocatePages s fuel id addr filesz memsz flags = some (b, t))
    (hown : own → WriteSafe s (.allocatePages fuel id addr filesz memsz flags)) :
    Effect s t own exact := by
  unfold allocatePages at h
  cases hm : get? s.spaces id with
  | none => simp [hm] at h
  | some m =>
    simp only [hm] at h
    split_ifs at h with hload
    obtain ⟨⟨b₁, position, st⟩, hfile, hrest⟩ := Option.bind_eq_some_iff.mp h
    have hl1 : (addr + filesz) % 2 ^ 64 < 2 ^ 64 := Nat.mod_lt _ (by positivity)
    have hl2 : (addr + memsz) % 2 ^ 64 < 2 ^ 64 := Nat.mod_lt _ (by positivity)
    have hp : addr / pageSize * pageSize % pageSize = 0 := Nat.mul_mod_left _ _
    have hld := hs.loaded (id, m) (mem_of_get? hm) (by simpa using hload)
    obtain ⟨old₁, new₁, taken, hedit₁, hmaps₁, hnew₁, hview₁, hpos, hend⟩ :=
      allocateFilePages_edit s.zero_page (segmentBits_g flags) hl1 hp hfile
    have hld₁ := allocateFilePages_loaded (segmentBits_c flags) hld hfile
    have hmem : ∀ {p e}, virtToEntry 2 m.mem p = some e → e ∈ allLeaves s.spaces :=
      fun he => mem_allLeaves hm (entry_mem he)
    -- A writable entry of the file part is fresh, was writable, or is in the range.
    have hown₁ : own → Owned s → ∀ e ∈ new₁, e.w = true ∨ (segmentBits flags).w = true →
        e.paddr ∈ taken ∨ Sole s e.paddr := by
      intro ho hs' e he hw
      rcases hnew₁ e he with ht | ⟨p, e₀, hseg, he₀, hpa, hw₀⟩
      · exact Or.inl ht
      · right
        rw [← hpa]
        have hor : e₀.w = true ∨ (segmentBits flags).w = true := hw.elim hw₀ Or.inr
        rcases hor with hw | hw
        · exact hs' e₀ (hmem he₀) hw
        · exact (hown ho hw m hm p e₀ he₀).1 hseg
    cases hb : b₁ with
    | false =>
      simp only [hb, Bool.false_eq_true, if_false, Option.some.injEq, Prod.mk.injEq] at hrest
      obtain ⟨_, rfl⟩ := hrest
      exact .edit (m := m) ⟨hm, rfl, rfl, rfl, rfl⟩ hedit₁ (fun _ => hld₁)
        (fun ho hs' e he hw => hown₁ ho hs' e he (Or.inl hw)) (fun _ f _ => hmaps₁ f)
    | true =>
      simp only [hb, if_true, Option.map_eq_some_iff, Prod.mk.injEq] at hrest
      obtain ⟨⟨mem', free'⟩, hzero, _, rfl⟩ := hrest
      obtain ⟨hld₂, old₂, new₂, hedit₂, hmaps₂, hnew₂⟩ :=
        allocateZeroPages_edit (segmentBits_g flags) (segmentBits_c flags) hl2 hpos hld₁ hzero
      refine .edit (m := m) ⟨hm, rfl, rfl, rfl, rfl⟩ (by simpa using hedit₁.trans hedit₂)
        (fun _ => hld₂) (fun ho hs' e he hw => ?_) (fun _ f _ => ?_)
      · rcases List.mem_append.mp he with he | he
        · exact hown₁ ho hs' e he (Or.inl hw)
        · obtain ⟨p, e₀, hseg, he₀, hpa, hor⟩ := hnew₂ e he hw
          rw [← hpa]
          rcases hview₁ p e₀ he₀ with hin | he₀
          · exact hown₁ ho hs' e₀ hin (hor.imp_right And.left)
          · right
            rcases hor with hw | ⟨hw, hc⟩
            · exact hs' e₀ (hmem he₀) hw
            · refine (hown ho hw m hm p e₀ he₀).2 ⟨hseg.1, hseg.2.1, ?_⟩ hc
              exact hseg.2.2.imp_left (fun hle => (hend hb).trans hle)
      · have h1 := hmaps₁ f
        have h2 := hmaps₂ f
        simp only [mapCount_append]
        omega

/-- Every step has one of the effects. -/
theorem step_effect {op : MemOp} (hs : Sound s) (h : step s op = some t)
    (hclone : ∀ id new, op = .cloneMemorySpace id new → CloneSafe s id) :
    Effect s t (WriteSafe s op) (CountSafe s op) := by
  cases op with
  | createMemorySpace id => exact .idle (createMemorySpace_idle hs h)
  | cloneMemorySpace id new =>
    obtain ⟨es, rest, hsh⟩ := cloneMemorySpace_shared hs.toShape (hclone id new rfl) h
    exact .share hsh
  | handlePageFault id vaddr =>
    cases h
    exact handlePageFault_effect hs id vaddr (fun hx => hx)
  | virtToPhysWrite id vaddr allow_all =>
    cases h
    rcases virtToPhys_state s id vaddr allow_all with h | ⟨⟨m, e, hm, he, hw⟩, h⟩
    · rw [h]
      exact .idle (.of_same hs rfl rfl rfl rfl)
    · rw [h]
      refine handlePageFault_effect hs id vaddr (fun hx => ?_)
      rcases hx with ⟨m', e', hm', he', hw'⟩ | hx
      · rw [hm] at hm'
        cases hm'
        rw [he] at he'
        cases he'
        rw [hw] at hw'
        cases hw'
      · exact hx
  | sbrk id change => exact changeProcessBreak_effect hs h (fun hx => hx)
  | protect id addr length protect => exact protectSyscall_effect hs h (fun hx => hx)
  | allocatePages fuel id addr filesz memsz flags =>
    obtain ⟨⟨b, t'⟩, ht, rfl⟩ := Option.map_eq_some_iff.mp h
    exact allocatePages_effect hs ht (fun hx => hx)
  | setStartBrk id =>
    simp only [step, setStartBrk] at h
    cases hm : get? s.spaces id with
    | none => simp [hm] at h
    | some m =>
      simp only [hm] at h
      split_ifs at h
      cases h
      exact .edit (m := m) ⟨hm, rfl, rfl, rfl, rfl⟩ (.refl _ _ _) (hs.loaded _ (mem_of_get? hm)) (by simp) (by simp)
  | finishLoading id =>
    obtain ⟨m, hm, rfl⟩ := Option.map_eq_some_iff.mp h
    exact .edit (m := m) ⟨hm, rfl, rfl, rfl, rfl⟩ (.refl _ _ _) (by simp) (by simp) (by simp)
  | unmapAndFreePage id vaddr =>
    cases h
    obtain ⟨es, hd⟩ := unmapAndFreePage_dropped hs.toShape id vaddr
    exact .drop hd
  | deallocMemorySpace id =>
    cases h
    obtain ⟨es, hd⟩ := deallocMemorySpace_dropped hs.toShape id
    exact .drop hd
  | userStore id vaddr byte =>
    simp only [step, userStore] at h
    cases hm : get? s.spaces id with
    | none => simp [hm] at h
    | some m =>
      cases he : virtToEntry 2 m.mem vaddr with
      | none => simp [hm, he] at h
      | some e =>
        simp only [hm, he] at h
        split_ifs at h
        cases h
        exact .idle (.of_same hs rfl rfl rfl rfl)
  | refill free => exact .idle (refill_idle hs h)

end Effects

/-- Every step keeps the accounting sound. -/
theorem Effect.sound {s t : MemState} {own exact : Prop} (hs : Sound s) (h : Effect s t own exact) :
    Sound t := by
  cases h with
  | idle h =>
    refine ⟨h.shape, fun f => ?_⟩
    obtain ⟨h1, h2, h3, h4⟩ := hs.frame f
    obtain ⟨hle, hpool⟩ := h.pool f
    have hmaps : mappings t f = mappings s f := by simp only [mappings, h.leaves]
    have hrec : recorded t f = recorded s f := by simp only [recorded, h.ref_count]
    rw [h.zero_page, hmaps, hrec]
    refine ⟨fun hf => ?_, hle, fun hp => (hpool hp).2, h4⟩
    by_contra hne
    exact (hpool (by omega)).1 hf
  | edit h he hl _ _ => exact h.sound he hs hl
  | share h =>
    refine ⟨h.shape, fun f => ?_⟩
    obtain ⟨h1, h2, h3, h4⟩ := hs.frame f
    have hcount := h.count f
    rw [h.zero_page, h.maps f, h.pool f]
    refine ⟨h1, h2, fun hp => ?_, fun hf => ?_⟩
    · have := h3 hp
      omega
    · have := h4 hf
      rw [h.refs f hf]
      omega
  | drop h =>
    refine ⟨h.shape, fun f => ?_⟩
    obtain ⟨h1, h2, h3, h4⟩ := hs.frame f
    have hmaps := h.maps f
    rw [h.zero_page]
    by_cases hf : f = s.zero_page
    · have hz := h1 hf
      have hpool : pooled t f = pooled s f := by rw [hf, h.zero_pool]
      rw [hpool]
      exact ⟨h1, h2, fun hp => by omega, fun hne => absurd hf hne⟩
    · have h4 := h4 hf
      have hone : 1 ≤ recorded s f := one_le_references hs.wf _
      rw [h.pool f hf, h.refs f hf]
      refine ⟨fun he => absurd he hf, ?_, fun hp => ?_, fun _ => by omega⟩
      · by_cases hp : 0 < pooled s f
        · have := h3 hp
          omega
        · omega
      · by_cases hp' : 0 < pooled s f
        · have := h3 hp'
          omega
        · omega

theorem Booted.sound {s : MemState} (h : Booted s) : Sound s where
  wf := by
    rw [h.ref_count]
    exact empty_wf
  regular := by simp [h.spaces]
  plain := by simp [h.spaces, allLeaves]
  loaded := by simp [h.spaces]
  frame := fun f => by
    have hmaps : mappings s f = 0 := by simp [mappings, allLeaves, h.spaces]
    have hpool : pooled s f = s.free.count f := by simp [pooled, allTables, h.spaces]
    rw [hmaps, hpool]
    refine ⟨fun hf => ?_, List.nodup_iff_count_le_one.mp h.nodup f, fun _ => rfl, fun _ => Nat.zero_le _⟩
    rw [hf]
    exact List.count_eq_zero_of_not_mem h.zero_page

def smallMachine : MemState where
  spaces := []
  ref_count := PageRefTable.empty
  zero_page := 0
  free := [1, 2, 3, 4, 5, 6, 7, 8]
  phys := fun _ => 0

theorem smallMachine_booted : Booted smallMachine where
  spaces := rfl
  ref_count := rfl
  nodup := by decide
  zero_page := by decide

end SomeOs.MemSpace
