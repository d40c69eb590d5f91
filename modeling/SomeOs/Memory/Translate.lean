import SomeOs.Memory.Edits

/-! # The address that `virtToPhys` returns

The walk of an address through a table ends in a leaf at some level. A write to a
copy-on-write page takes the fault first: the leaf gets a frame of its own with the same
contents, and all other leaves stay.
-/
namespace SomeOs.Paging
open SparseArray

/-- The leaf that maps an address, with its level. -/
def walk : ℕ → PageTable → ℕ → Option (ℕ × PageTableEntry)
  | 0, table, vaddr =>
    match get? table (vpn 0 vaddr) with
    | some (.mk e _) => if e.v && e.rwx then some (0, e) else none
    | none => none
  | n + 1, table, vaddr =>
    match get? table (vpn (n + 1) vaddr) with
    | some (.mk e next) => if e.v then if e.rwx then some (n + 1, e) else walk n next vaddr else none
    | none => none

def leafAddr (p : ℕ × PageTableEntry) (vaddr : ℕ) : ℕ :=
  p.2.paddr * pageSize / (pageSize * 2 ^ (9 * p.1)) * (pageSize * 2 ^ (9 * p.1)) + vaddr % (pageSize * 2 ^ (9 * p.1))

def SamePage (n va vaddr : ℕ) : Prop := ∀ level < n + 1, vpn level va = vpn level vaddr

instance (n va vaddr : ℕ) : Decidable (SamePage n va vaddr) :=
  inferInstanceAs (Decidable (∀ level < n + 1, vpn level va = vpn level vaddr))

section Walk
variable {n va vaddr : ℕ} {table : PageTable} {e new : PageTableEntry}

theorem virtToEntry_eq_walk (n : ℕ) (table : PageTable) (vaddr : ℕ) :
    virtToEntry n table vaddr = (walk n table vaddr).map Prod.snd := by
  induction n generalizing table with
  | zero =>
    simp only [virtToEntry, walk]
    cases get? table (vpn 0 vaddr) with
    | none => rfl
    | some slot =>
      obtain ⟨e, next⟩ := slot
      simp only
      split_ifs <;> rfl
  | succ n ih =>
    simp only [virtToEntry, walk]
    cases get? table (vpn (n + 1) vaddr) with
    | none => rfl
    | some slot =>
      obtain ⟨e, next⟩ := slot
      simp only
      split_ifs
      · rfl
      · exact ih next
      · rfl

theorem unsafeVirtToPhys_eq_walk (n : ℕ) (table : PageTable) (vaddr : ℕ) :
    unsafeVirtToPhys n table vaddr = ((walk n table vaddr).map (leafAddr · vaddr)).getD 0 := by
  induction n generalizing table with
  | zero =>
    simp only [unsafeVirtToPhys, walk]
    cases get? table (vpn 0 vaddr) with
    | none => rfl
    | some slot =>
      obtain ⟨e, next⟩ := slot
      simp only
      split_ifs
      · simp [leafAddr, pageSize]
      · rfl
  | succ n ih =>
    simp only [unsafeVirtToPhys, walk]
    cases get? table (vpn (n + 1) vaddr) with
    | none => rfl
    | some slot =>
      obtain ⟨e, next⟩ := slot
      simp only
      split_ifs
      · rfl
      · exact ih next
      · rfl

theorem walk_of_entry (h : virtToEntry n table vaddr = some e) : ∃ level, walk n table vaddr = some (level, e) := by
  rw [virtToEntry_eq_walk] at h
  obtain ⟨⟨level, e'⟩, hw, rfl⟩ := Option.map_eq_some_iff.mp h
  exact ⟨level, hw⟩

theorem entry_of_walk {p : ℕ × PageTableEntry} (h : walk n table vaddr = some p) :
    virtToEntry n table vaddr = some p.2 := by
  rw [virtToEntry_eq_walk, h]
  rfl

theorem unsafeVirtToPhys_of_walk {p : ℕ × PageTableEntry} (h : walk n table vaddr = some p) :
    unsafeVirtToPhys n table vaddr = leafAddr p vaddr := by
  rw [unsafeVirtToPhys_eq_walk, h]
  rfl

@[simp] theorem leafAddr_zero (e : PageTableEntry) (vaddr : ℕ) :
    leafAddr (0, e) vaddr = e.paddr * pageSize + vaddr % pageSize := by
  simp [leafAddr, pageSize]

theorem walk_valid {p : ℕ × PageTableEntry} (h : walk n table vaddr = some p) : p.2.v = true ∧ p.2.rwx = true := by
  induction n generalizing table with
  | zero =>
    simp only [walk] at h
    split at h
    · split_ifs at h with hv
      cases h
      simpa using hv
    · cases h
  | succ n ih =>
    simp only [walk] at h
    split at h
    · split_ifs at h with hv hx
      · cases h
        exact ⟨hv, hx⟩
      · exact ih h
    · cases h

theorem SamePage.below (h : SamePage (n + 1) va vaddr) : SamePage n va vaddr := fun level hl => h level (by omega)

theorem samePage_succ : SamePage (n + 1) va vaddr ↔ vpn (n + 1) va = vpn (n + 1) vaddr ∧ SamePage n va vaddr := by
  refine ⟨fun h => ⟨h (n + 1) (by omega), h.below⟩, fun h level hl => ?_⟩
  rcases Nat.lt_succ_iff_lt_or_eq.mp hl with hl | rfl
  · exact h.2 level hl
  · exact h.1

theorem samePage_zero : SamePage 0 va vaddr ↔ vpn 0 va = vpn 0 vaddr := by
  refine ⟨fun h => h 0 (by omega), fun h level hl => ?_⟩
  obtain rfl : level = 0 := by omega
  exact h

theorem samePage_refl (n vaddr : ℕ) : SamePage n vaddr vaddr := fun _ _ => rfl

theorem samePage_of_div (h : va / pageSize = vaddr / pageSize) : SamePage n va vaddr := by
  intro level _
  have hpow : 2 ^ (12 + 9 * level) = pageSize * 2 ^ (9 * level) := by rw [pow_add]; rfl
  simp only [vpn, hpow, ← Nat.div_div_eq_div_mul, h]

theorem SamePage.walk_eq (h : SamePage n va vaddr) (table : PageTable) : walk n table va = walk n table vaddr := by
  induction n generalizing table with
  | zero => simp only [walk, samePage_zero.mp h]
  | succ n ih =>
    obtain ⟨htop, hbelow⟩ := samePage_succ.mp h
    simp only [walk, htop, ih hbelow]

/-- A store through the pointer to a leaf of level zero changes the walk of the addresses of its page only. -/
theorem walk_setEntry (h : walk n table vaddr = some (0, e)) (hv : new.v = true) (hx : new.rwx = true) (va : ℕ) :
    walk n (setEntry n table vaddr new) va = if SamePage n va vaddr then some (0, new) else walk n table va := by
  induction n generalizing table with
  | zero =>
    simp only [walk] at h
    cases hg : get? table (vpn 0 vaddr) with
    | none => simp [hg] at h
    | some slot =>
      obtain ⟨e', next⟩ := slot
      simp only [hg] at h
      split_ifs at h with hc
      simp only [setEntry, hg, hc, if_true, walk, get?_set, samePage_zero]
      split_ifs with hi
      · simp [hv, hx]
      · rfl
  | succ n ih =>
    simp only [walk] at h
    cases hg : get? table (vpn (n + 1) vaddr) with
    | none => simp [hg] at h
    | some slot =>
      obtain ⟨e', next⟩ := slot
      simp only [hg] at h
      split_ifs at h with hv' hx'
      · exact absurd (congrArg Prod.fst (Option.some.inj h)) (by simp)
      · have hx' : e'.rwx = false := by simpa using hx'
        simp only [setEntry, hg, hv', hx', if_true, Bool.false_eq_true, if_false, walk, get?_set, samePage_succ]
        by_cases hi : vpn (n + 1) va = vpn (n + 1) vaddr
        · simp [hi, hg, hv', hx', ih h]
        · simp [hi]

end Walk

end SomeOs.Paging

namespace SomeOs.MemSpace
open SparseArray PageRef Paging

/-- The rights of the page allow the access. A copy-on-write page may be written. -/
def Permitted (e : PageTableEntry) (write allow_all : Bool) : Prop :=
  if write then e.w = true ∨ e.c = true ∨ allow_all = true else e.r = true ∨ allow_all = true

def TakesFault (e : PageTableEntry) (write : Bool) : Prop := write = true ∧ e.w = false ∧ e.c = true

def NeedsPage (s : MemState) (e : PageTableEntry) : Prop :=
  e.paddr = s.zero_page ∨ hasOtherReferences (pageAddr s.zero_page) s.ref_count (pageAddr e.paddr) = true

instance (e : PageTableEntry) (write allow_all : Bool) : Decidable (Permitted e write allow_all) :=
  inferInstanceAs (Decidable (if write then _ else _))

instance (e : PageTableEntry) (write : Bool) : Decidable (TakesFault e write) :=
  inferInstanceAs (Decidable (_ ∧ _))

instance (s : MemState) (e : PageTableEntry) : Decidable (NeedsPage s e) :=
  inferInstanceAs (Decidable (_ ∨ _))

def faultFrame (s : MemState) (e : PageTableEntry) : ℕ := if NeedsPage s e then s.free.headD 0 else e.paddr

def faultPhys (s : MemState) (e : PageTableEntry) : ℕ → UInt8 :=
  if e.paddr = s.zero_page then zeroPage s.phys (faultFrame s e)
  else if NeedsPage s e then copyPage s.phys (faultFrame s e) e.paddr
  else s.phys

def faulted (s : MemState) (id : ℕ) (m : ProcessMemory) (vaddr : ℕ) (e : PageTableEntry) : MemState :=
  { s.setMem id m (setEntry 2 m.mem vaddr (writableCopy e (faultFrame s e))) with
    free := if NeedsPage s e then s.free.tail else s.free
    phys := faultPhys s e }

/-- The result of an access is right: an address that is returned is that of the byte, in the resulting
table, the bytes of the page are as before and all other leaves too, with all frames that were not free;
and no address is returned exactly when there is none. -/
structure Addressed (s : MemState) (id : ℕ) (m : ProcessMemory) (vaddr : ℕ) (write allow_all : Bool)
    (r : ℕ × MemState) : Prop where
  right : r.1 ≠ 0 → ∃ m', get? r.2.spaces id = some m' ∧ r.1 = unsafeVirtToPhys 2 m'.mem vaddr ∧
    ∀ va, SamePage 2 va vaddr → r.2.phys (unsafeVirtToPhys 2 m'.mem va) = s.phys (unsafeVirtToPhys 2 m.mem va)
  others : ∀ id' m' va, get? s.spaces id' = some m' → ¬(id' = id ∧ SamePage 2 va vaddr) →
    ∃ m'', get? r.2.spaces id' = some m'' ∧ virtToEntry 2 m''.mem va = virtToEntry 2 m'.mem va ∧
      unsafeVirtToPhys 2 m''.mem va = unsafeVirtToPhys 2 m'.mem va
  bytes : ∀ a, a / pageSize ∉ s.free → r.2.phys a = s.phys a
  zero : r.1 = 0 ↔ virtToEntry 2 m.mem vaddr = none ∨ ∃ e, virtToEntry 2 m.mem vaddr = some e ∧
    (¬Permitted e write allow_all ∨ TakesFault e write ∧ NeedsPage s e ∧ s.free = [])

section Access
variable {s : MemState} {id vaddr : ℕ} {m : ProcessMemory} {e : PageTableEntry} {write allow_all : Bool}

theorem handlePageFault_eq (hm : get? s.spaces id = some m) (he : virtToEntry 2 m.mem vaddr = some e)
    (hv : e.v = true) (hc : e.c = true) :
    handlePageFault s id vaddr =
      if NeedsPage s e ∧ s.free = [] then (false, s) else (true, faulted s id m vaddr e) := by
  have hvc : (e.v && e.c) = true := by rw [hv, hc]; rfl
  unfold handlePageFault
  simp only [hm, he, hvc, if_true]
  by_cases hz : e.paddr = s.zero_page
  · have hneeds : NeedsPage s e := Or.inl hz
    cases hfree : s.free with
    | nil => simp [hz, hneeds]
    | cons page free => simp [hz, hneeds, hfree, faulted, faultPhys, faultFrame]
  · cases hr : hasOtherReferences (pageAddr s.zero_page) s.ref_count (pageAddr e.paddr) with
    | true =>
      have hneeds : NeedsPage s e := Or.inr hr
      cases hfree : s.free with
      | nil => simp [hz, hneeds]
      | cons page free => simp [hz, hneeds, hfree, faulted, faultPhys, faultFrame]
    | false =>
      have hneeds : ¬NeedsPage s e := by simp [NeedsPage, hz, hr]
      simp [hz, hneeds, faulted, faultPhys, faultFrame, MemState.setMem]

theorem faulted_space (id' : ℕ) : get? (faulted s id m vaddr e).spaces id' =
    if id' = id then some { m with mem := setEntry 2 m.mem vaddr (writableCopy e (faultFrame s e)) }
    else get? s.spaces id' := get?_set _ _ _ _

theorem faulted_walk (hw : walk 2 m.mem vaddr = some (0, e)) (va : ℕ) :
    walk 2 (setEntry 2 m.mem vaddr (writableCopy e (faultFrame s e))) va =
      if SamePage 2 va vaddr then some (0, writableCopy e (faultFrame s e)) else walk 2 m.mem va := by
  have hv : (writableCopy e (faultFrame s e)).v = true := (walk_valid hw).1
  exact walk_setEntry hw hv (writableCopy_rwx e _) va

/-- The result of an access to a mapped address. Only pages of level zero are copied on write. -/
theorem virtToPhys_eq {level : ℕ} (hm : get? s.spaces id = some m) (hw : walk 2 m.mem vaddr = some (level, e))
    (hlevel : TakesFault e write → level = 0) :
    virtToPhys s (some id) vaddr write allow_all =
      if TakesFault e write then
        if NeedsPage s e ∧ s.free = [] then (0, s) else (pageAddr (faultFrame s e), faulted s id m vaddr e)
      else if Permitted e write allow_all then (unsafeVirtToPhys 2 m.mem vaddr, s)
      else (0, s) := by
  have he := entry_of_walk hw
  have hv := (walk_valid hw).1
  dsimp only at he hv
  unfold virtToPhys
  simp only [hm, he]
  cases write with
  | false => simp [TakesFault, Permitted]
  | true =>
    cases hew : e.w with
    | true => simp [TakesFault, Permitted, hew]
    | false =>
      cases hec : e.c with
      | false => simp [TakesFault, Permitted, hew, hec]
      | true =>
        have hfault : TakesFault e true := ⟨rfl, hew, hec⟩
        obtain rfl := hlevel hfault
        rw [handlePageFault_eq hm he hv hec, if_pos hfault]
        by_cases hnone : NeedsPage s e ∧ s.free = []
        · simp [hnone]
        · have hread : (get? (faulted s id m vaddr e).spaces id).bind (fun m => virtToEntry 2 m.mem vaddr) =
              some (writableCopy e (faultFrame s e)) := by
            rw [faulted_space, if_pos rfl, Option.bind_some, virtToEntry_eq_walk, faulted_walk hw,
              if_pos (samePage_refl 2 vaddr)]
            rfl
          simp only [hnone, if_false, if_true, hread, Bool.false_eq_true]
          rfl

theorem faultFrame_mem (hpage : NeedsPage s e) (hfree : s.free ≠ []) : faultFrame s e ∈ s.free := by
  obtain ⟨page, free, hs⟩ := List.exists_cons_of_ne_nil hfree
  rw [faultFrame, if_pos hpage, hs]
  exact List.mem_cons_self

theorem faultPhys_of_not_free (hfree : ¬(NeedsPage s e ∧ s.free = [])) {a : ℕ} (ha : a / pageSize ∉ s.free) :
    faultPhys s e a = s.phys a := by
  by_cases hpage : NeedsPage s e
  · have hne : a / pageSize ≠ faultFrame s e := by
      intro heq
      exact ha (heq ▸ faultFrame_mem hpage fun hnil => hfree ⟨hpage, hnil⟩)
    unfold faultPhys zeroPage copyPage
    split_ifs <;> simp [hne]
  · have hz : e.paddr ≠ s.zero_page := fun hz => hpage (Or.inl hz)
    simp [faultPhys, hz, hpage]

/-- The page has the same bytes after the fault, unless it was the zero page and that is not zero. -/
theorem faultPhys_page (k : ℕ) (hk : k < pageSize) : faultPhys s e (pageAddr (faultFrame s e) + k) =
    if e.paddr = s.zero_page then 0 else s.phys (pageAddr e.paddr + k) := by
  have hdiv : ∀ f, (pageAddr f + k) / pageSize = f := by
    intro f
    simp only [pageAddr, pageSize] at *
    omega
  have hmod : ∀ f, (pageAddr f + k) % pageSize = k := by
    intro f
    simp only [pageAddr, pageSize] at *
    omega
  by_cases hz : e.paddr = s.zero_page
  · simp only [faultPhys, hz, if_true, zeroPage, hdiv]
  · simp only [faultPhys, hz, if_false]
    by_cases hpage : NeedsPage s e
    · simp only [hpage, if_true, copyPage, hdiv, hmod]
    · simp only [hpage, if_false, faultFrame]

/-- A fault that is taken keeps the address within the page only for the first byte, and the bytes of the
zero page only while it is zero. -/
def FaultRight (s : MemState) (m : ProcessMemory) (vaddr : ℕ) (write : Bool) : Prop :=
  ∀ e, virtToEntry 2 m.mem vaddr = some e → TakesFault e write → ¬(NeedsPage s e ∧ s.free = []) →
    vaddr % pageSize = 0 ∧ (e.paddr = s.zero_page → ∀ k < pageSize, s.phys (pageAddr s.zero_page + k) = 0)

theorem addressed_without_fault (hm : get? s.spaces id = some m) {r : ℕ}
    (hr : r ≠ 0 → r = unsafeVirtToPhys 2 m.mem vaddr)
    (hzero : r = 0 ↔ virtToEntry 2 m.mem vaddr = none ∨ ∃ e, virtToEntry 2 m.mem vaddr = some e ∧
      (¬Permitted e write allow_all ∨ TakesFault e write ∧ NeedsPage s e ∧ s.free = [])) :
    Addressed s id m vaddr write allow_all (r, s) where
  right h := ⟨m, hm, hr h, fun _ _ => rfl⟩
  others _ m' _ hm' _ := ⟨m', hm', rfl, rfl⟩
  bytes _ _ := rfl
  zero := hzero

theorem faulted_addressed_iff (hm : get? s.spaces id = some m) (hw : walk 2 m.mem vaddr = some (0, e))
    (hfault : TakesFault e write) (hfree : ¬(NeedsPage s e ∧ s.free = [])) (hnull : faultFrame s e ≠ 0) :
    Addressed s id m vaddr write allow_all (pageAddr (faultFrame s e), faulted s id m vaddr e) ↔
      vaddr % pageSize = 0 ∧ (e.paddr = s.zero_page → ∀ k < pageSize, s.phys (pageAddr s.zero_page + k) = 0) := by
  have he := entry_of_walk hw
  have hpos : pageAddr (faultFrame s e) ≠ 0 := by
    simp only [pageAddr, pageSize]
    omega
  have hself : get? (faulted s id m vaddr e).spaces id =
      some { m with mem := setEntry 2 m.mem vaddr (writableCopy e (faultFrame s e)) } := by
    rw [faulted_space, if_pos rfl]
  have hnew : ∀ va, SamePage 2 va vaddr →
      unsafeVirtToPhys 2 (setEntry 2 m.mem vaddr (writableCopy e (faultFrame s e))) va =
        pageAddr (faultFrame s e) + va % pageSize := by
    intro va hva
    rw [unsafeVirtToPhys_eq_walk, faulted_walk hw, if_pos hva]
    exact leafAddr_zero _ _
  have hold : ∀ va, SamePage 2 va vaddr → unsafeVirtToPhys 2 m.mem va = pageAddr e.paddr + va % pageSize := by
    intro va hva
    rw [unsafeVirtToPhys_eq_walk, hva.walk_eq, hw]
    exact leafAddr_zero _ _
  have hmod : ∀ va, va % pageSize < pageSize := fun va => Nat.mod_lt va (by decide)
  constructor
  · intro h
    obtain ⟨m', hm', haddr, hbytes⟩ := h.right hpos
    dsimp only at hm' haddr hbytes
    rw [hself] at hm'
    cases hm'
    rw [hnew vaddr (samePage_refl 2 vaddr)] at haddr
    refine ⟨by omega, fun hz k hk => ?_⟩
    have hva : SamePage 2 (vaddr / pageSize * pageSize + k) vaddr := by
      apply samePage_of_div
      simp only [pageSize] at *
      omega
    have hkmod : (vaddr / pageSize * pageSize + k) % pageSize = k := by
      simp only [pageSize] at *
      omega
    have hbyte := hbytes _ hva
    rw [hnew _ hva, hold _ hva, hkmod, hz] at hbyte
    change faultPhys s e _ = _ at hbyte
    rw [faultPhys_page k hk, if_pos hz] at hbyte
    exact hbyte.symm
  · rintro ⟨haligned, hzeros⟩
    refine ⟨fun _ => ⟨_, hself, ?_, fun va hva => ?_⟩, fun id' m' va hm' hother => ?_, fun a ha => ?_, ?_⟩
    · dsimp only
      rw [hnew vaddr (samePage_refl 2 vaddr), haligned, Nat.add_zero]
    · dsimp only
      rw [hnew va hva, hold va hva]
      change faultPhys s e _ = _
      rw [faultPhys_page _ (hmod va)]
      split_ifs with hz
      · rw [hz, hzeros hz _ (hmod va)]
      · rfl
    · dsimp only
      rw [faulted_space]
      by_cases hid : id' = id
      · subst hid
        rw [hm] at hm'
        cases hm'
        have hva : ¬SamePage 2 va vaddr := fun hva => hother ⟨rfl, hva⟩
        rw [if_pos rfl]
        refine ⟨_, rfl, ?_, ?_⟩
        · rw [virtToEntry_eq_walk, virtToEntry_eq_walk, faulted_walk hw, if_neg hva]
        · rw [unsafeVirtToPhys_eq_walk, unsafeVirtToPhys_eq_walk, faulted_walk hw, if_neg hva]
      · rw [if_neg hid]
        exact ⟨m', hm', rfl, rfl⟩
    · exact faultPhys_of_not_free hfree ha
    · refine ⟨fun h => absurd h hpos, ?_⟩
      rintro (hnone | ⟨e', he', hno⟩)
      · rw [hnone] at he
        cases he
      · rw [he] at he'
        cases he'
        rcases hno with hno | ⟨-, hpage⟩
        · exact absurd (by simp [Permitted, hfault.1, hfault.2.2]) hno
        · exact absurd hpage hfree

/-- `virtToPhys` addresses the right byte of a page of level zero exactly when it does not resolve a
copy-on-write page at an address inside of the page, and a zero page it resolves is still zero. -/
theorem virtToPhys_addressed_iff (hm : get? s.spaces id = some m)
    (hlevel : ∀ p, walk 2 m.mem vaddr = some p → p.1 = 0) (hnull : 0 ∉ s.free)
    (hframe : ∀ e, virtToEntry 2 m.mem vaddr = some e → e.paddr ≠ 0) :
    Addressed s id m vaddr write allow_all (virtToPhys s (some id) vaddr write allow_all) ↔
      FaultRight s m vaddr write := by
  cases hw : walk 2 m.mem vaddr with
  | none =>
    have he : virtToEntry 2 m.mem vaddr = none := by rw [virtToEntry_eq_walk, hw]; rfl
    have hr : virtToPhys s (some id) vaddr write allow_all = (0, s) := by
      unfold virtToPhys
      simp only [hm, he]
    rw [hr]
    refine iff_of_true (addressed_without_fault hm (fun h => absurd rfl h) ?_) ?_
    · simp [he]
    · intro e' he'
      rw [he] at he'
      cases he'
  | some p =>
    obtain ⟨level, e⟩ := p
    obtain rfl : level = 0 := hlevel _ hw
    have he := entry_of_walk hw
    dsimp only at he
    rw [virtToPhys_eq hm hw (fun _ => rfl)]
    by_cases hfault : TakesFault e write
    · rw [if_pos hfault]
      by_cases hnone : NeedsPage s e ∧ s.free = []
      · rw [if_pos hnone]
        refine iff_of_true (addressed_without_fault hm (fun h => absurd rfl h) ?_) ?_
        · simp [he, hfault, hnone]
        · intro e' he' _ hno
          rw [he] at he'
          cases he'
          exact absurd hnone hno
      · rw [if_neg hnone]
        have hnew : faultFrame s e ≠ 0 := by
          by_cases hpage : NeedsPage s e
          · intro hz
            exact hnull (hz ▸ faultFrame_mem hpage fun hnil => hnone ⟨hpage, hnil⟩)
          · rw [faultFrame, if_neg hpage]
            exact hframe e he
        rw [faulted_addressed_iff hm hw hfault hnone hnew]
        constructor
        · intro h e' he' _ _
          rw [he] at he'
          cases he'
          exact h
        · intro h
          exact h e he hfault hnone
    · rw [if_neg hfault]
      have hright : FaultRight s m vaddr write := by
        intro e' he' hfault'
        rw [he] at he'
        cases he'
        exact absurd hfault' hfault
      have hpos : unsafeVirtToPhys 2 m.mem vaddr ≠ 0 := by
        have := hframe e he
        rw [unsafeVirtToPhys_of_walk hw, leafAddr_zero]
        simp only [pageSize]
        omega
      split_ifs with hperm
      · refine iff_of_true (addressed_without_fault hm (fun _ => rfl) ?_) hright
        simp [he, hperm, hfault, hpos]
      · refine iff_of_true (addressed_without_fault hm (fun h => absurd rfl h) ?_) hright
        simp [he, hperm]

end Access

/-- A process with one heap page that it has not written to. -/
def freshHeap : ProcessMemory where
  root := 7
  mem := [(0, .mk { v := true, paddr := 8 } [(0, .mk { v := true, paddr := 9 }
    [(1, .mk { v := true, r := true, u := true, a := true, d := true, c := true, paddr := 6 } [])])])]
  start_brk := 4096
  brk := 8192
  loading := false

def freshMachine : MemState where
  spaces := [(0, freshHeap)]
  ref_count := PageRefTable.empty
  zero_page := 6
  free := [1, 2]
  phys := fun _ => 0

/-- The first byte of the page is written. -/
theorem virtToPhys_first_byte :
    Addressed freshMachine 0 freshHeap 4096 true false (virtToPhys freshMachine (some 0) 4096 true false) := by
  refine (virtToPhys_addressed_iff rfl ?_ (by decide) ?_).mpr ?_
  · intro p hp
    cases hp
    rfl
  · intro e he
    cases he
    decide
  · intro e he _ _
    cases he
    exact ⟨by decide, fun _ _ _ => rfl⟩

/-- The sixth byte of the page is written first: the address of the first one is returned. -/
theorem virtToPhys_sixth_byte :
    ¬Addressed freshMachine 0 freshHeap 4101 true false (virtToPhys freshMachine (some 0) 4101 true false) := by
  intro h
  obtain ⟨m', hm', haddr, -⟩ := h.right (by decide)
  cases hm'
  revert haddr
  decide

end SomeOs.MemSpace
