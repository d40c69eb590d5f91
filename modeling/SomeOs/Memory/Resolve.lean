import SomeOs.Memory.Translate

/-! # Resolving copy-on-write pages

Faults that are taken for one memory space one after the other. The leaves that took a fault
have a frame of their own, every other leaf is as before, and all bytes that could be read
before read the same.
-/
namespace SomeOs.Paging

theorem leafAddr_add (p : ℕ × PageTableEntry) {va k : ℕ} (h : (va + k) / pageSize = va / pageSize) :
    leafAddr p (va + k) = leafAddr p va + k := by
  have hmod : (va + k) % pageSize = va % pageSize + k := by
    have h1 := Nat.div_add_mod' (va + k) pageSize
    have h2 := Nat.div_add_mod' va pageSize
    rw [h] at h1
    omega
  simp only [leafAddr, Nat.mod_mul, h, hmod]
  omega

theorem leafAddr_lt {p : ℕ × PageTableEntry} {va : ℕ} (hlevel : p.1 ≤ 2) (hp : p.2.paddr < 2 ^ 44) : leafAddr p va < 2 ^ 57 := by
  have hpow : 2 ^ (9 * p.1) ≤ 2 ^ 18 := Nat.pow_le_pow_right (by decide) (by omega)
  have hsize : pageSize * 2 ^ (9 * p.1) ≤ pageSize * 2 ^ 18 := Nat.mul_le_mul_left _ hpow
  have hpos : 0 < pageSize * 2 ^ (9 * p.1) := by positivity
  have hbase := Nat.div_mul_le_self (p.2.paddr * pageSize) (pageSize * 2 ^ (9 * p.1))
  have hoff := Nat.mod_lt va hpos
  unfold leafAddr
  simp only [pageSize] at *
  omega

theorem walk_level {n va : ℕ} {table : PageTable} {p : ℕ × PageTableEntry} (h : walk n table va = some p) : p.1 ≤ n := by
  induction n generalizing table with
  | zero =>
    simp only [walk] at h
    split at h
    · split_ifs at h
      cases h
      exact le_refl 0
    · cases h
  | succ n ih =>
    simp only [walk] at h
    split at h
    · split_ifs at h
      · cases h
        exact le_refl _
      · exact (ih h).trans (Nat.le_succ n)
    · cases h

end SomeOs.Paging

namespace SomeOs.MemSpace
open SparseArray PageRef Paging

namespace MemState

def walk (s : MemState) (id va : ℕ) : Option (ℕ × PageTableEntry) := (get? s.spaces id).bind fun m => Paging.walk 2 m.mem va

def place (s : MemState) (id va : ℕ) : ℕ := ((s.walk id va).map (leafAddr · va)).getD 0

/-- The state after the fault of the leaf `e`. -/
def fault (s : MemState) (id va : ℕ) (e : PageTableEntry) : MemState :=
  match get? s.spaces id with
  | some m => faulted s id m va e
  | none => s

end MemState

/-- The leaves and the free frames are such as the kernel makes. -/
structure Sane (s : MemState) : Prop where
  /-- Only pages of level zero are copied on write. -/
  small : ∀ id va p, s.walk id va = some p → p.2.c = true → p.1 = 0
  /-- The field has 44 bits. -/
  narrow : ∀ id va p, s.walk id va = some p → p.2.paddr < 2 ^ 44
  free_narrow : ∀ f ∈ s.free, f < 2 ^ 44
  /-- There is no memory at the null pointer. -/
  null : ∀ id va p, s.walk id va = some p → pageSize ≤ leafAddr p va
  free_null : 0 ∉ s.free

section Walk
variable {s t : MemState} {id id' va va' : ℕ} {e : PageTableEntry} {p : ℕ × PageTableEntry} {write allow_all : Bool}

theorem place_of_walk (h : s.walk id va = some p) : s.place id va = leafAddr p va := by
  rw [MemState.place, h]
  rfl

theorem place_eq_unsafe {m : ProcessMemory} (hm : get? s.spaces id = some m) :
    s.place id va = unsafeVirtToPhys 2 m.mem va := by
  rw [unsafeVirtToPhys_eq_walk, MemState.place, MemState.walk, hm]
  rfl

theorem walk_samePage (h : SamePage 2 va va') : s.walk id va = s.walk id va' := by
  unfold MemState.walk
  congr 1
  funext m
  exact h.walk_eq m.mem

/-- The result of an access. Only pages of level zero are copied on write. -/
theorem virtToPhys_of_small (hsmall : ∀ p, s.walk id va = some p → TakesFault p.2 write → p.1 = 0) :
    virtToPhys s (some id) va write allow_all =
    match s.walk id va with
    | none => (0, s)
    | some p =>
      if TakesFault p.2 write then
        if NeedsPage s p.2 ∧ s.free = [] then (0, s) else (pageAddr (faultFrame s p.2), s.fault id va p.2)
      else if Permitted p.2 write allow_all then (leafAddr p va, s)
      else (0, s) := by
  cases hm : get? s.spaces id with
  | none =>
    have hw : s.walk id va = none := by rw [MemState.walk, hm]; rfl
    simp only [virtToPhys, hm, hw]
  | some m =>
    have hwalk : s.walk id va = Paging.walk 2 m.mem va := by rw [MemState.walk, hm]; rfl
    cases hw : Paging.walk 2 m.mem va with
    | none =>
      have he : virtToEntry 2 m.mem va = none := by rw [virtToEntry_eq_walk, hw]; rfl
      rw [hwalk, hw]
      simp only [virtToPhys, hm, he]
    | some p =>
      obtain ⟨level, e⟩ := p
      rw [hw] at hwalk
      rw [hwalk, virtToPhys_eq hm hw (hsmall _ hwalk), unsafeVirtToPhys_of_walk hw]
      simp only [MemState.fault, hm]

theorem virtToPhys_walk (hs : Sane s) : virtToPhys s (some id) va write allow_all =
    match s.walk id va with
    | none => (0, s)
    | some p =>
      if TakesFault p.2 write then
        if NeedsPage s p.2 ∧ s.free = [] then (0, s) else (pageAddr (faultFrame s p.2), s.fault id va p.2)
      else if Permitted p.2 write allow_all then (leafAddr p va, s)
      else (0, s) :=
  virtToPhys_of_small fun p hw hfault => hs.small id va p hw hfault.2.2

theorem fault_walk (hw : s.walk id va = some (0, e)) (id' va' : ℕ) : (s.fault id va e).walk id' va' =
    if id' = id ∧ SamePage 2 va' va then some (0, writableCopy e (faultFrame s e)) else s.walk id' va' := by
  cases hm : get? s.spaces id with
  | none =>
    rw [MemState.walk, hm] at hw
    cases hw
  | some m =>
    rw [MemState.walk, hm] at hw
    have hfault : s.fault id va e = faulted s id m va e := by simp only [MemState.fault, hm]
    rw [hfault, MemState.walk, faulted_space]
    by_cases hid : id' = id
    · subst hid
      rw [if_pos rfl, Option.bind_some, faulted_walk hw, MemState.walk, hm]
      simp
    · rw [if_neg hid, if_neg (fun h => hid h.1)]
      rfl

theorem fault_fields (hw : s.walk id va = some p) : (s.fault id va e).ref_count = s.ref_count ∧
    (s.fault id va e).zero_page = s.zero_page ∧
    (s.fault id va e).free = (if NeedsPage s e then s.free.tail else s.free) ∧
    (s.fault id va e).phys = faultPhys s e := by
  cases hm : get? s.spaces id with
  | none =>
    rw [MemState.walk, hm] at hw
    cases hw
  | some m =>
    have hfault : s.fault id va e = faulted s id m va e := by simp only [MemState.fault, hm]
    rw [hfault]
    exact ⟨rfl, rfl, rfl, rfl⟩

end Walk

/-- The leaf took a fault and has the frame `f`. -/
structure Moved (s t : MemState) (id va : ℕ) (e : PageTableEntry) (f : ℕ) : Prop where
  before : s.walk id va = some (0, e)
  takes : TakesFault e true
  after : t.walk id va = some (0, writableCopy e f)

structure Resolved (id : ℕ) (s t : MemState) : Prop where
  ref_count : t.ref_count = s.ref_count
  zero_page : t.zero_page = s.zero_page
  free : t.free <:+ s.free
  leaf : ∀ id' va, t.walk id' va = s.walk id' va ∨ id' = id ∧ ∃ e f, Moved s t id va e f ∧
    if NeedsPage s e then f ∈ s.free ∧ f ∉ t.free else f = e.paddr
  fresh : ∀ va va' e e' f, Moved s t id va e f → Moved s t id va' e' f → NeedsPage s e → NeedsPage s e' → SamePage 2 va va'
  phys : ∀ a, a / pageSize ∉ s.free → t.phys a = s.phys a
  bytes : ∀ id' va p, s.walk id' va = some p → leafAddr p va / pageSize ∉ s.free →
    t.phys (t.place id' va) = s.phys (s.place id' va)

structure ZeroPage (s : MemState) : Prop where
  nodup : s.free.Nodup
  used : s.zero_page ∉ s.free
  zero : ∀ k < pageSize, s.phys (pageAddr s.zero_page + k) = 0

section Resolve
variable {s t : MemState} {id va : ℕ} {e : PageTableEntry}

theorem Moved.changed {f : ℕ} (h : Moved s t id va e f) : t.walk id va ≠ s.walk id va := by
  intro heq
  rw [h.after, h.before] at heq
  have hw := congrArg (Option.map fun p : ℕ × PageTableEntry => p.2.w) heq
  simp [writableCopy, h.takes.2.1] at hw

theorem Resolved.refl (id : ℕ) (s : MemState) : Resolved id s s where
  ref_count := rfl
  zero_page := rfl
  free := List.suffix_rfl
  leaf _ _ := Or.inl rfl
  fresh _ _ _ _ _ h := absurd rfl h.changed
  phys _ _ := rfl
  bytes _ _ _ _ _ := rfl

theorem Resolved.needsPage (h : Resolved id s t) (e : PageTableEntry) : NeedsPage t e ↔ NeedsPage s e := by
  unfold NeedsPage
  rw [h.ref_count, h.zero_page]

/-- The frame of a leaf with memory in use is not free. -/
theorem Resolved.place_not_free (h : Resolved id s t) {id' : ℕ} {p : ℕ × PageTableEntry} (hw : s.walk id' va = some p)
    (hlive : leafAddr p va / pageSize ∉ s.free) : t.place id' va / pageSize ∉ t.free := by
  rcases h.leaf id' va with hsame | ⟨rfl, e, f, hmoved, hframe⟩
  · rw [MemState.place, hsame, hw]
    exact fun hin => hlive (h.free.subset hin)
  · rw [place_of_walk hmoved.after, leafAddr_zero]
    have hdiv : ((writableCopy e f).paddr * pageSize + va % pageSize) / pageSize = f := by
      show (f * pageSize + va % pageSize) / pageSize = f
      simp only [pageSize]
      omega
    rw [hdiv]
    split_ifs at hframe with hneeds
    · exact hframe.2
    · rw [hmoved.before] at hw
      cases hw
      rw [leafAddr_zero] at hlive
      subst hframe
      intro hin
      apply hlive
      have hpage : (e.paddr * pageSize + va % pageSize) / pageSize = e.paddr := hdiv
      rw [hpage]
      exact h.free.subset hin

theorem Resolved.unmoved (h : Resolved id s t) (hw : t.walk id va = some (0, e)) (hfault : TakesFault e true) :
    s.walk id va = some (0, e) := by
  rcases h.leaf id va with hsame | ⟨-, e', f, hmoved, -⟩
  · rw [← hsame, hw]
  · rw [hmoved.after] at hw
    cases hw
    exact absurd hfault.2.1 (by simp [writableCopy])

theorem Resolved.fault (hs : ZeroPage s) (h : Resolved id s t) (hw : t.walk id va = some (0, e))
    (hfault : TakesFault e true) (hfree : ¬(NeedsPage t e ∧ t.free = [])) : Resolved id s (t.fault id va e) := by
  have hws := h.unmoved hw hfault
  have hneeds := h.needsPage e
  obtain ⟨href, hzero, hfree', hphys⟩ := @fault_fields t id va e _ hw
  have hsuffix : (t.fault id va e).free <:+ t.free := by
    rw [hfree']
    split_ifs
    · exact List.tail_suffix t.free
    · exact List.suffix_rfl
  have hnodup := hs.nodup.sublist h.free.sublist
  have hkeep : ∀ a, a / pageSize ∉ t.free → (t.fault id va e).phys a = t.phys a := by
    intro a ha
    rw [hphys]
    exact faultPhys_of_not_free hfree ha
  have hother : ∀ {va' : ℕ}, ¬SamePage 2 va' va → (t.fault id va e).walk id va' = t.walk id va' := by
    intro va' hva
    rw [fault_walk hw, if_neg fun h => hva h.2]
  have hself : ∀ {va' : ℕ}, SamePage 2 va' va → (t.fault id va e).walk id va' = some (0, writableCopy e (faultFrame t e)) := by
    intro va' hva
    rw [fault_walk hw, if_pos ⟨rfl, hva⟩]
  -- A frame that is taken now was free and is not free any more.
  have hnew : NeedsPage s e → faultFrame t e ∈ t.free ∧ faultFrame t e ∉ (t.fault id va e).free := by
    intro hn
    have hn' := hneeds.mpr hn
    obtain ⟨page, rest, hrest⟩ := List.exists_cons_of_ne_nil fun hnil => hfree ⟨hn', hnil⟩
    rw [hfree', if_pos hn', faultFrame, if_pos hn', hrest]
    rw [hrest] at hnodup
    exact ⟨List.mem_cons_self, (List.nodup_cons.mp hnodup).1⟩
  refine ⟨href.trans h.ref_count, hzero.trans h.zero_page, hsuffix.trans h.free, ?_, ?_, ?_, ?_⟩
  · intro id' va'
    by_cases hid : id' = id
    · subst hid
      by_cases hva : SamePage 2 va' va
      · refine Or.inr ⟨rfl, e, faultFrame t e, ⟨?_, hfault, hself hva⟩, ?_⟩
        · rw [walk_samePage hva, hws]
        · split_ifs with hn
          · exact ⟨h.free.subset (hnew hn).1, (hnew hn).2⟩
          · rw [faultFrame, if_neg fun hn' => hn (hneeds.mp hn')]
      · rcases h.leaf id' va' with hsame | ⟨-, e', f, hmoved, hframe⟩
        · exact Or.inl ((hother hva).trans hsame)
        · refine Or.inr ⟨rfl, e', f, ⟨hmoved.before, hmoved.takes, (hother hva).trans hmoved.after⟩, ?_⟩
          split_ifs at hframe ⊢
          · exact ⟨hframe.1, fun hin => hframe.2 (hsuffix.subset hin)⟩
          · exact hframe
    · rcases h.leaf id' va' with hsame | ⟨hid', -⟩
      · left
        rw [fault_walk hw, if_neg fun h => hid h.1, hsame]
      · exact absurd hid' hid
  · intro v v' e₁ e₂ f h1 h2 hn1 hn2
    -- The new frame is not one of those taken before.
    have hold : ∀ {v : ℕ} {e₁ : PageTableEntry}, ¬SamePage 2 v va → Moved s (t.fault id va e) id v e₁ f → NeedsPage s e₁ →
        Moved s t id v e₁ f ∧ f ∉ t.free := by
      intro v e₁ hv hm hn
      have hafter := (hother hv).symm.trans hm.after
      have hm' : Moved s t id v e₁ f := ⟨hm.before, hm.takes, hafter⟩
      refine ⟨hm', ?_⟩
      rcases h.leaf id v with hsame | ⟨-, e', f', hmoved, hframe⟩
      · exact absurd hsame hm'.changed
      · have hee : e' = e₁ := congrArg Prod.snd (Option.some.inj (hmoved.before.symm.trans hm.before))
        subst hee
        have hff : f' = f := congrArg PageTableEntry.paddr (congrArg Prod.snd (Option.some.inj (hmoved.after.symm.trans hafter)))
        subst hff
        rw [if_pos hn] at hframe
        exact hframe.2
    have hnewf : ∀ {v : ℕ} {e₁ : PageTableEntry}, SamePage 2 v va → Moved s (t.fault id va e) id v e₁ f → NeedsPage s e₁ →
        f ∈ t.free := by
      intro v e₁ hv hm hn
      have hee : e₁ = e := by
        have := hm.before.symm.trans ((walk_samePage hv).trans hws)
        exact congrArg Prod.snd (Option.some.inj this)
      subst hee
      have hff : f = faultFrame t e₁ :=
        congrArg PageTableEntry.paddr (congrArg Prod.snd (Option.some.inj (hm.after.symm.trans (hself hv))))
      rw [hff]
      exact (hnew hn).1
    by_cases hv : SamePage 2 v va
    · by_cases hv' : SamePage 2 v' va
      · exact fun level hl => (hv level hl).trans (hv' level hl).symm
      · exact absurd (hnewf hv h1 hn1) (hold hv' h2 hn2).2
    · by_cases hv' : SamePage 2 v' va
      · exact absurd (hnewf hv' h2 hn2) (hold hv h1 hn1).2
      · exact h.fresh v v' e₁ e₂ f (hold hv h1 hn1).1 (hold hv' h2 hn2).1 hn1 hn2
  · intro a ha
    rw [hkeep a fun hin => ha (h.free.subset hin), h.phys a ha]
  · intro id' va' p hp hlive
    by_cases hpage : id' = id ∧ SamePage 2 va' va
    · obtain ⟨rfl, hva⟩ := hpage
      have hs' : s.walk id' va' = some (0, e) := (walk_samePage hva).trans hws
      have ht' : t.walk id' va' = some (0, e) := (walk_samePage hva).trans hw
      rw [place_of_walk (hself hva), leafAddr_zero, hphys]
      show faultPhys t e (pageAddr (faultFrame t e) + va' % pageSize) = _
      rw [faultPhys_page _ (Nat.mod_lt _ (by decide))]
      split_ifs with hz
      · rw [place_of_walk hs', leafAddr_zero, hz, h.zero_page]
        exact (hs.zero _ (Nat.mod_lt _ (by decide))).symm
      · rw [← h.bytes id' va' p hp hlive, place_of_walk ht', leafAddr_zero]
        rfl
    · have hplace : (t.fault id va e).place id' va' = t.place id' va' := by
        rw [MemState.place, MemState.place, fault_walk hw, if_neg hpage]
      rw [hplace, hkeep _ (h.place_not_free hp hlive), h.bytes id' va' p hp hlive]

end Resolve

end SomeOs.MemSpace
