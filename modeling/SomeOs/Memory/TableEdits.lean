import SomeOs.Memory.TableHeap

/-! # What mapping and unmapping do to a tree of tables

Both functions are described below one table of the tree: which addresses change their leaf,
which pages move between the tree and the free frames, and that no table stays without an
entry in use. The description goes up from a child to its parent.
-/
namespace SomeOs.TableHeap
open Paging NodeTree

variable {m m' m'' : TableMem} {n f g i level vaddr va : ℕ} {e new : PageTableEntry}

section Mapping

/-- What `mapPage` does below a table. -/
structure Mapped (vaddr : ℕ) (new : PageTableEntry) (level : ℕ) (m m' : TableMem) (n f : ℕ) : Prop
    extends Edited m m' n f where
  inside : ∀ va, Covered level n va vaddr → walk m' n f va = some (level, new)
  outside : ∀ va, ¬Covered level n va vaddr → walk m' n f va = walk m n f va
  before : ∀ va, Covered level n va vaddr → ∀ p, walk m n f va = some p → p.1 = level
  branches : ∀ l ≤ n, ∀ va, BranchAt m' l n f va → BranchAt m l n f va ∨ Covered l n va vaddr
  taken : ∃ used, m.free = used ++ m'.free ∧ used.length ≤ n - level
  own : Filled m' f
  kept : ∀ x ∈ tables m' n f, Filled m' x ∨ x ∈ tables m n f ∧ m'.entries x = m.entries x

theorem storeLeaf_mapped (ht : Tidy m n f) (hv : new.v = true) (hx : new.rwx = true)
    (h : storeLeaf m f (vpn n vaddr) new = some m') : Mapped vaddr new n m m' n f := by
  simp only [storeLeaf, Option.ite_none_right_eq_some, Option.some.injEq, Bool.or_eq_true, Bool.not_eq_true'] at h
  obtain ⟨hleaf, rfl⟩ := h
  have hi := vpn_lt n vaddr
  have hed : Edited m (m.store f (vpn n vaddr) new) n f :=
    .store ht hi (branch_of_leaf hleaf) (branch_of_leaf (.inr hx))
  refine ⟨hed, ?_, ?_, ?_, ?_, ⟨[], rfl, Nat.zero_le _⟩, ⟨_, hi, by rw [store_self, hv]⟩, ?_⟩
  · intro va hva
    rw [covered_self] at hva
    rw [walk_leaf, hva, store_self] <;> rw [hva, store_self] <;> assumption
  · intro va hva
    exact walk_store ht hi (by rwa [covered_self] at hva)
  · intro va hva p hp
    rw [covered_self] at hva
    rcases hleaf with hno | hyes
    · rw [walk_invalid (by rw [hva, hno])] at hp
      cases hp
    · cases hval : (m.entries f (vpn n vaddr)).v with
      | false =>
        rw [walk_invalid (by rw [hva, hval])] at hp
        cases hp
      | true =>
        rw [walk_leaf (by rw [hva, hval]) (by rw [hva, hyes])] at hp
        cases hp
        rfl
  · intro l _ va hb
    by_cases hva : vpn n va = vpn n vaddr
    · exact absurd hb (not_branchAt (by rw [hva, store_self, branch_of_leaf (.inr hx)]))
    · cases n with
      | zero =>
        rw [BranchAt, store_slot m f f new hva] at hb
        exact .inl hb
      | succ n => exact .inl ((branchAt_other (store_slotOnly m ht new) ht hi hva).mp hb)
  · intro x hxin
    have hold : x ∈ tables m n f := ((List.perm_append_right_iff _).mp hed.perm).mem_iff.mp hxin
    exact .inr ⟨hold, store_table m _ new (ne_of_mem_below ht.tree hold)⟩

theorem Mapped.up (h : Mapped vaddr new level m m' n g) (ht : Tidy m (n + 1) f) (hl : level ≤ n)
    (hg : branch (m.entries f (vpn (n + 1) vaddr)) = some g) : Mapped vaddr new level m m' (n + 1) f := by
  have hi := vpn_lt (n + 1) vaddr
  have hed := h.toEdited
  have hown := hed.own ht hi hg
  have hslot := hed.slotOnly ht hi hg
  have hg' : branch (m'.entries f (vpn (n + 1) vaddr)) = some g := by rw [hown, hg]
  refine ⟨hed.up ht hi hg, ?_, ?_, ?_, ?_, ?_, ⟨_, hi, by rw [hown, (branch_eq_some.mp hg).1]⟩, ?_⟩
  · intro va hva
    obtain ⟨htop, hva⟩ := (covered_succ (by omega)).mp hva
    rw [walk_branch (by rw [htop, hg'])]
    exact h.inside va hva
  · intro va hva
    by_cases htop : vpn (n + 1) va = vpn (n + 1) vaddr
    · rw [walk_branch (by rw [htop, hg']), walk_branch (by rw [htop, hg])]
      exact h.outside va fun hc => hva ((covered_succ (by omega)).mpr ⟨htop, hc⟩)
    · exact walk_other hslot ht hi htop
  · intro va hva p hp
    obtain ⟨htop, hva⟩ := (covered_succ (by omega)).mp hva
    rw [walk_branch (by rw [htop, hg])] at hp
    exact h.before va hva p hp
  · intro l hln va hb
    by_cases htop : vpn (n + 1) va = vpn (n + 1) vaddr
    · simp only [BranchAt, htop, hown, hg, Option.some.injEq, exists_eq_left'] at hb ⊢
      split_ifs at hb ⊢ with hl'
      · exact .inl hb
      · refine (h.branches l (by omega) va hb).imp_right fun hc => ?_
        exact (covered_succ (by omega)).mpr ⟨htop, hc⟩
    · exact .inl ((branchAt_other hslot ht hi htop).mp hb)
  · obtain ⟨used, hused, hlen⟩ := h.taken
    exact ⟨used, hused, by omega⟩
  · intro x hx
    rcases hslot.mem_cases ht.tree hi hx with hx | hx
    · rw [hang_some hg'] at hx
      rcases List.mem_cons.mp hx with rfl | hx
      · exact .inl h.own
      · refine (h.kept x hx).imp_right fun hold => ⟨?_, hold.2⟩
        exact nodes_subset hi hg (List.mem_cons_of_mem _ hold.1)
    · exact .inr hx

theorem Mapped.grown {p : ℕ} (h : Mapped vaddr new level m' m'' n p) (ht : Tidy m (n + 1) f) (hl : level ≤ n)
    (hgrown : Grown m m' n f (vpn (n + 1) vaddr) p) (hv : (m.entries f (vpn (n + 1) vaddr)).v = false) :
    Mapped vaddr new level m m'' (n + 1) f := by
  have hi := vpn_lt (n + 1) vaddr
  have hup := h.up (hgrown.edited.tidy ht) hl hgrown.slot
  refine ⟨hgrown.edited.trans hup.toEdited, hup.inside, ?_, ?_, ?_, ?_, hup.own, ?_⟩
  · intro va hva
    rw [hup.outside va hva, hgrown.walk ht hi hv]
  · intro va hva q hq
    rw [← hgrown.walk ht hi hv] at hq
    exact hup.before va hva q hq
  · intro l hln va hb
    rcases hup.branches l hln va hb with hb | hc
    · by_cases htop : vpn (n + 1) va = vpn (n + 1) vaddr
      · rcases Nat.lt_or_ge l (n + 1) with hlt | hge
        · simp only [BranchAt, htop, hgrown.slot, if_neg (Nat.not_le.mpr hlt), Option.some.injEq, exists_eq_left'] at hb
          exact absurd hb (not_branchAt (by rw [hgrown.empty]; rfl))
        · rw [show l = n + 1 by omega]
          exact .inr (covered_self.mpr htop)
      · exact .inl ((branchAt_other hgrown.slotOnly ht hi htop).mp hb)
    · exact .inr hc
  · obtain ⟨used, hused, hlen⟩ := h.taken
    exact ⟨p :: used, by rw [hgrown.free, hused, List.cons_append], by rw [List.length_cons]; omega⟩
  · intro x hx
    rcases hup.kept x hx with hx | ⟨hx, hsame⟩
    · exact .inl hx
    · rcases hgrown.slotOnly.mem_cases ht.tree hi hx with hnew | ⟨hold, hsame'⟩
      · rw [hang_some hgrown.slot, nodes, below_of_empty fun j _ => by rw [hgrown.empty]; rfl, List.mem_singleton] at hnew
        rw [hnew]
        exact .inl h.own
      · exact .inr ⟨hold, by rw [hsame, hsame']⟩

theorem mapPageAt_mapped (ht : Tidy m n f) (hl : level ≤ n) (hv : new.v = true) (hx : new.rwx = true)
    (h : mapPageAt vaddr new level n f m = some m') : Mapped vaddr new level m m' n f := by
  induction n generalizing m f with
  | zero =>
    rw [Nat.le_zero.mp hl]
    exact storeLeaf_mapped ht hv hx h
  | succ n ih =>
    simp only [mapPageAt] at h
    split_ifs at h with hn hval hex
    · rw [show level = n + 1 by omega]
      exact storeLeaf_mapped ht hv hx h
    · have hg := branch_of_table hval (by simpa using hex)
      exact (ih (ht.child (vpn_lt _ _) hg) (by omega) h).up ht (by omega) hg
    · have hval : (m.entries f (vpn (n + 1) vaddr)).v = false := by simpa using hval
      obtain ⟨⟨p, m₁⟩, hm₁, hrec⟩ := Option.bind_eq_some_iff.mp h
      have hgrown := createPageTable_grown ht (vpn_lt _ _) (branch_of_leaf (.inl hval)) hm₁
      have htidy := (hgrown.edited.tidy ht).child (vpn_lt _ _) hgrown.slot
      exact (ih htidy (by omega) hrec).grown ht (by omega) hgrown hval

end Mapping

section Unmapping

/-- What `unmapPage` does below a table. The flag is that of `unmapPageAt`. -/
structure Unmapped (vaddr : ℕ) (cleared : Bool) (m m' : TableMem) (n f : ℕ) : Prop extends Edited m m' n f where
  inside : ∀ p, walk m n f vaddr = some p → ∀ va, Covered p.1 n va vaddr → walk m' n f va = none
  outside : ∀ va, (∀ p, walk m n f vaddr = some p → ¬Covered p.1 n va vaddr) → walk m' n f va = walk m n f va
  released : ∃ r, m'.free = r ++ m.free ∧ ∀ x ∈ r, x ∈ tables m n f ∧ ¬Filled m' x
  own : cleared = false → m'.entries f = m.entries f
  kept : ∀ x ∈ tables m' n f, Filled m' x ∨ x ∈ tables m n f ∧ m'.entries x = m.entries x

theorem unmapped_nothing (ht : Tidy m n f) (h : walk m n f vaddr = none) : Unmapped vaddr false m m n f where
  toEdited := .refl ht
  inside p hp := by
    rw [h] at hp
    cases hp
  outside _ _ := rfl
  released := ⟨[], rfl, fun _ hx => (by cases hx)⟩
  own _ := rfl
  kept _ hx := .inr ⟨hx, rfl⟩

theorem unmapped_leaf (ht : Tidy m n f) (hv : (m.entries f (vpn n vaddr)).v = true)
    (hx : (m.entries f (vpn n vaddr)).rwx = true) :
    Unmapped vaddr true m (m.store f (vpn n vaddr) {}) n f := by
  have hi := vpn_lt n vaddr
  have hed : Edited m (m.store f (vpn n vaddr) {}) n f := .store ht hi (branch_of_leaf (.inr hx)) rfl
  have hwalk := walk_leaf hv hx
  refine ⟨hed, ?_, ?_, ⟨[], rfl, fun _ hx => (by cases hx)⟩, fun h => (by cases h), ?_⟩
  · intro p hp va hva
    rw [hwalk, Option.some.injEq] at hp
    rw [← hp, covered_self] at hva
    exact walk_invalid (by rw [hva, store_self])
  · intro va hva
    have hne := hva _ hwalk
    rw [covered_self] at hne
    exact walk_store ht hi hne
  · intro x hxin
    have hold : x ∈ tables m n f := ((List.perm_append_right_iff _).mp hed.perm).mem_iff.mp hxin
    exact .inr ⟨hold, store_table m _ {} (ne_of_mem_below ht.tree hold)⟩

section Branch
variable {cleared : Bool} (h : Unmapped vaddr cleared m m' n g)
  (hg : branch (m.entries f (vpn (n + 1) vaddr)) = some g)
include h hg

theorem Unmapped.outside_up (hva : ∀ p, walk m (n + 1) f vaddr = some p → ¬Covered p.1 (n + 1) va vaddr)
    (htop : vpn (n + 1) va = vpn (n + 1) vaddr) : walk m' n g va = walk m (n + 1) f va := by
  rw [walk_branch (by rw [htop, hg])]
  refine h.outside va fun p hp hc => ?_
  have hlevel := (walk_level hp).1
  rw [← walk_branch hg] at hp
  exact hva p hp ((covered_succ (by omega)).mpr ⟨htop, hc⟩)

variable (ht : Tidy m (n + 1) f)
include ht

/-- The table page under the slot stays in use. -/
theorem Unmapped.up (hstay : Filled m' g ∨ m'.entries g = m.entries g) : Unmapped vaddr false m m' (n + 1) f := by
  have hi := vpn_lt (n + 1) vaddr
  have hed := h.toEdited
  have hown := hed.own ht hi hg
  have hslot := hed.slotOnly ht hi hg
  have hg' : branch (m'.entries f (vpn (n + 1) vaddr)) = some g := by rw [hown, hg]
  refine ⟨hed.up ht hi hg, ?_, ?_, ?_, fun _ => hown, ?_⟩
  · intro p hp va hva
    rw [walk_branch hg] at hp
    have hlevel := (walk_level hp).1
    obtain ⟨htop, hva⟩ := (covered_succ (by omega)).mp hva
    rw [walk_branch (by rw [htop, hg'])]
    exact h.inside p hp va hva
  · intro va hva
    by_cases htop : vpn (n + 1) va = vpn (n + 1) vaddr
    · rw [walk_branch (by rw [htop, hg']), h.outside_up hg hva htop]
    · exact walk_other hslot ht hi htop
  · obtain ⟨r, hr, hin⟩ := h.released
    refine ⟨r, hr, fun x hx => ⟨?_, (hin x hx).2⟩⟩
    exact nodes_subset hi hg (List.mem_cons_of_mem _ (hin x hx).1)
  · intro x hx
    rcases hslot.mem_cases ht.tree hi hx with hx | hx
    · rw [hang_some hg'] at hx
      rcases List.mem_cons.mp hx with rfl | hx
      · exact hstay.imp_right fun hsame => ⟨nodes_subset hi hg List.mem_cons_self, hsame⟩
      · refine (h.kept x hx).imp_right fun hold => ⟨?_, hold.2⟩
        exact nodes_subset hi hg (List.mem_cons_of_mem _ hold.1)
    · exact .inr hx

/-- The table page under the slot has become empty and is given back. -/
theorem Unmapped.release (hempty : ¬Filled m' g) :
    Unmapped vaddr true m ((deallocPage m' g).store f (vpn (n + 1) vaddr) {}) (n + 1) f := by
  have hi := vpn_lt (n + 1) vaddr
  have hed := h.toEdited
  have hown := hed.own ht hi hg
  have hslot := hed.slotOnly ht hi hg
  have hg' : branch (m'.entries f (vpn (n + 1) vaddr)) = some g := by rw [hown, hg]
  have hup := hed.up ht hi hg
  have ht' := hup.tidy ht
  have hzero : ∀ j < pageTableSize, (m'.entries g j).v = false := by
    intro j hj
    by_contra hv
    exact hempty ⟨j, hj, by simpa using hv⟩
  set m₂ := (deallocPage m' g).store f (vpn (n + 1) vaddr) {} with hm₂
  have hrel : Edited m' m₂ (n + 1) f := .release ht' hi hg' hzero
  have hslot' : SlotOnly branch pageTableSize m'.entries m₂.entries n f (vpn (n + 1) vaddr) := store_slotOnly m' ht' {}
  have hkeep : ∀ x ∈ tables m (n + 1) f, m₂.entries x = m'.entries x := fun x hx =>
    store_table m' _ {} (ne_of_mem_below ht.tree hx)
  have hgin : g ∈ tables m (n + 1) f := nodes_subset hi hg List.mem_cons_self
  have hnone : ∀ va, vpn (n + 1) va = vpn (n + 1) vaddr → walk m₂ (n + 1) f va = none := by
    intro va htop
    exact walk_invalid (by rw [htop, hm₂, store_self])
  refine ⟨hup.trans hrel, ?_, ?_, ?_, fun h => (by cases h), ?_⟩
  · intro p hp va hva
    rw [walk_branch hg] at hp
    have hlevel := (walk_level hp).1
    exact hnone va ((covered_succ (by omega)).mp hva).1
  · intro va hva
    by_cases htop : vpn (n + 1) va = vpn (n + 1) vaddr
    · rw [hnone va htop, ← h.outside_up hg hva htop]
      exact (walk_invalid (hzero _ (vpn_lt _ _))).symm
    · rw [walk_other hslot' ht' hi htop, walk_other hslot ht hi htop]
  · obtain ⟨r, hr, hin⟩ := h.released
    refine ⟨g :: r, by rw [hm₂, store_free, deallocPage, hr, List.cons_append], fun x hx => ?_⟩
    have hx : x ∈ tables m (n + 1) f ∧ ¬Filled m' x := by
      rcases List.mem_cons.mp hx with rfl | hx
      · exact ⟨hgin, hempty⟩
      · exact ⟨nodes_subset hi hg (List.mem_cons_of_mem _ (hin x hx).1), (hin x hx).2⟩
    exact ⟨hx.1, fun hfilled => hx.2 (hfilled.congr (hkeep x hx.1).symm)⟩
  · intro x hx
    have hxg : x ≠ g := by
      rintro rfl
      exact (hrel.tidy ht').apart (List.mem_cons_of_mem _ hx) List.mem_cons_self
    rcases hslot'.mem_cases ht'.tree hi hx with hx | ⟨hx, hsame⟩
    · rw [hang_none (by rw [hm₂, store_self]; rfl)] at hx
      cases hx
    · rcases hslot.mem_cases ht.tree hi hx with hx | ⟨hx, hsame'⟩
      · rw [hang_some hg'] at hx
        rcases List.mem_cons.mp hx with hx | hx
        · exact absurd hx hxg
        · rcases h.kept x hx with hfilled | ⟨hold, hsame'⟩
          · exact .inl (hfilled.congr hsame)
          · exact .inr ⟨nodes_subset hi hg (List.mem_cons_of_mem _ hold), by rw [hsame, hsame']⟩
      · exact .inr ⟨hx, by rw [hsame, hsame']⟩

end Branch

theorem tryToFreeTable_eq (m : TableMem) (f : ℕ) : (Filled m f ∧ tryToFreeTable m f = (false, m)) ∨
    (¬Filled m f ∧ tryToFreeTable m f = (true, deallocPage m f)) := by
  have hany : ((List.range pageTableSize).any fun i => (m.entries f i).v) = true ↔ Filled m f := by
    simp only [List.any_eq_true, List.mem_range, Filled]
  by_cases h : Filled m f
  · exact .inl ⟨h, if_pos (hany.mpr h)⟩
  · exact .inr ⟨h, if_neg fun hc => h (hany.mp hc)⟩

/-- `unmapPage` never meets a branch of level zero and removes the page of the address only. -/
theorem unmapPageAt_unmapped (vaddr : ℕ) (ht : Tidy m n f) :
    ∃ cleared m', unmapPageAt vaddr n f m = some (cleared, m') ∧ Unmapped vaddr cleared m m' n f := by
  induction n generalizing m f with
  | zero =>
    simp only [unmapPageAt]
    split_ifs with hv hx
    · exact ⟨_, _, rfl, unmapped_leaf ht hv hx⟩
    · have hnone := ht.bounded _ (vpn_lt 0 vaddr)
      rw [branch_of_table hv (by simpa using hx)] at hnone
      cases hnone
    · exact ⟨_, _, rfl, unmapped_nothing ht (walk_invalid (by simpa using hv))⟩
  | succ n ih =>
    simp only [unmapPageAt]
    split_ifs with hv hx
    · exact ⟨_, _, rfl, unmapped_leaf ht hv hx⟩
    · have hg := branch_of_table hv (by simpa using hx)
      obtain ⟨cleared, m₁, hm₁, h⟩ := ih (ht.child (vpn_lt _ _) hg)
      rw [hm₁]
      cases cleared with
      | false => exact ⟨_, _, rfl, h.up hg ht (.inr (h.own rfl))⟩
      | true =>
        rcases tryToFreeTable_eq m₁ (m.entries f (vpn (n + 1) vaddr)).paddr with ⟨hfilled, hfree⟩ | ⟨hempty, hfree⟩
        · simp only [hfree]
          exact ⟨_, _, rfl, h.up hg ht (.inl hfilled)⟩
        · simp only [hfree]
          exact ⟨_, _, rfl, h.release hg ht hempty⟩
    · exact ⟨_, _, rfl, unmapped_nothing ht (walk_invalid (by simpa using hv))⟩

end Unmapping

section Again

theorem mapPageAt_again (h : walk m n f vaddr = some (level, new)) : mapPageAt vaddr new level n f m = some m := by
  have hsame : ∀ f i, m.store f i (m.entries f i) = m := by
    intro f i
    simp only [TableMem.store]
    congr 1
    funext g j
    split_ifs with hc
    · rw [hc.1, hc.2]
    · rfl
  induction n generalizing f with
  | zero =>
    simp only [walk_zero, Option.ite_none_right_eq_some, Option.some.injEq, Prod.mk.injEq, Bool.and_eq_true] at h
    obtain ⟨⟨-, hx⟩, -, rfl⟩ := h
    simp only [mapPageAt, storeLeaf, hx, Bool.or_true, if_true, hsame]
  | succ n ih =>
    have hlevel := (walk_level h).1
    simp only [walk_succ] at h
    simp only [mapPageAt]
    split_ifs at h with hv hx
    · simp only [Option.some.injEq, Prod.mk.injEq] at h
      obtain ⟨rfl, rfl⟩ := h
      rw [if_pos le_rfl]
      simp only [storeLeaf, hx, Bool.or_true, if_true, hsame]
    · have hlow := (walk_level h).1
      rw [if_neg (by simp only at hlow; omega), if_pos hv, if_neg hx]
      exact ih h

theorem unmapPageAt_again (hb : Bounded branch pageTableSize m.entries n f) (h : walk m n f vaddr = none) :
    unmapPageAt vaddr n f m = some (false, m) := by
  induction n generalizing f with
  | zero =>
    have hnone := hb _ (vpn_lt 0 vaddr)
    cases hv : (m.entries f (vpn 0 vaddr)).v with
    | false => simp [unmapPageAt, hv]
    | true =>
      cases hx : (m.entries f (vpn 0 vaddr)).rwx with
      | false =>
        rw [branch_of_table hv hx] at hnone
        cases hnone
      | true =>
        rw [walk_leaf hv hx] at h
        cases h
  | succ n ih =>
    simp only [walk_succ] at h
    simp only [unmapPageAt]
    split_ifs at h with hv hx
    · rw [if_pos hv, if_neg hx, ih (hb _ (vpn_lt _ _) _ (branch_of_table hv (by simpa using hx))) h]
    · rw [if_neg hv]

end Again

section Room

/-- The address with the upper part of one and the part below a level of another. -/
def joinAt (level hi lo : ℕ) : ℕ := hi / 2 ^ (12 + 9 * level) * 2 ^ (12 + 9 * level) + lo % 2 ^ (12 + 9 * level)

theorem vpn_joinAt_high (l hi lo : ℕ) (h : level ≤ l) : vpn l (joinAt level hi lo) = vpn l hi := by
  have hpow : 2 ^ (12 + 9 * l) = 2 ^ (12 + 9 * level) * 2 ^ (9 * (l - level)) := by
    rw [← Nat.pow_add]
    congr 1
    omega
  have hpos : 0 < 2 ^ (12 + 9 * level) := by positivity
  rw [vpn, vpn, hpow, ← Nat.div_div_eq_div_mul, ← Nat.div_div_eq_div_mul, joinAt, Nat.mul_comm, Nat.mul_add_div hpos,
    Nat.div_eq_of_lt (Nat.mod_lt _ hpos), Nat.add_zero]

theorem vpn_joinAt_low (l hi lo : ℕ) (h : l < level) : vpn l (joinAt level hi lo) = vpn l lo := by
  have hpow : 2 ^ (12 + 9 * level) = 2 ^ (12 + 9 * l) * (512 * 2 ^ (9 * (level - l - 1))) := by
    rw [show 512 = 2 ^ 9 by norm_num, ← Nat.pow_add, ← Nat.pow_add]
    congr 1
    omega
  have hpos : 0 < 2 ^ (12 + 9 * l) := by positivity
  rw [vpn, vpn, joinAt, hpow]
  generalize 2 ^ (9 * (level - l - 1)) = q
  rw [Nat.mul_comm, Nat.mul_assoc, Nat.mul_add_div hpos, Nat.mod_mul_right_div_self, Nat.mul_assoc, Nat.mul_add_mod,
    Nat.mod_mul_right_mod]

theorem vpn_joinAt_index (n lo : ℕ) (hi : i < pageTableSize) : vpn n (joinAt n (i * 2 ^ (12 + 9 * n)) lo) = i := by
  rw [pageTableSize] at hi
  rw [vpn_joinAt_high _ _ _ le_rfl, vpn, Nat.mul_div_cancel _ (by positivity)]
  exact Nat.mod_eq_of_lt hi

theorem walk_vpn (h : ∀ l ≤ n, vpn l va = vpn l vaddr) : walk m n f va = walk m n f vaddr := by
  induction n generalizing f with
  | zero => simp only [walk_zero, h 0 le_rfl]
  | succ n ih =>
    simp only [walk_succ, h (n + 1) le_rfl]
    rw [ih fun l hl => h l (by omega)]

/-- A tree without empty tables translates some address. -/
theorem exists_leaf (hb : Bounded branch pageTableSize m.entries n f) (hf : Filled m f)
    (hfilled : ∀ x ∈ tables m n f, Filled m x) : ∃ va p, walk m n f va = some p := by
  induction n generalizing f with
  | zero =>
    obtain ⟨i, hi, hv⟩ := hf
    have hvpn := vpn_joinAt_index 0 0 hi
    have hx : (m.entries f i).rwx = true := by
      by_contra hx
      have hnone := hb i hi
      rw [branch_of_table hv (by simpa using hx)] at hnone
      cases hnone
    exact ⟨_, _, walk_leaf (by rw [hvpn, hv]) (by rw [hvpn, hx])⟩
  | succ n ih =>
    obtain ⟨i, hi, hv⟩ := hf
    have hvpn := fun lo => vpn_joinAt_index (n + 1) lo hi
    cases hx : (m.entries f i).rwx with
    | true => exact ⟨_, _, walk_leaf (by rw [hvpn 0, hv]) (by rw [hvpn 0, hx])⟩
    | false =>
      have hg := branch_of_table hv hx
      have hsub := nodes_subset (n := n) hi hg
      obtain ⟨lo, p, hp⟩ := ih (hb i hi _ hg) (hfilled _ (hsub List.mem_cons_self))
        fun x hx => hfilled x (hsub (List.mem_cons_of_mem _ hx))
      refine ⟨joinAt (n + 1) (i * 2 ^ (12 + 9 * (n + 1))) lo, p, ?_⟩
      rw [walk_branch (by rw [hvpn lo, hg]), ← hp]
      exact walk_vpn fun l hl => vpn_joinAt_low l _ _ (by omega)

/-- Under a branch of a tree without empty tables there is a leaf of a lower level. -/
theorem exists_leaf_of_branch (ht : Tidy m n f) (hl : level ≤ n) (hfilled : ∀ x ∈ tables m n f, Filled m x)
    (h : BranchAt m level n f vaddr) : ∃ va p, Covered level n va vaddr ∧ walk m n f va = some p ∧ p.1 < level := by
  have hi := vpn_lt n vaddr
  induction n generalizing f with
  | zero => exact absurd (ht.bounded _ hi) h
  | succ n ih =>
    have htop : ∀ lo, vpn (n + 1) (joinAt (n + 1) vaddr lo) = vpn (n + 1) vaddr := fun lo => vpn_joinAt_high _ _ _ le_rfl
    have hlow : ∀ lo, ∀ l ≤ n, vpn l (joinAt (n + 1) vaddr lo) = vpn l lo := fun lo l hl =>
      vpn_joinAt_low l _ _ (by omega)
    have hwalk : ∀ g lo, branch (m.entries f (vpn (n + 1) vaddr)) = some g →
        walk m (n + 1) f (joinAt (n + 1) vaddr lo) = walk m n g lo := by
      intro g lo hg
      rw [walk_branch (by rw [htop, hg]), walk_vpn (hlow lo)]
    simp only [BranchAt] at h
    split_ifs at h with hn
    · obtain ⟨g, hg⟩ := Option.ne_none_iff_exists'.mp h
      have hsub := nodes_subset (n := n) hi hg
      obtain ⟨lo, p, hp⟩ := exists_leaf (ht.child hi hg).bounded (hfilled _ (hsub List.mem_cons_self))
        fun x hx => hfilled x (hsub (List.mem_cons_of_mem _ hx))
      have hlev : level = n + 1 := by omega
      subst hlev
      refine ⟨_, p, covered_self.mpr (htop lo), by rw [hwalk g lo hg, hp], ?_⟩
      have := (walk_level hp).1
      omega
    · obtain ⟨g, hg, hb⟩ := h
      have hsub := nodes_subset (n := n) hi hg
      obtain ⟨lo, p, hc, hp, hlt⟩ := ih (ht.child hi hg) (by omega)
        (fun x hx => hfilled x (hsub (List.mem_cons_of_mem _ hx))) hb (vpn_lt _ _)
      refine ⟨joinAt (n + 1) vaddr lo, p, (covered_succ (by omega)).mpr ⟨htop lo, fun l hl hln => ?_⟩, ?_, hlt⟩
      · rw [hlow lo l hln, hc l hl hln]
      · rw [hwalk g lo hg, hp]

theorem storeLeaf_isSome (new : PageTableEntry) (h : branch (m.entries f i) = none) : ∃ m', storeLeaf m f i new = some m' := by
  refine ⟨_, if_pos ?_⟩
  by_contra hno
  simp only [Bool.or_eq_true, Bool.not_eq_true', not_or, Bool.not_eq_false, Bool.not_eq_true] at hno
  rw [branch_of_table hno.1 hno.2] at h
  cases h

/-- `mapPage` returns when no leaf is above its entry, which is no branch, and pages are left. -/
theorem mapPageAt_isSome (ht : Tidy m n f) (hl : level ≤ n) (hroom : n - level ≤ m.free.length)
    (hleaf : ∀ p, walk m n f vaddr = some p → p.1 ≤ level) (hbranch : ¬BranchAt m level n f vaddr) :
    ∃ m', mapPageAt vaddr new level n f m = some m' := by
  induction n generalizing m f with
  | zero => exact storeLeaf_isSome new (not_not.mp hbranch)
  | succ n ih =>
    have hi := vpn_lt (n + 1) vaddr
    simp only [BranchAt] at hbranch
    simp only [mapPageAt]
    split_ifs with hn hval hex
    · rw [if_pos hn, not_not] at hbranch
      exact storeLeaf_isSome new hbranch
    · have hself := hleaf _ (walk_leaf hval hex)
      simp only at hself
      omega
    · have hg := branch_of_table hval (by simpa using hex)
      rw [if_neg hn] at hbranch
      rw [walk_branch hg] at hleaf
      exact ih (ht.child hi hg) (by omega) (by omega) hleaf fun hb => hbranch ⟨_, hg, hb⟩
    · have hval : (m.entries f (vpn (n + 1) vaddr)).v = false := by simpa using hval
      obtain ⟨p, m₁, hm₁⟩ : ∃ p m₁, createPageTable m = some (p, m₁) := by
        cases hfree : m.free with
        | nil =>
          rw [hfree, List.length_nil] at hroom
          omega
        | cons p free =>
          simp only [createPageTable, hfree]
          exact ⟨_, _, rfl⟩
      have hgrown := createPageTable_grown ht hi (branch_of_leaf (.inl hval)) hm₁
      rw [hm₁, Option.bind_some]
      refine ih ((hgrown.edited.tidy ht).child hi hgrown.slot) (by omega) ?_ ?_ ?_
      · rw [hgrown.free, List.length_cons] at hroom
        simp only
        omega
      · intro q hq
        rw [walk_invalid (by rw [hgrown.empty])] at hq
        cases hq
      · exact not_branchAt (by rw [hgrown.empty]; rfl)

end Room

end SomeOs.TableHeap
