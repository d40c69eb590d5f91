import SomeOs.Memory.TableRuns

/-! # Mapping a range of addresses

`mapPageRange` cuts a range into pages of three sizes. The cut is a list of aligned pieces that
follow one another, and the calls of `mapPage` run along this list. Addresses are 64 bits wide.
-/
namespace SomeOs.TableHeap
open Paging NodeTree

/-- The loop of `mapPageRangeAtLevel` at offset `i`. -/
def rangeLoop (root from_vaddr total : ℕ) (bits : PageEntryBits) (level : ℕ) : ℕ → ℕ → ℕ → TableMem → Option TableMem
  | 0, _, _, _ => none
  | fuel + 1, i, paddr, m =>
    if i < total then
      (mapPage m root ((from_vaddr + i) % 2 ^ 64) paddr bits level).bind fun m =>
        rangeLoop root from_vaddr total bits level fuel ((i + levelSize level) % 2 ^ 64)
          ((paddr + levelSize level) % 2 ^ 64) m
    else some m

def mapPageRangeAtLevel (fuel root from_vaddr to_vaddr paddr : ℕ) (bits : PageEntryBits) (level : ℕ) (m : TableMem) :
    Option TableMem :=
  rangeLoop root from_vaddr ((to_vaddr + 2 ^ 64 - from_vaddr) % 2 ^ 64) bits level fuel 0 paddr m

/-- `from_vaddr` and `to_vaddr` should be aligned to page boundaries. -/
def tryMapingRangeAtLevel (fuel root : ℕ) (bits : PageEntryBits) : ℕ → ℕ → ℕ → ℕ → TableMem → Option TableMem
  | 0, from_vaddr, to_vaddr, paddr, m =>
    if from_vaddr ≠ to_vaddr then mapPageRangeAtLevel fuel root from_vaddr to_vaddr paddr bits 0 m else some m
  | level + 1, from_vaddr, to_vaddr, paddr, m =>
    if from_vaddr ≠ to_vaddr then
      let size := levelSize (level + 1)
      let start := (from_vaddr + size - 1) % 2 ^ 64 / size * size
      let stop := to_vaddr / size * size
      if start < stop ∧ size < stop - start then
        (tryMapingRangeAtLevel fuel root bits level from_vaddr start paddr m).bind fun m =>
        (mapPageRangeAtLevel fuel root start stop ((paddr + (start + 2 ^ 64 - from_vaddr)) % 2 ^ 64) bits (level + 1) m).bind
          fun m =>
        tryMapingRangeAtLevel fuel root bits level stop to_vaddr ((paddr + (stop + 2 ^ 64 - from_vaddr)) % 2 ^ 64) m
      else tryMapingRangeAtLevel fuel root bits level from_vaddr to_vaddr paddr m
    else some m

def mapPageRange (fuel : ℕ) (m : TableMem) (root from_vaddr to_vaddr paddr : ℕ) (bits : PageEntryBits) :
    Option TableMem :=
  let start := from_vaddr / pageSize * pageSize
  let stop := (to_vaddr + pageSize - 1) % 2 ^ 64 / pageSize * pageSize
  tryMapingRangeAtLevel fuel root bits 2 start stop paddr m

section Cutting

/-- The pieces of one level between two aligned addresses, each with its level. -/
def run (level a b : ℕ) : List (ℕ × ℕ) :=
  (List.range ((b - a) / levelSize level)).map fun k => (a + k * levelSize level, level)

/-- The pieces that a range is cut into. -/
def pieces : ℕ → ℕ → ℕ → List (ℕ × ℕ)
  | 0, a, b => run 0 a b
  | level + 1, a, b =>
    let size := levelSize (level + 1)
    let start := (a + size - 1) / size * size
    let stop := b / size * size
    if start < stop ∧ size < stop - start then pieces level a start ++ run (level + 1) start stop ++ pieces level stop b
    else pieces level a b

/-- Aligned pieces that follow one another from `a` to `b`. -/
inductive Tiles : ℕ → ℕ → List (ℕ × ℕ) → Prop
  | nil (a : ℕ) : Tiles a a []
  | cons {a b level : ℕ} {ps : List (ℕ × ℕ)} (hlevel : level ≤ 2) (hdvd : levelSize level ∣ a)
      (hrest : Tiles (a + levelSize level) b ps) : Tiles a b ((a, level) :: ps)

variable {a b c level : ℕ} {ps qs : List (ℕ × ℕ)}

theorem levelSize_dvd {l : ℕ} (h : l ≤ level) : levelSize l ∣ levelSize level := by
  rw [levelSize, levelSize]
  exact Nat.mul_dvd_mul_left _ (Nat.pow_dvd_pow 2 (by omega))

theorem le_roundUp {size : ℕ} (h : 0 < size) : a ≤ (a + size - 1) / size * size := by
  have hlt := Nat.lt_div_mul_add h (a := a + size - 1)
  omega

theorem Tiles.le (h : Tiles a b ps) : a ≤ b := by
  induction h with
  | nil => exact le_rfl
  | cons _ _ _ ih => omega

theorem Tiles.append (h : Tiles a b ps) (h' : Tiles b c qs) : Tiles a c (ps ++ qs) := by
  induction h with
  | nil => exact h'
  | cons hlevel hdvd _ ih => exact .cons hlevel hdvd (ih h')

theorem Tiles.eq_nil (h : Tiles a a ps) : ps = [] := by
  cases h with
  | nil => rfl
  | @cons _ _ level _ _ _ hrest =>
    have hpos := levelSize_pos level
    have hle := hrest.le
    omega

theorem tiles_run (hl : level ≤ 2) (ha : levelSize level ∣ a) (hb : levelSize level ∣ b) (hab : a ≤ b) :
    Tiles a b (run level a b) := by
  obtain ⟨c, rfl⟩ : ∃ c, b = a + c * levelSize level := by
    obtain ⟨c, hc⟩ := Nat.dvd_sub hb ha
    exact ⟨c, by rw [Nat.mul_comm, ← hc]; omega⟩
  rw [run, Nat.add_sub_cancel_left, Nat.mul_div_cancel _ (levelSize_pos level)]
  clear hb hab
  induction c generalizing a with
  | zero =>
    rw [Nat.zero_mul]
    exact .nil a
  | succ c ih =>
    have hrest := ih (Nat.dvd_add ha dvd_rfl)
    rw [List.range_succ_eq_map, List.map_cons, List.map_map, Nat.zero_mul, Nat.add_zero]
    refine .cons hl ha ?_
    rw [show a + (c + 1) * levelSize level = a + levelSize level + c * levelSize level by ring]
    have hshift : (fun k => (a + k * levelSize level, level)) ∘ Nat.succ =
        fun k => (a + levelSize level + k * levelSize level, level) := by
      funext k
      simp only [Function.comp_apply, Nat.succ_eq_add_one]
      congr 1
      ring
    rw [hshift]
    exact hrest

theorem tiles_pieces (hl : level ≤ 2) (ha : pageSize ∣ a) (hb : pageSize ∣ b) (hab : a ≤ b) :
    Tiles a b (pieces level a b) := by
  induction level generalizing a b with
  | zero =>
    have hsize : levelSize 0 = pageSize := rfl
    exact tiles_run hl (hsize ▸ ha) (hsize ▸ hb) hab
  | succ level ih =>
    simp only [pieces]
    have hpos := levelSize_pos (level + 1)
    have hpage : pageSize ∣ levelSize (level + 1) := Dvd.intro _ rfl
    split_ifs with hc
    · have hup : a ≤ (a + levelSize (level + 1) - 1) / levelSize (level + 1) * levelSize (level + 1) := le_roundUp hpos
      have hdown : b / levelSize (level + 1) * levelSize (level + 1) ≤ b := Nat.div_mul_le_self _ _
      have hstart := Nat.dvd_mul_left (levelSize (level + 1)) ((a + levelSize (level + 1) - 1) / levelSize (level + 1))
      have hstop := Nat.dvd_mul_left (levelSize (level + 1)) (b / levelSize (level + 1))
      have hhead := ih (by omega) ha (hpage.trans hstart) hup
      have htail := ih (by omega) (hpage.trans hstop) hb hdown
      exact (hhead.append (tiles_run hl hstart hstop hc.1.le)).append htail
    · exact ih (by omega) ha hb hab

end Cutting

section Calls
variable {a b c k level fuel root : ℕ} {bits : PageEntryBits} {m m' : TableMem} {ps qs : List (ℕ × ℕ)}

def mapPieces (root : ℕ) (bits : PageEntryBits) (m : TableMem) (ps : List (ℕ × ℕ)) : Option TableMem :=
  ps.foldlM (fun m p => mapPage m root p.1 p.1 bits p.2) m

theorem mapPieces_cons (p : ℕ × ℕ) : mapPieces root bits m (p :: ps) =
    (mapPage m root p.1 p.1 bits p.2).bind fun m => mapPieces root bits m ps := rfl

theorem mapPieces_append : mapPieces root bits m (ps ++ qs) =
    (mapPieces root bits m ps).bind fun m => mapPieces root bits m qs := List.foldlM_append ..

theorem rangeLoop_eq (hfuel : c < fuel) (hend : a + (k + c) * levelSize level < 2 ^ 64) :
    rangeLoop root a ((k + c) * levelSize level) bits level fuel (k * levelSize level) (a + k * levelSize level) m =
      mapPieces root bits m ((List.range c).map fun j => (a + (k + j) * levelSize level, level)) := by
  have hpos := levelSize_pos level
  induction c generalizing k fuel m with
  | zero =>
    obtain ⟨fuel, rfl⟩ : ∃ f, fuel = f + 1 := ⟨fuel - 1, by omega⟩
    rw [rangeLoop, if_neg (by simp)]
    rfl
  | succ c ih =>
    obtain ⟨fuel, rfl⟩ : ∃ f, fuel = f + 1 := ⟨fuel - 1, by omega⟩
    have hnext : (k + 1) * levelSize level = k * levelSize level + levelSize level := Nat.succ_mul ..
    have hend' : (k + (c + 1)) * levelSize level = (k + 1) * levelSize level + c * levelSize level := by ring
    have hshift : (fun j => (a + (k + j) * levelSize level, level)) ∘ Nat.succ =
        fun j => (a + (k + 1 + j) * levelSize level, level) := by
      funext j
      simp only [Function.comp_apply, Nat.succ_eq_add_one]
      congr 1
      ring
    rw [rangeLoop, if_pos (by rw [hend']; omega), List.range_succ_eq_map, List.map_cons, List.map_map, mapPieces_cons,
      Nat.mod_eq_of_lt (by omega), Nat.mod_eq_of_lt (by omega), Nat.mod_eq_of_lt (by omega), ← hnext, Nat.add_assoc,
      ← hnext, hshift, Nat.add_zero, show k + (c + 1) = k + 1 + c by omega]
    congr 1
    funext m₁
    exact ih (by omega) (by rw [show k + 1 + c = k + (c + 1) by omega]; exact hend)

theorem mapPageRangeAtLevel_eq (ha : levelSize level ∣ a) (hb : levelSize level ∣ b) (hab : a ≤ b) (hend : b < 2 ^ 64)
    (hfuel : (b - a) / pageSize < fuel) :
    mapPageRangeAtLevel fuel root a b a bits level m = mapPieces root bits m (run level a b) := by
  have hpos := levelSize_pos level
  obtain ⟨c, rfl⟩ : ∃ c, b = a + c * levelSize level := by
    obtain ⟨c, hc⟩ := Nat.dvd_sub hb ha
    exact ⟨c, by rw [Nat.mul_comm, ← hc]; omega⟩
  have hc : c < fuel := by
    refine lt_of_le_of_lt ?_ hfuel
    rw [Nat.add_sub_cancel_left, Nat.le_div_iff_mul_le (by norm_num)]
    exact Nat.mul_le_mul_left c (Nat.le_mul_of_pos_right _ (by positivity))
  have hloop := @rangeLoop_eq a c 0 level fuel root bits m hc (by simpa using hend)
  simp only [Nat.zero_add, Nat.zero_mul, Nat.add_zero] at hloop
  rw [mapPageRangeAtLevel, run, Nat.add_sub_cancel_left, Nat.mul_div_cancel _ hpos, ← hloop]
  congr 1
  omega

theorem tryMapingRangeAtLevel_eq (hl : level ≤ 2) (ha : pageSize ∣ a) (hb : pageSize ∣ b) (hab : a ≤ b)
    (hend : b ≤ 2 ^ 38) (hfuel : (b - a) / pageSize < fuel) :
    tryMapingRangeAtLevel fuel root bits level a b a m = mapPieces root bits m (pieces level a b) := by
  induction level generalizing a b m with
  | zero =>
    rw [tryMapingRangeAtLevel]
    split_ifs with hne
    · exact mapPageRangeAtLevel_eq ha hb hab (by omega) hfuel
    · rw [not_not.mp hne, (tiles_pieces hl hb hb le_rfl).eq_nil]
      rfl
  | succ level ih =>
    have hpos := levelSize_pos (level + 1)
    have hpage : pageSize ∣ levelSize (level + 1) := Dvd.intro _ rfl
    have hsize : levelSize (level + 1) ≤ 2 ^ 30 := Nat.le_of_dvd (by norm_num) (levelSize_dvd hl)
    simp only [tryMapingRangeAtLevel]
    split_ifs with hne hc
    · rw [Nat.mod_eq_of_lt (by omega)] at hc ⊢
      rw [pieces, if_pos hc, mapPieces_append, mapPieces_append, Option.bind_assoc]
      have hstart := Nat.dvd_mul_left (levelSize (level + 1)) ((a + levelSize (level + 1) - 1) / levelSize (level + 1))
      have hstop := Nat.dvd_mul_left (levelSize (level + 1)) (b / levelSize (level + 1))
      have hup : a ≤ (a + levelSize (level + 1) - 1) / levelSize (level + 1) * levelSize (level + 1) := le_roundUp hpos
      have hdown : b / levelSize (level + 1) * levelSize (level + 1) ≤ b := Nat.div_mul_le_self _ _
      generalize (a + levelSize (level + 1) - 1) / levelSize (level + 1) * levelSize (level + 1) = start at *
      generalize b / levelSize (level + 1) * levelSize (level + 1) = stop at *
      have hfewer : ∀ x y, a ≤ x → y ≤ b → (y - x) / pageSize < fuel := fun x y hx hy =>
        lt_of_le_of_lt (Nat.div_le_div_right (by omega)) hfuel
      rw [ih (by omega) ha (hpage.trans hstart) hup (by omega) (hfewer _ _ le_rfl (by omega)),
        show (a + (start + 2 ^ 64 - a)) % 2 ^ 64 = start by omega, show (a + (stop + 2 ^ 64 - a)) % 2 ^ 64 = stop by omega]
      congr 1
      funext m₁
      rw [mapPageRangeAtLevel_eq hstart hstop hc.1.le (by omega) (hfewer _ _ hup hdown)]
      congr 1
      funext m₂
      exact ih (by omega) (hpage.trans hstop) hb hdown hend (hfewer _ _ (by omega) le_rfl)
    · rw [Nat.mod_eq_of_lt (by omega)] at hc
      rw [pieces, if_neg hc]
      exact ih (by omega) ha hb hab hend hfuel
    · rw [not_not.mp hne, (tiles_pieces hl hb hb le_rfl).eq_nil]
      rfl

end Calls

section Translation
variable {a b va level root : ℕ} {bits : PageEntryBits} {m m' : TableMem} {ps : List (ℕ × ℕ)}

/-- An address, modulo `2^39`, between two others. -/
def Within (a b va : ℕ) : Prop := a ≤ va % 2 ^ 39 ∧ va % 2 ^ 39 < b

theorem levelSize_dvd_space (hl : level ≤ 2) : levelSize level ∣ 2 ^ 39 :=
  (levelSize_dvd hl).trans ⟨512, by norm_num [levelSize]⟩

theorem pageNumber_within (hdvd : levelSize level ∣ a) (hend : a < 2 ^ 39) :
    pageNumber level va = pageNumber level a ↔ Within a (a + levelSize level) va := by
  have hpos := levelSize_pos level
  obtain ⟨q, rfl⟩ := hdvd
  rw [pageNumber, pageNumber, Nat.mod_eq_of_lt hend, Nat.mul_div_cancel_left _ hpos, Nat.div_eq_iff hpos, Within, Nat.mul_comm]
  omega

theorem leafAddress_identity (hl : level ≤ 2) (hdvd : levelSize level ∣ a) (hend : a < 2 ^ 39)
    (h : Within a (a + levelSize level) va) : leafAddress level (leafEntry a bits) va = va % 2 ^ 39 := by
  have hpos := levelSize_pos level
  have hpage : pageSize ∣ a := (Dvd.intro _ rfl : pageSize ∣ levelSize level).trans hdvd
  have hframe : a / pageSize % 2 ^ 44 * pageSize = a := by
    rw [Nat.mod_eq_of_lt (by simp only [pageSize]; omega), Nat.div_mul_cancel hpage]
  have hoff : va % levelSize level = va % 2 ^ 39 - a := by
    rw [← Nat.mod_mod_of_dvd va (levelSize_dvd_space hl)]
    obtain ⟨q, rfl⟩ := hdvd
    rw [Nat.mod_eq_sub_mul_div]
    congr 2
    rw [Nat.div_eq_iff hpos, Nat.mul_comm]
    have := h.1
    have := h.2
    omega
  rw [leafAddress]
  simp only [leafEntry]
  rw [hframe, Nat.mod_eq_of_lt (by omega), Nat.div_mul_cancel hdvd, hoff]
  have := h.1
  omega

/-- The addresses of a range translate to themselves and no others have changed. -/
structure RangeMapped (root : ℕ) (bits : PageEntryBits) (a b : ℕ) (m m' : TableMem) : Prop where
  tidy : Tidy m' 2 root
  inside : ∀ va, Within a b va → ∃ level e, walk m' 2 root va = some (level, e) ∧
    e.toPageEntryBits = { bits with v := true } ∧ leafAddress level e va = va % 2 ^ 39
  outside : ∀ va, ¬Within a b va → walk m' 2 root va = walk m 2 root va

theorem mapPieces_rangeMapped (ht : Tidy m 2 root) (htiles : Tiles a b ps) (hend : b ≤ 2 ^ 38)
    (h : mapPieces root bits m ps = some m') : RangeMapped root bits a b m m' := by
  induction htiles generalizing m with
  | nil a =>
    cases h
    refine ⟨ht, fun va hva => ?_, fun _ _ => rfl⟩
    have := hva.1
    have := hva.2
    omega
  | @cons a b level ps hlevel hdvd hrest ih =>
    rw [mapPieces_cons] at h
    obtain ⟨m₁, hm₁, h⟩ := Option.bind_eq_some_iff.mp h
    have hpos := levelSize_pos level
    have hle := hrest.le
    have hmap := mapPage_mapped ht hlevel hm₁
    have hpiece : ∀ va, Covered level 2 va a ↔ Within a (a + levelSize level) va := by
      intro va
      rw [← pageNumber_eq_iff hlevel]
      exact pageNumber_within hdvd (by omega)
    have hr := ih (hmap.toEdited.tidy ht) hend h
    refine ⟨hr.tidy, fun va hva => ?_, fun va hva => ?_⟩
    · by_cases hin : Within (a + levelSize level) b va
      · exact hr.inside va hin
      · have hva' : Within a (a + levelSize level) va := by
          simp only [Within] at hva hin ⊢
          omega
        refine ⟨level, leafEntry a bits, ?_, rfl, leafAddress_identity hlevel hdvd (by omega) hva'⟩
        rw [hr.outside va hin]
        exact hmap.inside va ((hpiece va).mpr hva')
    · rw [hr.outside va, hmap.outside va]
      · rw [hpiece]
        simp only [Within] at hva ⊢
        omega
      · simp only [Within] at hva ⊢
        omega

theorem Tiles.mem {p : ℕ × ℕ} (h : Tiles a b ps) (hp : p ∈ ps) :
    p.2 ≤ 2 ∧ levelSize p.2 ∣ p.1 ∧ a ≤ p.1 ∧ p.1 + levelSize p.2 ≤ b := by
  induction h with
  | nil => cases hp
  | cons hlevel hdvd hrest ih =>
    rcases List.mem_cons.mp hp with rfl | hp
    · exact ⟨hlevel, hdvd, le_rfl, hrest.le⟩
    · obtain ⟨h₁, h₂, h₃, h₄⟩ := ih hp
      exact ⟨h₁, h₂, by omega, h₄⟩

theorem Tiles.length_le (h : Tiles a b ps) : a + ps.length * pageSize ≤ b := by
  induction h with
  | nil => simp
  | @cons a b level ps _ _ hrest ih =>
    have hsize : pageSize ≤ levelSize level := Nat.le_of_dvd (levelSize_pos level) (Dvd.intro _ rfl)
    have hle := hrest.le
    simp only [List.length_cons, pageSize] at hsize ih ⊢
    omega

/-- With unmapped addresses, free superpage slots and enough pages every call of `mapPage` returns. -/
theorem mapPieces_isSome (ht : Tidy m 2 root) (htiles : Tiles a b ps) (hend : b ≤ 2 ^ 38) (hx : bits.rwx = true)
    (hroom : 2 * ps.length ≤ m.free.length) (hnone : ∀ va, Within a b va → walk m 2 root va = none)
    (hbranch : ∀ p ∈ ps, ¬BranchAt m p.2 2 root p.1) : ∃ m', mapPieces root bits m ps = some m' := by
  induction htiles generalizing m with
  | nil a => exact ⟨m, rfl⟩
  | @cons a b level ps hlevel hdvd hrest ih =>
    have hpos := levelSize_pos level
    have hle := hrest.le
    rw [List.length_cons] at hroom
    have hself : Within a b a := by
      rw [Within, Nat.mod_eq_of_lt (by omega)]
      omega
    obtain ⟨m₁, hm₁⟩ : ∃ m₁, mapPage m root a a bits level = some m₁ := by
      simp only [mapPage, hx, if_true]
      refine mapPageAt_isSome ht hlevel (by omega) (fun p hp => ?_) (hbranch _ List.mem_cons_self)
      rw [hnone a hself] at hp
      cases hp
    have hmap := mapPage_mapped ht hlevel hm₁
    obtain ⟨used, hused, hlen⟩ := hmap.taken
    rw [mapPieces_cons, hm₁, Option.bind_some]
    apply ih (hmap.toEdited.tidy ht) hend
    · rw [hused, List.length_append] at hroom
      omega
    · intro va hva
      rw [hmap.outside va, hnone va]
      · simp only [Within] at hva ⊢
        omega
      · rw [← pageNumber_eq_iff hlevel, pageNumber_within hdvd (by omega)]
        simp only [Within] at hva ⊢
        omega
    · intro p hp hb
      obtain ⟨hl, hp', hlow, hhigh⟩ := hrest.mem hp
      rcases hmap.branches p.2 hl p.1 hb with hold | hcov
      · exact hbranch p (List.mem_cons_of_mem _ hp) hold
      · have hpos' := levelSize_pos p.2
        have hnum := ((pageNumber_eq_iff hl).mpr hcov).symm
        rw [pageNumber_within hp' (by omega), Within, Nat.mod_eq_of_lt (by omega)] at hnum
        omega

end Translation

section Range
variable {m : TableMem} {root from_vaddr to_vaddr : ℕ} {bits : PageEntryBits}

/-- The addresses of a range translate to themselves with the given bits, and all others as before. -/
structure IdentityMapped (root : ℕ) (bits : PageEntryBits) (start stop : ℕ) (m m' : TableMem) : Prop where
  phys : ∀ va, Within start stop va → unsafeVirtToPhys m' root va = va % 2 ^ 39
  bits : ∀ va, Within start stop va →
    (virtToEntry m' root va).map PageTableEntry.toPageEntryBits = some { bits with v := true }
  outside : ∀ va, ¬Within start stop va →
    unsafeVirtToPhys m' root va = unsafeVirtToPhys m root va ∧ virtToEntry m' root va = virtToEntry m root va

def SameTranslation (root : ℕ) (m m' : TableMem) : Prop :=
  ∀ va, unsafeVirtToPhys m root va = unsafeVirtToPhys m' root va ∧
    (virtToEntry m root va).map PageTableEntry.toPageEntryBits = (virtToEntry m' root va).map PageTableEntry.toPageEntryBits

theorem RangeMapped.identity {start stop : ℕ} {m' : TableMem} (h : RangeMapped root bits start stop m m') :
    IdentityMapped root bits start stop m m' := by
  refine ⟨fun va hva => ?_, fun va hva => ?_, fun va hva => ?_⟩
  · obtain ⟨level, e, hw, -, haddr⟩ := h.inside va hva
    rw [unsafeVirtToPhys, unsafeVirtToPhysAt_eq_walk, hw]
    exact haddr
  · obtain ⟨level, e, hw, hbits, -⟩ := h.inside va hva
    rw [virtToEntry, virtToEntryAt_eq_walk, hw]
    exact congrArg some hbits
  · simp only [unsafeVirtToPhys, virtToEntry, unsafeVirtToPhysAt_eq_walk, virtToEntryAt_eq_walk, h.outside va hva, and_self]

theorem IdentityMapped.same {start stop : ℕ} {m₁ m₂ : TableMem} (h₁ : IdentityMapped root bits start stop m m₁)
    (h₂ : IdentityMapped root bits start stop m m₂) : SameTranslation root m₁ m₂ := by
  intro va
  by_cases hva : Within start stop va
  · rw [h₁.phys va hva, h₂.phys va hva, h₁.bits va hva, h₂.bits va hva]
    exact ⟨rfl, rfl⟩
  · rw [(h₁.outside va hva).1, (h₂.outside va hva).1, (h₁.outside va hva).2, (h₂.outside va hva).2]
    exact ⟨rfl, rfl⟩

/-- The pages of the range are not mapped and no superpage inside it has a table in its place. -/
structure Unoccupied (root start stop : ℕ) (m : TableMem) : Prop where
  unmapped : ∀ va, Within start stop va → virtToEntry m root va = none
  no_branch : ∀ level a, level = 1 ∨ level = 2 → levelSize level ∣ a → start ≤ a → a + levelSize level ≤ stop →
    ¬BranchAt m level 2 root a

theorem Unoccupied.isSome {start stop : ℕ} {ps : List (ℕ × ℕ)} (h : Unoccupied root start stop m) (ht : Tidy m 2 root)
    (htiles : Tiles start stop ps) (hend : stop ≤ 2 ^ 38) (hx : bits.rwx = true)
    (hroom : 2 * ((stop - start) / pageSize) ≤ m.free.length) : ∃ m', mapPieces root bits m ps = some m' := by
  apply mapPieces_isSome ht htiles hend hx
  · have hlen := htiles.length_le
    have hcount : ps.length ≤ (stop - start) / pageSize := (Nat.le_div_iff_mul_le (by norm_num)).mpr (by omega)
    omega
  · intro va hva
    have hnone := h.unmapped va hva
    rw [virtToEntry, virtToEntryAt_eq_walk, Option.map_eq_none_iff] at hnone
    exact hnone
  · intro p hp hb
    obtain ⟨hl, hdvd, hlow, hhigh⟩ := htiles.mem hp
    rcases Nat.eq_zero_or_pos p.2 with hzero | hpos
    · rw [hzero] at hb
      exact ht.not_branchAt_zero hb
    · exact h.no_branch p.2 p.1 (by omega) hdvd hlow hhigh hb

/-- The range is cut into aligned pieces from its first to its last page, whatever the table, and
mapped piece by piece. A range mapped this way is mapped to itself as it is page by page, and the
mapping returns for an unoccupied range with enough pages. -/
theorem mapPageRange_identity (ht : Tidy m 2 root) (hle : from_vaddr ≤ to_vaddr) (hto : to_vaddr ≤ 2 ^ 38) :
    let start := from_vaddr / pageSize * pageSize
    let stop := (to_vaddr + pageSize - 1) / pageSize * pageSize
    (∃ ps, Tiles start stop ps ∧ ∀ m fuel, (stop - start) / pageSize < fuel →
      mapPageRange fuel m root from_vaddr to_vaddr start bits = mapPieces root bits m ps) ∧
    (∀ fuel m', (stop - start) / pageSize < fuel → mapPageRange fuel m root from_vaddr to_vaddr start bits = some m' →
      IdentityMapped root bits start stop m m' ∧
        ∀ m'', mapPageRangeAtLevel fuel root start stop start bits 0 m = some m'' → SameTranslation root m' m'') ∧
    (bits.rwx = true → Unoccupied root start stop m → 2 * ((stop - start) / pageSize) ≤ m.free.length →
      ∃ m' m'', ∀ fuel, (stop - start) / pageSize < fuel →
        mapPageRange fuel m root from_vaddr to_vaddr start bits = some m' ∧
        mapPageRangeAtLevel fuel root start stop start bits 0 m = some m'') := by
  intro start stop
  have hstart : pageSize ∣ start := Nat.dvd_mul_left _ _
  have hstop : pageSize ∣ stop := Nat.dvd_mul_left _ _
  have hrange : start ≤ stop ∧ stop ≤ 2 ^ 38 := by
    simp only [start, stop, pageSize]
    omega
  have hcut : ∀ m fuel, (stop - start) / pageSize < fuel →
      mapPageRange fuel m root from_vaddr to_vaddr start bits = mapPieces root bits m (pieces 2 start stop) := by
    intro m fuel hfuel
    rw [mapPageRange, Nat.mod_eq_of_lt (by simp only [pageSize]; omega)]
    exact tryMapingRangeAtLevel_eq le_rfl hstart hstop hrange.1 hrange.2 hfuel
  have hpages : ∀ fuel, (stop - start) / pageSize < fuel →
      mapPageRangeAtLevel fuel root start stop start bits 0 m = mapPieces root bits m (run 0 start stop) := by
    intro fuel hfuel
    exact mapPageRangeAtLevel_eq hstart hstop hrange.1 (by omega) hfuel
  have htiles := @tiles_pieces start stop 2 le_rfl hstart hstop hrange.1
  have htiles' := @tiles_run start stop 0 (by omega) hstart hstop hrange.1
  refine ⟨⟨_, htiles, hcut⟩, fun fuel m' hfuel h => ?_, fun hx hunocc hroom => ?_⟩
  · rw [hcut m fuel hfuel] at h
    have hid := (mapPieces_rangeMapped ht htiles hrange.2 h).identity
    refine ⟨hid, fun m'' h'' => hid.same ?_⟩
    rw [hpages fuel hfuel] at h''
    exact (mapPieces_rangeMapped ht htiles' hrange.2 h'').identity
  · obtain ⟨m', hm'⟩ := hunocc.isSome ht htiles hrange.2 hx hroom
    obtain ⟨m'', hm''⟩ := hunocc.isSome ht htiles' hrange.2 hx hroom
    refine ⟨m', m'', fun fuel hfuel => ⟨?_, ?_⟩⟩
    · rw [hcut m fuel hfuel, hm']
    · rw [hpages fuel hfuel, hm'']

/-- Two pages are mapped in a new table. -/
theorem mapPageRange_identity_twoPages : ∃ m', mapPageRange 3 { entries := fun _ _ => {}, free := [2, 3, 4, 5] } 1
      0x80200ff8 0x80201008 0x80200000 { r := true, x := true } = some m' ∧
    IdentityMapped 1 { r := true, x := true } 0x80200000 0x80202000 { entries := fun _ _ => {}, free := [2, 3, 4, 5] } m' := by
  have hroot : createPageTable { entries := fun _ _ => {}, free := [1, 2, 3, 4, 5] } =
      some (1, { entries := fun _ _ => {}, free := [2, 3, 4, 5] }) := by
    simp [createPageTable]
  have hgood := createPageTable_good (by decide) hroot
  have h := @mapPageRange_identity _ 1 0x80200ff8 0x80201008 { r := true, x := true } hgood.tidy (by norm_num) (by norm_num)
  obtain ⟨m', m'', hm'⟩ := h.2.2 rfl
    ⟨fun va _ => (hgood.unmapped fun _ _ => rfl).1, fun _ _ _ _ _ _ => not_branchAt rfl⟩ (by decide)
  exact ⟨m', (hm' 3 (by decide)).1, (h.2.1 3 m' (by decide) (hm' 3 (by decide)).1).1⟩

end Range

end SomeOs.TableHeap
