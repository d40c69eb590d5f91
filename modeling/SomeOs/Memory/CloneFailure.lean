import SomeOs.Memory.MemSpace
import SomeOs.Memory.TableRuns

/-! # Cloning a memory space when pages run out

The copy first takes over an entry of the source and replaces the frame number of a branch when
the table below has been copied. A debug build stops at the assertion of `createPageTable`; without
it the copy stops with a branch of the new root that still points to a table of the source.
-/
namespace SomeOs.TableHeap
open Paging NodeTree PageRef

structure CloneMem extends TableMem where
  refs : PageRefTable

def CloneMem.put (s : CloneMem) (f i : ℕ) (e : PageTableEntry) : CloneMem := { s with toTableMem := s.store f i e }

/-- `createPageTable` with its assertion, which a debug build checks. -/
def newTable (debug : Bool) (s : CloneMem) : Option (Option ℕ × CloneMem) :=
  match createPageTable s.toTableMem with
  | some r => some (some r.1, { s with toTableMem := r.2 })
  | none => if debug then none else some (none, s)

/-- `copyMemoryPageEntry` on entry `i` of two tables. -/
def copyEntry (zero_page : ℕ) (s : CloneMem) (dest src i : ℕ) : CloneMem :=
  let r := MemSpace.copyMemoryPageEntry zero_page s.refs (s.entries dest i) (s.entries src i)
  { (s.put dest i r.1).put src i r.2.1 with refs := r.2.2 }

/-- The loop of `copyAllPagesAndAllocUsers` over the entries that are left. -/
def copyLoop (debug : Bool) (zero_page : ℕ) (copy : ℕ → ℕ → CloneMem → Option (Bool × CloneMem)) (dest src : ℕ) :
    List ℕ → CloneMem → Option (Bool × CloneMem)
  | [], s => some (true, s)
  | i :: rest, s =>
    let entry := s.entries src i
    let s := s.put dest i entry
    if entry.v then
      if entry.rwx then copyLoop debug zero_page copy dest src rest (copyEntry zero_page s dest src i)
      else
        match newTable debug s with
        | none => none
        | some (none, s) => some (false, s)
        | some (some dst_table, s) =>
          match copy dst_table entry.paddr s with
          | none => none
          | some (false, s) => some (false, s)
          | some (true, s) =>
            copyLoop debug zero_page copy dest src rest (s.put dest i { s.entries dest i with paddr := dst_table })
    else copyLoop debug zero_page copy dest src rest s

/-- The copy of a table of level `n`. A table of level zero has no branches to follow. -/
def copyAllPagesAndAllocUsers (debug : Bool) (zero_page : ℕ) : ℕ → ℕ → ℕ → CloneMem → Option (Bool × CloneMem)
  | 0 => fun dest src => copyLoop debug zero_page (fun _ _ _ => none) dest src (List.range pageTableSize)
  | n + 1 => fun dest src =>
    copyLoop debug zero_page (copyAllPagesAndAllocUsers debug zero_page n) dest src (List.range pageTableSize)

/-- One entry of the loop of `freePagesInTable`. -/
def freeStep (zero_page : ℕ) (free : ℕ → CloneMem → CloneMem) (table i : ℕ) (s : CloneMem) : CloneMem :=
  let entry := s.entries table i
  let s :=
    if entry.v then
      if entry.rwx then
        let st := MemSpace.freePageEntryData zero_page ⟨s.refs, s.free⟩ entry
        { s with refs := st.refs, free := st.free }
      else
        let s := free entry.paddr s
        { s with toTableMem := deallocPage s.toTableMem entry.paddr }
    else s
  s.put table i {}

/-- `freePagesInTable` with a level that counts from one. -/
def freePagesInTable (zero_page : ℕ) : ℕ → ℕ → CloneMem → CloneMem
  | 0 => fun _ s => s
  | n + 1 => fun table => fun s =>
    (List.range pageTableSize).foldl (fun s i => freeStep zero_page (freePagesInTable zero_page n) table i s) s

def deallocMemorySpace (zero_page : ℕ) (s : CloneMem) (mem : ℕ) : CloneMem :=
  let s := freePagesInTable zero_page 3 mem s
  { s with toTableMem := deallocPage s.toTableMem mem }

/-- The new space or `NULL`, unless an assertion fails. -/
def cloneMemorySpace (debug : Bool) (zero_page : ℕ) (s : CloneMem) (mem : ℕ) : Option (Option ℕ × CloneMem) :=
  match newTable debug s with
  | none => none
  | some (none, s) => some (none, s)
  | some (some space, s) =>
    match copyAllPagesAndAllocUsers debug zero_page 2 space mem s with
    | none => none
    | some (true, s) => some (some space, s)
    | some (false, s) => some (none, deallocMemorySpace zero_page s space)

variable {s₀ s t : CloneMem} {n dest src f g i p : ℕ} {e e' : PageTableEntry} {used : List ℕ}

section Entries

@[simp] theorem put_self (s : CloneMem) (f i : ℕ) (e : PageTableEntry) : (s.put f i e).entries f i = e := store_self ..

theorem put_slot {j : ℕ} (s : CloneMem) (f g : ℕ) (e : PageTableEntry) (h : j ≠ i) :
    (s.put f i e).entries g j = s.entries g j := store_slot _ _ _ _ h

theorem put_table (s : CloneMem) (i : ℕ) (e : PageTableEntry) (h : g ≠ f) : (s.put f i e).entries g = s.entries g :=
  store_table _ _ _ h

@[simp] theorem put_free (s : CloneMem) (f i : ℕ) (e : PageTableEntry) : (s.put f i e).free = s.free := rfl

structure Dims (e e' : PageTableEntry) : Prop where
  v : e'.v = e.v
  paddr : e'.paddr = e.paddr
  rwx : e'.rwx = true → e.rwx = true

theorem Dims.refl (e : PageTableEntry) : Dims e e := ⟨rfl, rfl, id⟩

theorem Dims.trans {e'' : PageTableEntry} (h : Dims e e') (h' : Dims e' e'') : Dims e e'' :=
  ⟨h'.v.trans h.v, h'.paddr.trans h.paddr, fun hx => h.rwx (h'.rwx hx)⟩

theorem Dims.branch (h : Dims e e') (hb : branch e = some g) : TableHeap.branch e' = some g := by
  obtain ⟨hv, hx, hp⟩ := branch_eq_some.mp hb
  refine branch_eq_some.mpr ⟨h.v.trans hv, ?_, h.paddr.trans hp⟩
  by_contra hx'
  rw [h.rwx (by simpa using hx')] at hx
  cases hx

def Leaf (e : PageTableEntry) : Prop := e.v = true ∧ e.rwx = true

theorem copyMemoryPageEntry_dims (zero_page : ℕ) (refs : PageRefTable) (e : PageTableEntry) :
    (MemSpace.copyMemoryPageEntry zero_page refs e e).1 = (MemSpace.copyMemoryPageEntry zero_page refs e e).2.1 ∧
      Dims e (MemSpace.copyMemoryPageEntry zero_page refs e e).1 := by
  simp only [MemSpace.copyMemoryPageEntry]
  split_ifs with hg hz hw
  · exact ⟨rfl, .refl e⟩
  · exact ⟨rfl, .refl e⟩
  · refine ⟨rfl, rfl, rfl, fun _ => ?_⟩
    simp [PageEntryBits.rwx, hw]
  · exact ⟨rfl, .refl e⟩

end Entries

section Copy

def Demoted (s₀ s : CloneMem) (n src : ℕ) : Prop :=
  ∃ x ∈ allTables s₀.toTableMem n src, ∃ j < pageTableSize, Leaf (s₀.entries x j) ∧ ¬Leaf (s.entries x j)

theorem Demoted.mono (hd : Demoted s₀ s n src)
    (ht : ∀ x ∈ allTables s₀.toTableMem n src, ∀ j, Dims (s.entries x j) (t.entries x j)) : Demoted s₀ t n src := by
  obtain ⟨x, hx, j, hj, hleaf, hno⟩ := hd
  refine ⟨x, hx, j, hj, hleaf, fun hyes => hno ?_⟩
  exact ⟨(ht x hx j).v ▸ hyes.1, (ht x hx j).rwx hyes.2⟩

/-- A copy that has got to `s` with the pages `used`. -/
structure Copied (n dest src : ℕ) (s₀ s : CloneMem) (used : List ℕ) : Prop where
  free : s₀.free = used ++ s.free
  rest : ∀ x, x ≠ dest → x ∉ used → x ∉ allTables s₀.toTableMem n src → s.entries x = s₀.entries x
  source : ∀ x ∈ allTables s₀.toTableMem n src, ∀ j, Dims (s₀.entries x j) (s.entries x j)
  leads : ∀ x ∈ dest :: used, ∀ j g, branch (s.entries x j) = some g →
    g ∈ tables s₀.toTableMem n src ∨ g ∈ used ∨ Demoted s₀ s n src

structure Ready (n dest src : ℕ) (s : CloneMem) : Prop where
  tidy : Tidy s.toTableMem n src
  apart : dest ∉ allTables s.toTableMem n src
  taken : dest ∉ s.free
  empty : ∀ j, s.entries dest j = {}

theorem Ready.copied (h : Ready n dest src s) : Copied n dest src s s [] where
  free := rfl
  rest _ _ _ _ := rfl
  source x _ j := .refl _
  leads x hx j g hg := by
    rw [List.mem_singleton.mp hx, h.empty] at hg
    cases hg

section Steps
variable (hready : Ready n dest src s₀) (h : Copied n dest src s₀ s used)
include hready h

theorem Copied.used_apart {x : ℕ} (hx : x ∈ allTables s₀.toTableMem n src) : x ≠ dest ∧ x ∉ used := by
  refine ⟨fun heq => hready.apart (heq ▸ hx), fun hin => hready.tidy.apart hx ?_⟩
  rw [h.free]
  exact List.mem_append_left _ hin

theorem Copied.dest_unused : dest ∉ used := by
  intro hin
  apply hready.taken
  rw [h.free]
  exact List.mem_append_left _ hin

theorem Copied.put_dest (hlead : ∀ g, branch e = some g → g ∈ tables s₀.toTableMem n src ∨ g ∈ used ∨ Demoted s₀ s n src) :
    Copied n dest src s₀ (s.put dest i e) used := by
  have hsame : ∀ x, x ≠ dest → (s.put dest i e).entries x = s.entries x := fun x hx => put_table s i e hx
  have hsource : ∀ x ∈ allTables s₀.toTableMem n src, ∀ j, Dims (s.entries x j) ((s.put dest i e).entries x j) := by
    intro x hx j
    rw [hsame x (h.used_apart hready hx).1]
    exact .refl _
  refine ⟨h.free, fun x hd hu hx => ?_, fun x hx j => (h.source x hx j).trans (hsource x hx j), fun x hx j g hg => ?_⟩
  · rw [hsame x hd, h.rest x hd hu hx]
  · have hold : g ∈ tables s₀.toTableMem n src ∨ g ∈ used ∨ Demoted s₀ s n src := by
      by_cases hd : x = dest
      · subst hd
        by_cases hj : j = i
        · rw [hj, put_self] at hg
          exact hlead g hg
        · rw [put_slot s x x e hj] at hg
          exact h.leads x hx j g hg
      · rw [hsame x hd] at hg
        exact h.leads x hx j g hg
    exact hold.imp_right (Or.imp_right fun hd => hd.mono hsource)

/-- An entry that is no branch is copied, and both entries may lose permissions. -/
theorem Copied.put_leaf (hi : i < pageTableSize) (hentry : s₀.entries src i = e) (hnow : s.entries src i = e)
    (hb : branch e = none) (hdims : Dims e e') : Copied n dest src s₀ ((s.put dest i e').put src i e') used := by
  have hsrc := h.used_apart hready (List.mem_cons_self : src ∈ allTables s₀.toTableMem n src)
  have hsame : ∀ x, x ≠ dest → x ≠ src → ((s.put dest i e').put src i e').entries x = s.entries x := by
    intro x hd hs
    rw [put_table _ i e' hs, put_table s i e' hd]
  have hother : ∀ x j, j ≠ i → ((s.put dest i e').put src i e').entries x j = s.entries x j := by
    intro x j hj
    rw [put_slot _ _ _ _ hj, put_slot _ _ _ _ hj]
  have hsource : ∀ x ∈ allTables s₀.toTableMem n src, ∀ j,
      Dims (s.entries x j) (((s.put dest i e').put src i e').entries x j) := by
    intro x hx j
    by_cases hs : x = src
    · subst hs
      by_cases hj : j = i
      · rw [hj, put_self, hnow]
        exact hdims
      · rw [hother x j hj]
        exact .refl _
    · rw [hsame x (h.used_apart hready hx).1 hs]
      exact .refl _
  refine ⟨h.free, fun x hd hu hx => ?_, fun x hx j => (h.source x hx j).trans (hsource x hx j), fun x hx j g hg => ?_⟩
  · rw [hsame x hd (fun heq => hx (heq ▸ List.mem_cons_self)), h.rest x hd hu hx]
  · have hxs : x ≠ src := by
      rintro rfl
      rcases List.mem_cons.mp hx with heq | hin
      · exact hsrc.1 heq
      · exact hsrc.2 hin
    by_cases hji : x = dest ∧ j = i
    · -- the copy of a leaf is a branch only when the leaf itself has become one
      obtain ⟨rfl, rfl⟩ := hji
      rw [put_table _ j e' hxs, put_self] at hg
      obtain ⟨hv, hx', -⟩ := branch_eq_some.mp hg
      have hleaf : Leaf e := by
        refine ⟨hdims.v ▸ hv, ?_⟩
        by_contra hno
        rw [branch_of_table (hdims.v ▸ hv) (by simpa using hno)] at hb
        cases hb
      refine .inr (.inr ⟨src, List.mem_cons_self, j, hi, by rw [hentry]; exact hleaf, ?_⟩)
      rw [put_self]
      rintro ⟨-, hyes⟩
      rw [hyes] at hx'
      cases hx'
    · have hold : ((s.put dest i e').put src i e').entries x j = s.entries x j := by
        rw [put_table _ i e' hxs]
        by_cases hj : j = i
        · rw [put_table s i e' fun hd => hji ⟨hd, hj⟩]
        · exact put_slot s dest x e' hj
      rw [hold] at hg
      exact (h.leads x hx j g hg).imp_right (Or.imp_right fun hd => hd.mono hsource)

end Steps

structure Fresh (s t : CloneMem) (p : ℕ) : Prop where
  free : s.free = p :: t.free
  same : ∀ x, x ≠ p → t.entries x = s.entries x
  empty : ∀ j, t.entries p j = {}

theorem newTable_cases (debug : Bool) (s : CloneMem) : (∃ p t, newTable debug s = some (some p, t) ∧ Fresh s t p) ∨
    (s.free = [] ∧ ((debug = true ∧ newTable debug s = none) ∨ (debug = false ∧ newTable debug s = some (none, s)))) := by
  simp only [newTable, createPageTable]
  cases hfree : s.free with
  | nil =>
    refine .inr ⟨rfl, ?_⟩
    cases debug with
    | false => exact .inr ⟨rfl, rfl⟩
    | true => exact .inl ⟨rfl, rfl⟩
  | cons p free =>
    refine .inl ⟨p, _, rfl, hfree, fun x hx => ?_, fun j => if_pos rfl⟩
    funext j
    exact if_neg hx

theorem Fresh.apart (hp : Fresh s t p) (hready : Ready n dest src s₀) (h : Copied n dest src s₀ s used) :
    p ∉ allTables s₀.toTableMem n src ∧ p ≠ dest ∧ p ∉ used := by
  have hin : p ∈ s₀.free := by
    rw [h.free, hp.free]
    exact List.mem_append_right _ List.mem_cons_self
  refine ⟨fun hmem => hready.tidy.apart hmem hin, fun heq => hready.taken (heq ▸ hin), fun hused => ?_⟩
  have hnodup := (List.nodup_append.mp hready.tidy.nodup).2.1
  rw [h.free, hp.free] at hnodup
  exact (List.nodup_append.mp hnodup).2.2 p hused p List.mem_cons_self rfl

section Child
variable {t' : CloneMem} {used' : List ℕ} (hready : Ready (n + 1) dest src s₀) (h : Copied (n + 1) dest src s₀ s used)
  (hi : i < pageTableSize) (hg : branch (s₀.entries src i) = some g)
  (hahead : ∀ x ∈ allTables s₀.toTableMem n g, s.entries x = s₀.entries x) (hp : Fresh s t p)
include hready h hi hg hahead hp

theorem child_same : ∀ x ∈ allTables s₀.toTableMem n g, t.entries x = s₀.entries x := by
  intro x hx
  have hin : x ∈ allTables s₀.toTableMem (n + 1) src := List.mem_cons_of_mem _ (nodes_subset hi hg hx)
  rw [hp.same x fun heq => (hp.apart hready h).1 (heq ▸ hin), hahead x hx]

theorem child_ready : Ready n p g t := by
  have hsame := child_same hready h hi hg hahead hp
  have hnodes : allTables t.toTableMem n g = allTables s₀.toTableMem n g := nodes_congr hsame
  have hchild := hready.tidy.child hi hg
  have hfree : s₀.free = (used ++ [p]) ++ t.free := by rw [h.free, hp.free, List.append_assoc, List.singleton_append]
  obtain ⟨htree, hlist, hout⟩ := List.nodup_append.mp hchild.nodup
  rw [hfree] at hlist hout
  refine ⟨⟨?_, bounded_congr hsame hchild.bounded⟩, ?_, ?_, hp.empty⟩
  · rw [hnodes]
    exact List.nodup_append.mpr ⟨htree, (List.nodup_append.mp hlist).2.1, fun x hx y hy =>
      hout x hx y (List.mem_append_right _ hy)⟩
  · rw [hnodes]
    intro hmem
    exact (hp.apart hready h).1 (List.mem_cons_of_mem _ (nodes_subset hi hg hmem))
  · intro hmem
    exact (List.nodup_append.mp hlist).2.2 p (List.mem_append_right _ List.mem_cons_self) p hmem rfl

theorem child_frame (hc : Copied n p g t t' used') {x : ℕ} (hp' : x ≠ p) (hout : x ∉ allTables s₀.toTableMem n g)
    (hfree : x ∉ t.free) : t'.entries x = s.entries x := by
  have hnodes : allTables t.toTableMem n g = allTables s₀.toTableMem n g :=
    nodes_congr (child_same hready h hi hg hahead hp)
  rw [hc.rest x hp' (fun hin => hfree ?_) (by rwa [hnodes]), hp.same x hp']
  rw [hc.free]
  exact List.mem_append_left _ hin

theorem child_copied (hc : Copied n p g t t' used') : Copied (n + 1) dest src s₀ t' (used ++ p :: used') := by
  have hsame := child_same hready h hi hg hahead hp
  have hnodes : allTables t.toTableMem n g = allTables s₀.toTableMem n g := nodes_congr hsame
  have hbelow : tables t.toTableMem n g = tables s₀.toTableMem n g := below_congr hsame
  have hsub := nodes_subset (n := n) hi hg
  have hframe := fun x => @child_frame s₀ s t n dest src g i p used t' used' hready h hi hg hahead hp hc x
  have hapart := hp.apart hready h
  have htfree : ∀ x ∈ t.free, x ∈ s₀.free := by
    intro x hx
    rw [h.free, hp.free]
    exact List.mem_append_right _ (List.mem_cons_of_mem _ hx)
  have hsource : ∀ x ∈ allTables s₀.toTableMem (n + 1) src, ∀ j, Dims (s.entries x j) (t'.entries x j) := by
    intro x hx j
    by_cases hin : x ∈ allTables s₀.toTableMem n g
    · have hd := hc.source x (by rwa [hnodes]) j
      rw [hsame x hin] at hd
      rw [hahead x hin]
      exact hd
    · rw [hframe x (fun heq => hapart.1 (heq ▸ hx)) hin fun hf => hready.tidy.apart hx (htfree x hf)]
      exact .refl _
  have hdem : Demoted t t' n g → Demoted s₀ t' (n + 1) src := by
    rintro ⟨x, hx, j, hj, hleaf, hno⟩
    rw [hnodes] at hx
    rw [hsame x hx] at hleaf
    exact ⟨x, List.mem_cons_of_mem _ (hsub hx), j, hj, hleaf, hno⟩
  refine ⟨?_, ?_, fun x hx j => (h.source x hx j).trans (hsource x hx j), ?_⟩
  · rw [h.free, hp.free, hc.free, List.append_assoc, List.cons_append]
  · intro x hd hu hx
    simp only [List.mem_append, List.mem_cons, not_or] at hu
    have hout : x ∉ allTables s₀.toTableMem n g := fun hin => hx (List.mem_cons_of_mem _ (hsub hin))
    rw [hc.rest x hu.2.1 hu.2.2 (by rwa [hnodes]), hp.same x hu.2.1, h.rest x hd hu.1 hx]
  · intro x hx j y hy
    by_cases hnew : x ∈ p :: used'
    · rcases hc.leads x hnew j y hy with hin | hin | hin
      · rw [hbelow] at hin
        exact .inl (hsub (List.mem_cons_of_mem _ hin))
      · exact .inr (.inl (List.mem_append_right _ (List.mem_cons_of_mem _ hin)))
      · exact .inr (.inr (hdem hin))
    · have hold : x ∈ dest :: used := by
        simp only [List.mem_cons, List.mem_append] at hx hnew ⊢
        tauto
      have hxfree : x ∉ t.free := by
        rcases List.mem_cons.mp hold with rfl | hin
        · exact fun hf => hready.taken (htfree x hf)
        · intro hf
          have hnodup := (List.nodup_append.mp hready.tidy.nodup).2.1
          rw [h.free, hp.free] at hnodup
          exact (List.nodup_append.mp hnodup).2.2 x hin x (List.mem_cons_of_mem _ hf) rfl
      have hxout : x ∉ allTables s₀.toTableMem n g := by
        intro hin
        have hapart' := h.used_apart hready (List.mem_cons_of_mem _ (hsub hin))
        rcases List.mem_cons.mp hold with heq | hin'
        · exact hapart'.1 heq
        · exact hapart'.2 hin'
      rw [hframe x (fun heq => hnew (heq ▸ List.mem_cons_self)) hxout hxfree] at hy
      rcases h.leads x hold j y hy with hin | hin | hin
      · exact .inl hin
      · exact .inr (.inl (List.mem_append_left _ hin))
      · exact .inr (.inr (hin.mono hsource))

end Child

/-- The table pages that an entry of a table of level `n` leads to. -/
def under (s : CloneMem) : ℕ → PageTableEntry → List ℕ
  | 0, _ => []
  | n + 1, e => hang branch pageTableSize s.entries n e

theorem tables_eq_under (s : CloneMem) (n src : ℕ) :
    tables s.toTableMem n src = (List.range pageTableSize).flatMap fun i => under s n (s.entries src i) := by
  cases n with
  | zero => exact (List.flatMap_eq_nil_iff.mpr fun _ _ => rfl).symm
  | succ n => exact below_succ ..

theorem under_subset (hi : i < pageTableSize) : under s n (s.entries src i) ⊆ tables s.toTableMem n src := by
  intro x hx
  rw [tables_eq_under]
  exact List.mem_flatMap.mpr ⟨i, List.mem_range.mpr hi, hx⟩

/-- The entries still to be copied and the tables below them are as they were. -/
def Ahead (n src : ℕ) (s₀ s : CloneMem) (is : List ℕ) : Prop :=
  ∀ j ∈ is, s.entries src j = s₀.entries src j ∧ ∀ x ∈ under s₀ n (s₀.entries src j), s.entries x = s₀.entries x

/-- How a copy ends: the source is copied whole, or the pages do not suffice and an assertion
fails or an entry of the copy still points to a table of the source. -/
def Outcome (debug : Bool) (n dest src : ℕ) (s₀ : CloneMem) : Option (Bool × CloneMem) → Prop
  | none => debug = true ∧ s₀.free.length < (tables s₀.toTableMem n src).length
  | some (true, s) => ∃ used, Copied n dest src s₀ s used ∧ used.length = (tables s₀.toTableMem n src).length
  | some (false, s) => debug = false ∧ s₀.free.length < (tables s₀.toTableMem n src).length ∧
    ∃ used, Copied n dest src s₀ s used ∧ ∃ i < pageTableSize, ∃ g ∈ tables s₀.toTableMem n src,
      branch (s.entries dest i) = some g

theorem Copied.with_refs (h : Copied n dest src s₀ s used) (refs : PageRefTable) :
    Copied n dest src s₀ { s with refs := refs } used := ⟨h.free, h.rest, h.source, h.leads⟩

section Loop
variable {debug : Bool} {zero_page : ℕ} {copy : ℕ → ℕ → CloneMem → Option (Bool × CloneMem)} {is : List ℕ}

theorem Ahead.frame (hready : Ready n dest src s₀) (h : Ahead n src s₀ s is) (hlt : ∀ j ∈ is, j < pageTableSize)
    (hsrc : ∀ j ∈ is, t.entries src j = s.entries src j)
    (hout : ∀ j ∈ is, ∀ x ∈ under s₀ n (s₀.entries src j), x ∈ tables s₀.toTableMem n src → x ≠ dest → x ≠ src →
      t.entries x = s.entries x) : Ahead n src s₀ t is := by
  intro j hj
  refine ⟨by rw [hsrc j hj, (h j hj).1], fun x hx => ?_⟩
  have hin := under_subset (hlt j hj) hx
  have hdest : x ≠ dest := fun heq => hready.apart (heq ▸ List.mem_cons_of_mem _ hin)
  rw [hout j hj x hx hin hdest (ne_of_mem_below hready.tidy.tree hin), (h j hj).2 x hx]

theorem copyLoop_outcome (hready : Ready n dest src s₀)
    (hcopy : ∀ i < pageTableSize, ∀ g, branch (s₀.entries src i) = some g →
      ∃ k, n = k + 1 ∧ ∀ p t, Ready k p g t → Outcome debug k p g t (copy p g t))
    (hnodup : is.Nodup) (hlt : ∀ j ∈ is, j < pageTableSize) (h : Copied n dest src s₀ s used)
    (hahead : Ahead n src s₀ s is)
    (hcount : used.length + (is.flatMap fun i => under s₀ n (s₀.entries src i)).length =
      (tables s₀.toTableMem n src).length) :
    Outcome debug n dest src s₀ (copyLoop debug zero_page copy dest src is s) := by
  induction is generalizing s used with
  | nil => exact ⟨used, h, by simpa using hcount⟩
  | cons i is ih =>
    obtain ⟨hfresh, hnodup⟩ := List.nodup_cons.mp hnodup
    have hi := hlt i List.mem_cons_self
    have hentry := (hahead i List.mem_cons_self).1
    have hlt' : ∀ j ∈ is, j < pageTableSize := fun j hj => hlt j (List.mem_cons_of_mem _ hj)
    have hahead' : Ahead n src s₀ s is := fun j hj => hahead j (List.mem_cons_of_mem _ hj)
    have hne : ∀ j ∈ is, j ≠ i := fun j hj heq => hfresh (heq ▸ hj)
    have hsrc : src ≠ dest := (h.used_apart hready List.mem_cons_self).1
    rw [List.flatMap_cons, List.length_append] at hcount
    simp only [copyLoop]
    rw [hentry]
    split_ifs with hv hx
    · -- a leaf
      have hnone : branch (s₀.entries src i) = none := branch_of_leaf (.inr hx)
      have hunder : under s₀ n (s₀.entries src i) = [] := by
        cases n with
        | zero => rfl
        | succ n => exact hang_none hnone
      have hput : Copied n dest src s₀ (s.put dest i (s₀.entries src i)) used :=
        h.put_dest hready fun g hg => by rw [hnone] at hg; cases hg
      have hnow : (s.put dest i (s₀.entries src i)).entries src i = s₀.entries src i := by
        rw [put_table s i _ hsrc, hentry]
      obtain ⟨heq, hdims⟩ := copyMemoryPageEntry_dims zero_page (s.put dest i (s₀.entries src i)).refs (s₀.entries src i)
      have hleaf := (hput.put_leaf hready hi rfl hnow hnone hdims).with_refs
        (MemSpace.copyMemoryPageEntry zero_page (s.put dest i (s₀.entries src i)).refs (s₀.entries src i) (s₀.entries src i)).2.2
      rw [copyEntry, put_self, hnow, ← heq]
      refine ih hnodup hlt' hleaf ?_ (by rw [hunder, List.length_nil] at hcount; omega)
      refine hahead'.frame hready hlt' (fun j hj => ?_) fun j hj x hx _ hd hs => ?_
      · show (((s.put dest i _).put dest i _).put src i _).entries src j = _
        rw [put_slot _ _ _ _ (hne j hj), put_slot _ _ _ _ (hne j hj), put_slot _ _ _ _ (hne j hj)]
      · show (((s.put dest i _).put dest i _).put src i _).entries x = _
        rw [put_table _ _ _ hs, put_table _ _ _ hd, put_table _ _ _ hd]
    · -- a branch
      have hg := branch_of_table hv (by simpa using hx)
      obtain ⟨k, rfl, hrec⟩ := hcopy i hi _ hg
      have hgin : (s₀.entries src i).paddr ∈ tables s₀.toTableMem (k + 1) src := nodes_subset hi hg List.mem_cons_self
      have hput : Copied (k + 1) dest src s₀ (s.put dest i (s₀.entries src i)) used :=
        h.put_dest hready fun g hg' => by
          rw [hg, Option.some.injEq] at hg'
          exact .inl (hg' ▸ hgin)
      have hahead₁ : Ahead (k + 1) src s₀ (s.put dest i (s₀.entries src i)) is :=
        hahead'.frame hready hlt' (fun j hj => put_slot _ _ _ _ (hne j hj)) fun j hj x _ _ hd _ => put_table _ _ _ hd
      have hbelow : ∀ x ∈ allTables s₀.toTableMem k (s₀.entries src i).paddr,
          (s.put dest i (s₀.entries src i)).entries x = s₀.entries x := by
        intro x hx
        have hin : x ∈ under s₀ (k + 1) (s₀.entries src i) := by
          rw [under, hang_some hg]
          exact hx
        have hd := (h.used_apart hready (List.mem_cons_of_mem _ (under_subset hi hin))).1
        rw [put_table _ _ _ hd, (hahead i List.mem_cons_self).2 x hin]
      rw [under, hang_some hg, nodes, List.length_cons] at hcount
      have hfree := congrArg List.length hput.free
      rw [List.length_append] at hfree
      rcases newTable_cases debug (s.put dest i (s₀.entries src i)) with
        ⟨p, t, hnew, hp⟩ | ⟨hnil, ⟨hd, hnew⟩ | ⟨hd, hnew⟩⟩
      · have hframe := fun t' used' hc x =>
          @child_frame s₀ _ t k dest src _ i p used t' used' hready hput hi hg hbelow hp hc x
        have hpout := hp.apart hready hput
        have htfree : ∀ x ∈ t.free, x ∈ s₀.free := by
          intro x hx
          rw [hput.free, hp.free]
          exact List.mem_append_right _ (List.mem_cons_of_mem _ hx)
        have hdest : dest ∉ allTables s₀.toTableMem k (s₀.entries src i).paddr := fun hin =>
          hready.apart (List.mem_cons_of_mem _ (nodes_subset hi hg hin))
        have hout := hrec p t (child_ready hready hput hi hg hbelow hp)
        have hsame := congrArg List.length (below_congr (child_same hready hput hi hg hbelow hp))
        rw [hp.free, List.length_cons] at hfree
        simp only [hnew]
        rcases hcopied : copy p (s₀.entries src i).paddr t with _ | ⟨_ | _, t'⟩ <;> rw [hcopied] at hout
        · obtain ⟨hd, hlen⟩ := hout
          rw [tables, hsame] at hlen
          exact ⟨hd, by omega⟩
        · obtain ⟨hd, hlen, used', hc, -⟩ := hout
          rw [tables, hsame] at hlen
          refine ⟨hd, by omega, _, child_copied hready hput hi hg hbelow hp hc, i, hi, _, hgin, ?_⟩
          rw [hframe t' used' hc dest hpout.2.1.symm hdest fun hf => hready.taken (htfree _ hf), put_self, hg]
        · obtain ⟨used', hc, hlen⟩ := hout
          have hdest' := hframe t' used' hc dest hpout.2.1.symm hdest fun hf => hready.taken (htfree _ hf)
          have hcopied := child_copied hready hput hi hg hbelow hp hc
          have hsrc' := hframe t' used' hc src (fun heq => hpout.1 (heq ▸ List.mem_cons_self))
            (nodup_child hready.tidy.tree hi hg).2 fun hf => hready.tidy.apart List.mem_cons_self (htfree _ hf)
          refine ih hnodup hlt' (hcopied.put_dest hready fun y hy => ?_) ?_ ?_
          · rw [hdest', put_self] at hy
            rw [← (branch_eq_some.mp hy).2.2]
            exact .inr (.inl (List.mem_append_right _ List.mem_cons_self))
          · refine hahead₁.frame hready hlt' (fun j hj => ?_) fun j hj x hx hin hd hs => ?_
            · rw [put_slot _ _ _ _ (hne j hj), hsrc']
            · rw [put_table _ _ _ hd]
              refine hframe t' used' hc x (fun heq => hpout.1 (heq ▸ List.mem_cons_of_mem _ hin)) ?_
                fun hf => hready.tidy.apart (List.mem_cons_of_mem _ hin) (htfree _ hf)
              rw [allTables, ← hang_some hg]
              exact hang_apart hready.tidy.tree hi (hlt' j hj) (hne j hj) hx
          · rw [tables, hsame] at hlen
            rw [List.length_append, List.length_cons]
            omega
      · rw [hnew]
        rw [hnil, List.length_nil] at hfree
        exact ⟨hd, by omega⟩
      · rw [hnew]
        rw [hnil, List.length_nil] at hfree
        exact ⟨hd, by omega, used, hput, i, hi, _, hgin, by rw [put_self, hg]⟩
    · -- an invalid entry
      have hnone : branch (s₀.entries src i) = none := branch_of_leaf (.inl (by simpa using hv))
      have hunder : under s₀ n (s₀.entries src i) = [] := by
        cases n with
        | zero => rfl
        | succ n => exact hang_none hnone
      have hput : Copied n dest src s₀ (s.put dest i (s₀.entries src i)) used :=
        h.put_dest hready fun g hg => by rw [hnone] at hg; cases hg
      refine ih hnodup hlt' hput ?_ (by rw [hunder, List.length_nil] at hcount; omega)
      exact hahead'.frame hready hlt' (fun j hj => put_slot _ _ _ _ (hne j hj)) fun j hj x _ _ hd _ => put_table _ _ _ hd

end Loop

theorem copy_outcome (debug : Bool) (zero_page : ℕ) (hready : Ready n dest src s) :
    Outcome debug n dest src s (copyAllPagesAndAllocUsers debug zero_page n dest src s) := by
  have hnodup := List.nodup_range (n := pageTableSize)
  have hlt : ∀ j ∈ List.range pageTableSize, j < pageTableSize := fun j hj => List.mem_range.mp hj
  induction n generalizing dest src s with
  | zero =>
    have hcount := congrArg List.length (tables_eq_under s 0 src).symm
    rw [copyAllPagesAndAllocUsers]
    generalize List.range pageTableSize = is at *
    refine copyLoop_outcome hready (fun i hi g hg => ?_) hnodup hlt hready.copied (fun _ _ => ⟨rfl, fun _ _ => rfl⟩) ?_
    · rw [hready.tidy.bounded i hi] at hg
      cases hg
    · rw [List.length_nil, Nat.zero_add, hcount]
  | succ n ih =>
    have hcount := congrArg List.length (tables_eq_under s (n + 1) src).symm
    rw [copyAllPagesAndAllocUsers]
    generalize List.range pageTableSize = is at *
    refine copyLoop_outcome hready (fun i hi g hg => ⟨n, rfl, fun p t ht => ih ht⟩) hnodup hlt hready.copied
      (fun _ _ => ⟨rfl, fun _ _ => rfl⟩) ?_
    rw [List.length_nil, Nat.zero_add, hcount]

end Copy

section Teardown
variable {zero_page : ℕ} {free : ℕ → CloneMem → CloneMem} {table : ℕ} {S : Set ℕ} {is : List ℕ}

def Closed (S : Set ℕ) (s : CloneMem) : Prop :=
  ∀ x ∈ S, ∀ j < pageTableSize, ∀ g, branch (s.entries x j) = some g → g ∈ S

/-- Entries of the tables in a set may have become zero, and pages have become free. -/
structure Freed (S : Set ℕ) (s t : CloneMem) : Prop where
  erased : ∀ x j, t.entries x j = s.entries x j ∨ t.entries x j = {}
  outside : ∀ x, x ∉ S → t.entries x = s.entries x
  free : ∀ x ∈ s.free, x ∈ t.free

theorem Freed.refl (S : Set ℕ) (s : CloneMem) : Freed S s s := ⟨fun _ _ => .inl rfl, fun _ _ => rfl, fun _ hx => hx⟩

theorem Freed.trans {u : CloneMem} (h : Freed S s t) (h' : Freed S t u) : Freed S s u where
  erased x j := by
    rcases h'.erased x j with he | he
    · rw [he]
      exact h.erased x j
    · exact .inr he
  outside x hx := by rw [h'.outside x hx, h.outside x hx]
  free x hx := h'.free x (h.free x hx)

theorem Freed.mono {S' : Set ℕ} (h : Freed S s t) (hsub : S ⊆ S') : Freed S' s t :=
  ⟨h.erased, fun x hx => h.outside x fun hin => hx (hsub hin), h.free⟩

theorem Freed.branch {x j : ℕ} (h : Freed S s t) (hb : branch (t.entries x j) = some g) :
    TableHeap.branch (s.entries x j) = some g := by
  rcases h.erased x j with he | he
  · rw [← he, hb]
  · rw [he] at hb
    cases hb

theorem Freed.closed (h : Freed S s t) {S' : Set ℕ} (hc : Closed S' s) : Closed S' t :=
  fun x hx j hj g hg => hc x hx j hj g (h.branch hg)

/-- What the source does with the entry before it is cleared. -/
theorem freeStep_freed (hfree : ∀ g ∈ S, ∀ s, Closed S s → Freed S s (free g s)) (hc : Closed S s)
    (hlead : ∀ g, branch (s.entries table i) = some g → g ∈ S) :
    (∃ t, freeStep zero_page free table i s = t.put table i {} ∧ Freed S s t ∧
      ∀ g, branch (s.entries table i) = some g → g ∈ t.free) := by
  refine ⟨_, rfl, ?_, ?_⟩
  · split_ifs with hv hx
    · refine ⟨fun _ _ => .inl rfl, fun _ _ => rfl, fun x hx => ?_⟩
      show x ∈ (MemSpace.freePageEntryData zero_page ⟨s.refs, s.free⟩ (s.entries table i)).free
      simp only [MemSpace.freePageEntryData]
      split_ifs
      · exact hx
      · exact hx
      · exact hx
      · exact List.mem_cons_of_mem _ hx
    · have hg := branch_of_table hv (by simpa using hx)
      have hrec := hfree _ (hlead _ hg) s hc
      exact ⟨hrec.erased, hrec.outside, fun x hx => List.mem_cons_of_mem _ (hrec.free x hx)⟩
    · exact .refl S s
  · intro g hg
    obtain ⟨hv, hx, rfl⟩ := branch_eq_some.mp hg
    simp only [hv, hx, if_true, Bool.false_eq_true, if_false]
    exact List.mem_cons_self

theorem put_freed (s : CloneMem) (table i : ℕ) : Freed {table} s (s.put table i {}) := by
  refine ⟨fun x j => ?_, fun x hx => put_table s i {} hx, fun x hx => hx⟩
  by_cases h : x = table ∧ j = i
  · rw [h.1, h.2, put_self]
    exact .inr rfl
  · exact .inl (if_neg h)

theorem freeTable_freed (hfree : ∀ g ∈ S, ∀ s, Closed S s → Freed S s (free g s)) (hc : Closed S s)
    (hlead : ∀ j < pageTableSize, ∀ g, branch (s.entries table j) = some g → g ∈ S) (hlt : ∀ j ∈ is, j < pageTableSize) :
    Freed (insert table S) s (is.foldl (fun s i => freeStep zero_page free table i s) s) := by
  induction is generalizing s with
  | nil => exact .refl _ _
  | cons i is ih =>
    obtain ⟨t, ht, hst, -⟩ := @freeStep_freed s i zero_page free table S hfree hc (hlead i (hlt i List.mem_cons_self))
    have hput : Freed (insert table S) s (t.put table i {}) :=
      (hst.mono (Set.subset_insert _ _)).trans ((put_freed t table i).mono (by simp))
    rw [List.foldl_cons, ht]
    refine hput.trans (ih (hput.closed hc) (fun j hj g hg => hlead j hj g (hput.branch hg)) ?_)
    exact fun j hj => hlt j (List.mem_cons_of_mem _ hj)

theorem freePagesInTable_freed (zero_page n : ℕ) (hg : g ∈ S) (hc : Closed S s) :
    Freed S s (freePagesInTable zero_page n g s) := by
  induction n generalizing g s with
  | zero => exact .refl S s
  | succ n ih =>
    have hlt : ∀ j ∈ List.range pageTableSize, j < pageTableSize := fun j hj => List.mem_range.mp hj
    have h := @freeTable_freed s zero_page (freePagesInTable zero_page n) g S _ (fun g hg s hc => ih hg hc) hc (hc g hg) hlt
    rw [Set.insert_eq_of_mem hg] at h
    exact h

/-- A table that a slot of the root points to becomes free, since nothing before clears the slot. -/
theorem freeTable_frees (hfree : ∀ g ∈ S, ∀ s, Closed S s → Freed S s (free g s)) (hc : Closed S s) (htable : table ∉ S)
    (hlead : ∀ j < pageTableSize, ∀ g, branch (s.entries table j) = some g → g ∈ S) (hlt : ∀ j ∈ is, j < pageTableSize)
    (hnodup : is.Nodup) (hi : i ∈ is) (hg : branch (s.entries table i) = some g) :
    g ∈ (is.foldl (fun s i => freeStep zero_page free table i s) s).free := by
  induction is generalizing s with
  | nil => cases hi
  | cons j is ih =>
    obtain ⟨hj, hnodup⟩ := List.nodup_cons.mp hnodup
    obtain ⟨t, ht, hst, hdone⟩ := @freeStep_freed s j zero_page free table S hfree hc (hlead j (hlt j List.mem_cons_self))
    have hput : Freed (insert table S) s (t.put table j {}) :=
      (hst.mono (Set.subset_insert _ _)).trans ((put_freed t table j).mono (by simp))
    have hlead' : ∀ k < pageTableSize, ∀ g, branch ((t.put table j {}).entries table k) = some g → g ∈ S :=
      fun k hk g hg => hlead k hk g (hput.branch hg)
    have hlt' : ∀ k ∈ is, k < pageTableSize := fun k hk => hlt k (List.mem_cons_of_mem _ hk)
    rw [List.foldl_cons, ht]
    rcases List.mem_cons.mp hi with rfl | hi
    · exact (freeTable_freed hfree (hput.closed hc) hlead' hlt').free g (hdone g hg)
    · have hne : i ≠ j := fun heq => hj (heq ▸ hi)
      refine ih (hput.closed hc) hlead' hlt' hnodup hi ?_
      rw [put_slot _ _ _ _ hne, hst.outside table htable, hg]

end Teardown

section Failure
variable {root zero_page : ℕ} {debug : Bool}

def SmallPages (s : CloneMem) (n f : ℕ) : Prop := ∀ va p, walk s.toTableMem n f va = some p → p.1 = 0

/-- The source translates as before, to frames with the same words, keeps its table pages and
frames, and the free frames and the reference counts are those from before. -/
structure NoEffect (s t : CloneMem) (root : ℕ) : Prop where
  frames : ∀ va, (virtToEntry t.toTableMem root va).map PageTableEntry.paddr =
    (virtToEntry s.toTableMem root va).map PageTableEntry.paddr
  contents : ∀ va e, virtToEntry s.toTableMem root va = some e → t.entries e.paddr = s.entries e.paddr
  tables : ∀ x ∈ allTables s.toTableMem 2 root, x ∉ t.free
  data : ∀ va e, virtToEntry s.toTableMem root va = some e → e.paddr ∉ t.free
  released : t.free.Perm s.free
  counts : ∀ page, references t.refs page = references s.refs page

/-- If every address that was mapped is still mapped, then every leaf is still a leaf. -/
theorem leaf_kept (hlow : SmallPages s n f)
    (hfade : ∀ x ∈ allTables s.toTableMem n f, ∀ j, t.entries x j = {} ∨ Dims (s.entries x j) (t.entries x j))
    (hw : ∀ va, walk s.toTableMem n f va ≠ none → walk t.toTableMem n f va ≠ none) :
    ∀ x ∈ allTables s.toTableMem n f, ∀ j < pageTableSize, Leaf (s.entries x j) → Leaf (t.entries x j) := by
  induction n generalizing f with
  | zero =>
    intro x hx j hj hleaf
    rw [allTables, nodes, NodeTree.below, List.mem_singleton] at hx
    subst hx
    have hj' := vpn_joinAt_index 0 0 hj
    have hs := @walk_leaf s.toTableMem 0 x (joinAt 0 (j * 2 ^ (12 + 9 * 0)) 0) (by rw [hj', hleaf.1]) (by rw [hj', hleaf.2])
    have ht := hw _ (by rw [hs]; exact Option.some_ne_none _)
    simp only [walk_zero, hj'] at ht
    split_ifs at ht with hc
    · simpa [Leaf] using hc
    · exact absurd rfl ht
  | succ n ih =>
    intro x hx j hj hleaf
    rcases List.mem_cons.mp hx with rfl | hx
    · have hj' := vpn_joinAt_index (n + 1) 0 hj
      have hs := @walk_leaf s.toTableMem (n + 1) x (joinAt (n + 1) (j * 2 ^ (12 + 9 * (n + 1))) 0) (by rw [hj', hleaf.1])
        (by rw [hj', hleaf.2])
      have := hlow _ _ hs
      simp at this
    · rw [below_succ] at hx
      obtain ⟨i, hi, hx⟩ := List.mem_flatMap.mp hx
      have hi := List.mem_range.mp hi
      cases hg : branch (s.entries f i) with
      | none =>
        rw [hang_none hg] at hx
        cases hx
      | some g =>
        rw [hang_some hg] at hx
        have hsub := nodes_subset (n := n) hi hg
        have hvpn := fun lo => vpn_joinAt_index (n + 1) lo hi
        have hwalk : ∀ u : CloneMem, branch (u.entries f i) = some g → ∀ va,
            walk u.toTableMem (n + 1) f (joinAt (n + 1) (i * 2 ^ (12 + 9 * (n + 1))) va) = walk u.toTableMem n g va := by
          intro u hu va
          rw [walk_branch (by rw [hvpn, hu])]
          exact walk_vpn fun l hl => vpn_joinAt_low l _ _ (by omega)
        refine ih (fun va p hp => hlow _ p ((hwalk s hg va).trans hp)) (fun y hy => hfade y (List.mem_cons_of_mem _ (hsub hy)))
          (fun va hva => ?_) x hx j hj hleaf
        have hva' := hw (joinAt (n + 1) (i * 2 ^ (12 + 9 * (n + 1))) va) (by rwa [hwalk s hg va])
        rcases hfade f List.mem_cons_self i with hzero | hdims
        · rw [walk_invalid (by rw [hvpn, hzero])] at hva'
          exact absurd rfl hva'
        · rwa [hwalk t (hdims.branch hg) va] at hva'

theorem Fresh.ready (hp : Fresh s t p) (ht : Tidy s.toTableMem n f) :
    Ready n p f t ∧ (∀ x ∈ allTables s.toTableMem n f, t.entries x = s.entries x) := by
  have hin : p ∈ s.free := by
    rw [hp.free]
    exact List.mem_cons_self
  have hsame : ∀ x ∈ allTables s.toTableMem n f, t.entries x = s.entries x := fun x hx =>
    hp.same x fun heq => ht.apart (heq ▸ hx) hin
  have hnodes : allTables t.toTableMem n f = allTables s.toTableMem n f := nodes_congr hsame
  obtain ⟨htree, hlist, hout⟩ := List.nodup_append.mp ht.nodup
  rw [hp.free] at hlist hout
  refine ⟨⟨⟨?_, bounded_congr hsame ht.bounded⟩, ?_, (List.nodup_cons.mp hlist).1, hp.empty⟩, hsame⟩
  · rw [hnodes]
    exact List.nodup_append.mpr ⟨htree, (List.nodup_cons.mp hlist).2, fun x hx y hy =>
      hout x hx y (List.mem_cons_of_mem _ hy)⟩
  · rw [hnodes]
    exact fun hmem => ht.apart hmem hin

/-- A copy that stops after its first page is torn down with tables of the source. -/
theorem failed_copy_effect (ht : Tidy s.toTableMem 2 root) (hlow : SmallPages s 2 root) (hp : Fresh s s₀ p)
    (hc : Copied 2 p root s₀ t used) (hi : i < pageTableSize) (hg : g ∈ tables s₀.toTableMem 2 root)
    (hb : branch (t.entries p i) = some g) : ¬NoEffect s (deallocMemorySpace zero_page t p) root := by
  intro hno
  obtain ⟨hready, hsame⟩ := hp.ready ht
  have hnodes : allTables s₀.toTableMem 2 root = allTables s.toTableMem 2 root := nodes_congr hsame
  -- no leaf of the source has been lost
  have herased := (@freePagesInTable_freed t p Set.univ zero_page 3 trivial fun _ _ _ _ _ _ => trivial).erased
  have hfade : ∀ x ∈ allTables s.toTableMem 2 root, ∀ j,
      (deallocMemorySpace zero_page t p).entries x j = {} ∨
        Dims (s.entries x j) ((deallocMemorySpace zero_page t p).entries x j) := by
    intro x hx j
    rcases herased x j with heq | hzero
    · have hdims := hc.source x (by rwa [hnodes]) j
      rw [hsame x hx, ← heq] at hdims
      exact .inr hdims
    · exact .inl hzero
  have hkept := leaf_kept hlow hfade fun va hva hnone => by
    have hframe := hno.frames va
    simp only [virtToEntry, virtToEntryAt_eq_walk, hnone, Option.map_none] at hframe
    exact hva (Option.map_eq_none_iff.mp (Option.map_eq_none_iff.mp hframe.symm))
  have hnodem : ¬Demoted s₀ t 2 root := by
    rintro ⟨x, hx, j, hj, hleaf, hnot⟩
    rw [hnodes] at hx
    rw [hsame x hx] at hleaf
    have hstill := hkept x hx j hj hleaf
    rcases herased x j with heq | hzero
    · exact hnot (heq ▸ hstill)
    · have hv := hstill.1
      rw [show (deallocMemorySpace zero_page t p).entries x j = {} from hzero] at hv
      cases hv
  -- so the tables of the source and of the copy lead to each other only
  have hclosed : Closed {x | x ∈ tables s₀.toTableMem 2 root ∨ x ∈ used} t := by
    intro x hx j hj y hy
    rcases hx with hx | hx
    · have hxin : x ∈ allTables s₀.toTableMem 2 root := List.mem_cons_of_mem _ hx
      obtain ⟨hv, hperm, hpaddr⟩ := branch_eq_some.mp hy
      have hdims := hc.source x hxin j
      have hbranch : branch (s₀.entries x j) = some y := by
        refine branch_eq_some.mpr ⟨hdims.v ▸ hv, ?_, hdims.paddr ▸ hpaddr⟩
        by_contra hyes
        refine hnodem ⟨x, hxin, j, hj, ⟨hdims.v ▸ hv, by simpa using hyes⟩, fun hleaf => ?_⟩
        rw [hleaf.2] at hperm
        cases hperm
      exact .inl (mem_below_of_child hready.tidy.bounded hxin hj hbranch)
    · rcases hc.leads x (List.mem_cons_of_mem _ hx) j y hy with hin | hin | hin
      · exact .inl hin
      · exact .inr hin
      · exact absurd hin hnodem
  have hlead : ∀ j < pageTableSize, ∀ y, branch (t.entries p j) = some y →
      y ∈ {x | x ∈ tables s₀.toTableMem 2 root ∨ x ∈ used} := by
    intro j _ y hy
    rcases hc.leads p List.mem_cons_self j y hy with hin | hin | hin
    · exact .inl hin
    · exact .inr hin
    · exact absurd hin hnodem
  have hp' : p ∉ {x | x ∈ tables s₀.toTableMem 2 root ∨ x ∈ used} := by
    rintro (hin | hin)
    · exact hready.apart (List.mem_cons_of_mem _ hin)
    · exact hc.dest_unused hready hin
  have hlt : ∀ j ∈ List.range pageTableSize, j < pageTableSize := fun j hj => List.mem_range.mp hj
  have hfreed := @freeTable_frees t g i zero_page (freePagesInTable zero_page 2) p _ _
    (fun g hg s hc => freePagesInTable_freed zero_page 2 hg hc) hclosed hp' hlead hlt List.nodup_range
    (List.mem_range.mpr hi) hb
  refine hno.tables g ?_ (List.mem_cons_of_mem _ hfreed)
  rw [← hnodes]
  exact List.mem_cons_of_mem _ hg

/-- How a call ends: with a copy when the pages suffice, at an assertion, at once, or after a part of the copy. -/
theorem clone_cases (debug : Bool) (zero_page : ℕ) (ht : Tidy s.toTableMem 2 root) :
    ((tables s.toTableMem 2 root).length < s.free.length ∧ ∃ space t,
      cloneMemorySpace debug zero_page s root = some (some space, t)) ∨
    (s.free.length ≤ (tables s.toTableMem 2 root).length ∧
      ((debug = true ∧ cloneMemorySpace debug zero_page s root = none) ∨
      (debug = false ∧ s.free = [] ∧ cloneMemorySpace debug zero_page s root = some (none, s)) ∨
      ∃ p s₀ t used i g, cloneMemorySpace debug zero_page s root = some (none, deallocMemorySpace zero_page t p) ∧ Fresh s s₀ p ∧
        Copied 2 p root s₀ t used ∧ i < pageTableSize ∧ g ∈ tables s₀.toTableMem 2 root ∧ branch (t.entries p i) = some g)) := by
  rcases newTable_cases debug s with ⟨p, s₁, hnew, hp⟩ | ⟨hnil, ⟨hd, hnew⟩ | ⟨hd, hnew⟩⟩
  · obtain ⟨hready, hsame⟩ := hp.ready ht
    have hout := copy_outcome debug zero_page hready
    have hsize : (tables s₁.toTableMem 2 root).length = (tables s.toTableMem 2 root).length :=
      congrArg List.length (below_congr hsame)
    have hlen : s.free.length = s₁.free.length + 1 := by rw [hp.free, List.length_cons]
    rw [cloneMemorySpace, hnew]
    match hcopy : copyAllPagesAndAllocUsers debug zero_page 2 p root s₁, hout with
    | none, ⟨hd, hfew⟩ =>
      rw [hsize] at hfew
      exact .inr ⟨by omega, .inl ⟨hd, by simp only [hcopy]⟩⟩
    | some (true, s₂), ⟨used, hc, hused⟩ =>
      have hfree := congrArg List.length hc.free
      rw [List.length_append, hused, hsize] at hfree
      exact .inl ⟨by omega, p, s₂, by simp only [hcopy]⟩
    | some (false, s₂), ⟨_, hfew, used, hc, i, hi, g, hg, hb⟩ =>
      rw [hsize] at hfew
      exact .inr ⟨by omega, .inr (.inr ⟨p, s₁, s₂, used, i, g, by simp only [hcopy], hp, hc, hi, hg, hb⟩)⟩
  · exact .inr ⟨by rw [hnil]; exact Nat.zero_le _, .inl ⟨hd, by rw [cloneMemorySpace, hnew]⟩⟩
  · exact .inr ⟨by rw [hnil]; exact Nat.zero_le _, .inr (.inl ⟨hd, hnil, by rw [cloneMemorySpace, hnew]⟩)⟩

/-- The call returns `NULL` and has had no effect. -/
def FailsCleanly (debug : Bool) (zero_page : ℕ) (s : CloneMem) (root : ℕ) : Prop :=
  ∃ t, cloneMemorySpace debug zero_page s root = some (none, t) ∧ NoEffect s t root

/-- Pages suffice exactly when one more is free than the source has tables below its root. Else the
call fails cleanly only in a build without assertions and when not even its first page is free. -/
theorem failed_clone_iff (debug : Bool) (zero_page : ℕ) (ht : Tidy s.toTableMem 2 root) (hlow : SmallPages s 2 root)
    (hdata : ∀ va e, virtToEntry s.toTableMem root va = some e → e.paddr ∉ s.free) :
    ((∃ space t, cloneMemorySpace debug zero_page s root = some (some space, t)) ↔
      (tables s.toTableMem 2 root).length < s.free.length) ∧
    (s.free.length ≤ (tables s.toTableMem 2 root).length →
      (FailsCleanly debug zero_page s root ↔ debug = false ∧ s.free = [])) := by
  rcases clone_cases debug zero_page ht with ⟨hmany, space, t, hclone⟩ | ⟨hfew, h⟩
  · exact ⟨⟨fun _ => hmany, fun _ => ⟨space, t, hclone⟩⟩, fun hfew => by omega⟩
  · have hnospace : ¬∃ space t, cloneMemorySpace debug zero_page s root = some (some space, t) := by
      rintro ⟨space, t, hclone⟩
      rcases h with ⟨-, h⟩ | ⟨-, -, h⟩ | ⟨p, s₀, t', used, i, g, h, -⟩ <;> rw [h] at hclone <;> cases hclone
    refine ⟨⟨fun hc => absurd hc hnospace, fun hmany => by omega⟩, fun _ => ⟨?_, ?_⟩⟩
    · rintro ⟨t, hclone, hno⟩
      rcases h with ⟨-, h⟩ | ⟨hd, hnil, -⟩ | ⟨p, s₀, t', used, i, g, h, hp, hc, hi, hg, hb⟩
      · rw [h] at hclone
        cases hclone
      · exact ⟨hd, hnil⟩
      · rw [h, Option.some.injEq, Prod.mk.injEq] at hclone
        rw [← hclone.2] at hno
        exact absurd hno (failed_copy_effect ht hlow hp hc hi hg hb)
    · rintro ⟨rfl, hnil⟩
      rcases h with ⟨hd, -⟩ | ⟨-, -, h⟩ | ⟨p, s₀, t', used, i, g, -, hp, -⟩
      · cases hd
      · exact ⟨s, h, fun _ => rfl, fun _ _ _ => rfl, fun x hx => ht.apart hx, hdata, .refl _, fun _ => rfl⟩
      · rw [hp.free] at hnil
        cases hnil

/-- A space with one page mapped by `mapPage`, and the frames that are free. -/
def onePage (free : List ℕ) : CloneMem where
  toTableMem := (mapPage { entries := fun _ _ => {}, free := 2 :: 3 :: free } 1 0x1000 0x9000
    { r := true, w := true, u := true } 0).getD { entries := fun _ _ => {}, free := [] }
  refs := .empty

theorem onePage_facts {free : List ℕ} (hnodup : (1 :: 2 :: 3 :: free).Nodup) (h9 : 9 ∉ free) :
    Tidy (onePage free).toTableMem 2 1 ∧ SmallPages (onePage free) 2 1 ∧
      (∀ va e, virtToEntry (onePage free).toTableMem 1 va = some e → e.paddr ∉ (onePage free).free) ∧
      (onePage free).free = free ∧ (tables (onePage free).toTableMem 2 1).length = 2 := by
  have hroot : createPageTable { entries := fun _ _ => {}, free := 1 :: 2 :: 3 :: free } =
      some (1, { entries := fun _ _ => {}, free := 2 :: 3 :: free }) := by
    simp [createPageTable]
  have hgood := createPageTable_good hnodup hroot
  have hmap : step 1 { entries := fun _ _ => {}, free := 2 :: 3 :: free }
      (.map 0x1000 0x9000 { r := true, w := true, u := true } 0) = some (onePage free).toTableMem := rfl
  have hfree : (onePage free).free = free := rfl
  have hnext := hgood.next (by simp [Allowed]) hmap
  have hlevel : ∀ va p, walk (onePage free).toTableMem 2 1 va = some p →
      p = (0, leafEntry 0x9000 { r := true, w := true, u := true }) := by
    intro va p hp
    have hA := (hnext.refines va p.1 p.2).mp hp
    rw [stored_map] at hA
    split_ifs at hA with hc
    · rw [Prod.ext_iff]
      exact ⟨hc.1, (Option.some.inj hA).symm⟩
    · cases hA
  refine ⟨hnext.tidy, fun va p hp => by rw [hlevel va p hp], fun va e he => ?_, hfree, ?_⟩
  · rw [virtToEntry, virtToEntryAt_eq_walk, Option.map_eq_some_iff] at he
    obtain ⟨p, hp, rfl⟩ := he
    rw [hlevel va p hp, hfree]
    exact h9
  · have hlen := (mapPage_mapped hgood.tidy (by omega) hmap).perm.length_eq
    have hempty : tables { entries := fun _ _ => {}, free := 2 :: 3 :: free } 2 1 = [] := below_of_empty fun _ _ => rfl
    rw [List.length_append, hfree, hempty] at hlen
    simp only [List.nil_append, List.length_cons] at hlen
    omega

/-- Without a free page the call fails cleanly. -/
theorem failed_clone_noPage : FailsCleanly false 8 (onePage []) 1 := by
  obtain ⟨ht, hlow, hdata, hfree, -⟩ := @onePage_facts [] (by decide) (by decide)
  exact ((failed_clone_iff false 8 ht hlow hdata).2 (by rw [hfree]; exact Nat.zero_le _)).mpr ⟨rfl, hfree⟩

/-- With one free page, which becomes the new root, the call fails and the tables of the source are
released with those of the copy. -/
theorem failed_clone_onePage : (onePage [4]).free.length ≤ (tables (onePage [4]).toTableMem 2 1).length ∧
    ¬FailsCleanly false 8 (onePage [4]) 1 := by
  obtain ⟨ht, hlow, hdata, hfree, hlen⟩ := @onePage_facts [4] (by decide) (by decide)
  have hfew : (onePage [4]).free.length ≤ (tables (onePage [4]).toTableMem 2 1).length := by
    rw [hfree, hlen]
    decide
  refine ⟨hfew, ?_⟩
  rintro ⟨t, hclone, hno⟩
  rcases clone_cases false 8 ht with ⟨hmany, -⟩ | ⟨-, ⟨hd, -⟩ | ⟨-, hnil, -⟩ | ⟨p, s₀, t', used, i, g, h, hp, hc, hi, hg, hb⟩⟩
  · omega
  · cases hd
  · rw [hfree] at hnil
    cases hnil
  · rw [h, Option.some.injEq, Prod.mk.injEq] at hclone
    rw [← hclone.2] at hno
    exact failed_copy_effect ht hlow hp hc hi hg hb hno

end Failure

end SomeOs.TableHeap
