import SomeOs.Memory.Cutting
import SomeOs.Memory.Resolve

/-! # Parts of a buffer without faults

When no page of a memory space takes a fault, the loop over a buffer changes nothing. The parts
it finds follow each other, cover the bytes that can be accessed up to the first one that
cannot, and no two neighbours of them are one piece of physical memory.
-/
namespace SomeOs.MemSpace
open SparseArray PageRef Paging Scatter

structure Buffer where
  id : ℕ
  address : ℕ
  allow_all : Bool

def Buffer.ptr (b : Buffer) : VirtPtr := ⟨b.address, some b.id, b.allow_all⟩

def Accessible (s : MemState) (b : Buffer) (write : Bool) (i : ℕ) : Prop :=
  ∃ p ∈ s.walk b.id (b.address + i), Permitted p.2 write b.allow_all

instance (s : MemState) (b : Buffer) (write : Bool) (i : ℕ) : Decidable (Accessible s b write i) :=
  inferInstanceAs (Decidable (∃ p ∈ s.walk b.id (b.address + i), _))

def pageIndex (a i : ℕ) : ℕ := (a + i) / pageSize - a / pageSize

section Pages
variable {t : MemState} {T : ℕ → MemState} {v : ℕ → ℕ} {id a i j k n len va : ℕ}

theorem pageIndex_position (hk : position a j + k < position a (j + 1)) : pageIndex a (position a j - a + k) = j := by
  have hle := le_position a j
  rw [pageIndex, show a + (position a j - a + k) = position a j + k by omega, position_page hk, position_div]
  omega

theorem place_add (hne : t.place id va ≠ 0) (hpage : (va + k) / pageSize = va / pageSize) :
    t.place id (va + k) = t.place id va + k := by
  have hwalk : t.walk id (va + k) = t.walk id va := walk_samePage (samePage_of_div hpage)
  cases hw : t.walk id va with
  | none => simp [MemState.place, hw] at hne
  | some p => rw [place_of_walk (hwalk.trans hw), place_of_walk hw, leafAddr_add p hpage]

theorem pages_place (hT : ∀ j, v j ≠ 0 → v j = (T j).place id (position a j)) (hj : v j ≠ 0)
    (hk : position a j + k < position a (j + 1)) :
    (T (pageIndex a (position a j - a + k))).place id (a + (position a j - a + k)) = v j + k := by
  have hle := le_position a j
  have hplace := hT j hj
  rw [pageIndex_position hk, show a + (position a j - a + k) = position a j + k by omega, hplace]
  exact place_add (hplace ▸ hj) (position_page hk)

/-- The bytes up to the first page without an address are those that can be accessed. -/
theorem Reaches.extent {P : ℕ → Prop} (h : Reaches a (a + n) v 0 len)
    (hacc : ∀ j, position a j < a + n → (v j ≠ 0 ↔ P (position a j)))
    (hpage : ∀ x y, x / pageSize = y / pageSize → P x → P y) : Extent (fun i => P (a + i)) n len where
  le := by
    have := h.le
    omega
  all i hi := by
    obtain ⟨j, k, hjk, hk⟩ := exists_position a i
    have hle := le_position a j
    have hlen := h.le
    have hv := h.usable j (Nat.zero_le j) (by omega)
    rw [← hjk]
    exact hpage _ _ (position_page hk).symm ((hacc j (by omega)).mp hv)
  ends := by
    rcases h.ends with hend | ⟨j, -, hend, hzero⟩
    · exact Or.inl (by omega)
    · by_cases hlen : len = n
      · exact Or.inl hlen
      · have hle := le_position a j
        have hlen' := h.le
        have hpos : position a j = a + len := by omega
        rw [← hpos]
        exact Or.inr fun hP => (hacc j (by omega)).mpr hP hzero

end Pages

structure Plain (s : MemState) (id : ℕ) (write : Bool) : Prop where
  faults : ∀ va p, s.walk id va = some p → ¬TakesFault p.2 write
  /-- The field has 44 bits. -/
  narrow : ∀ va p, s.walk id va = some p → p.2.paddr < 2 ^ 44
  /-- There is no memory at the null pointer. -/
  null : ∀ va p, s.walk id va = some p → pageSize ≤ leafAddr p va

theorem Sane.plain {s : MemState} (hs : Sane s) (id : ℕ) : Plain s id false where
  faults _ _ _ h := by cases h.1
  narrow := hs.narrow id
  null := hs.null id

def plainCut (s : MemState) (b : Buffer) (write : Bool) (n fuel : ℕ) : List Part × ℕ :=
  cutParts b.address (b.address + n)
    (fun j => (virtToPhys s (some b.id) (position b.address j) write b.allow_all).1) fuel 0 0

section Plain
variable {s : MemState} {b : Buffer} {id n fuel : ℕ} {write : Bool}

/-- An access changes nothing. -/
theorem plain_access (hs : Plain s id write) (va : ℕ) (allow_all : Bool) :
    (virtToPhys s (some id) va write allow_all).2 = s ∧
    ((virtToPhys s (some id) va write allow_all).1 ≠ 0 ↔ ∃ p, s.walk id va = some p ∧ Permitted p.2 write allow_all) ∧
    ((virtToPhys s (some id) va write allow_all).1 ≠ 0 → (virtToPhys s (some id) va write allow_all).1 = s.place id va) ∧
    (virtToPhys s (some id) va write allow_all).1 < 2 ^ 57 := by
  rw [virtToPhys_of_small fun p hw hfault => absurd hfault (hs.faults va p hw)]
  cases hw : s.walk id va with
  | none => simp
  | some p =>
    have hno := hs.faults va p hw
    have hnull := hs.null va p hw
    have hne : leafAddr p va ≠ 0 := by
      intro hzero
      rw [hzero] at hnull
      exact absurd hnull (by decide)
    by_cases hperm : Permitted p.2 write allow_all
    · simp only [if_neg hno, if_pos hperm, place_of_walk hw]
      refine ⟨trivial, iff_of_true hne ⟨p, rfl, hperm⟩, fun _ => trivial, leafAddr_lt ?_ (hs.narrow va p hw)⟩
      unfold MemState.walk at hw
      obtain ⟨m, -, hm⟩ := Option.bind_eq_some_iff.mp hw
      exact walk_level hm
    · simp [hno, hperm]

theorem plain_parts (hs : Plain s b.id write) (hfuel : b.address + n < position b.address fuel) :
    ∃ len, Cut (fun i => s.place b.id (b.address + i)) 0 (plainCut s b write n fuel).1 len ∧
      Extent (Accessible s b write) n len := by
  have hT : ∀ j, (virtToPhys s (some b.id) (position b.address j) write b.allow_all).1 ≠ 0 →
      (virtToPhys s (some b.id) (position b.address j) write b.allow_all).1 = s.place b.id (position b.address j) :=
    fun j => (plain_access hs (position b.address j) b.allow_all).2.2.1
  obtain ⟨len, hcut, hreach, -⟩ := @cutParts_cut b.address (b.address + n) 0 0
    (fun j => (virtToPhys s (some b.id) (position b.address j) write b.allow_all).1) (fun i => s.place b.id (b.address + i))
    (Nat.le_add_right b.address n) (fun j k hj hk => pages_place (T := fun _ => s) hT hj hk) fuel (le_refl 0) (Or.inr rfl)
    (Or.inr rfl) (Consecutive.refl _ _ 0) (by rw [Nat.zero_add]; exact hfuel)
  rw [position_zero, min_eq_left (Nat.le_add_right _ _), Nat.sub_self] at hcut
  refine ⟨len, hcut, hreach.extent (P := fun x => ∃ p ∈ s.walk b.id x, Permitted p.2 write b.allow_all)
    (fun j _ => (plain_access hs (position b.address j) b.allow_all).2.1) ?_⟩
  rintro x y hpage ⟨p, hp, hperm⟩
  exact ⟨p, (walk_samePage (samePage_of_div hpage)).symm.trans hp, hperm⟩

theorem plain_loop (hs : Plain s b.id write) (hwrap : b.address + n + pageSize < 2 ^ 64)
    (hfuel : b.address + n < position b.address fuel) :
    partsLoop b.ptr (b.address + n) write (fuel + 1) b.address b.address s = some ((plainCut s b write n (fuel + 1)).1, s) := by
  have hpair : ∀ va, virtToPhys s (some b.id) va write b.allow_all = ((virtToPhys s (some b.id) va write b.allow_all).1, s) :=
    fun va => Prod.ext rfl (plain_access hs va b.allow_all).1
  have hA : Answers b.ptr write (fun _ => s) (fun j => (virtToPhys s (some b.id) (position b.address j) write b.allow_all).1) :=
    { step := fun j => hpair _
      again := fun i _ _ _ => hpair _
      zero := fun j hzero => (hpair _).trans (Prod.ext hzero rfl)
      narrow := fun j => (plain_access hs (position b.address j) b.allow_all).2.2.2 }
  exact partsLoop_eq hA hwrap fuel (le_refl 0) (Or.inr rfl) (Or.inr rfl) (Consecutive.refl _ _ 0)
    (by rw [Nat.zero_add]; exact hfuel)

theorem parts_eq (hwrap : b.address + n + pageSize < 2 ^ 64) (max_parts : ℕ) (write : Bool) :
    getVirtPtrParts fuel s b.ptr n max_parts write =
      (partsLoop b.ptr (b.address + n) write fuel b.address b.address s).map fun r => (r.1.length, r.1.take max_parts, r.2) := by
  unfold getVirtPtrParts
  change Option.map _ (partsLoop b.ptr ((b.address + n) % 2 ^ 64) write fuel b.address b.address s) = _
  rw [Nat.mod_eq_of_lt (by omega)]

theorem fuel_position (a : ℕ) (hfuel : n / pageSize + 3 ≤ fuel) : ∃ k, fuel = k + 2 ∧ a + n < position a (k + 1) := by
  rw [pageSize] at hfuel
  refine ⟨fuel - 2, by omega, ?_⟩
  rw [position_succ, pageSize]
  omega

/-- The parts follow each other from the start of the buffer to the end of the bytes that can be accessed. Each is one
piece of physical memory, and they are as long as they can be. -/
structure Partition (s : MemState) (m : ProcessMemory) (b : Buffer) (write : Bool) (n : ℕ) (parts : List Part) (len : ℕ) :
    Prop where
  extent : Extent (Accessible s b write) n len
  total : (parts.map Part.length).sum = len
  offsets : ∀ before part after, parts = before ++ part :: after → part.offset = (before.map Part.length).sum
  contiguous : ∀ part ∈ parts, ∀ k < part.length, unsafeVirtToPhys 2 m.mem (b.address + part.offset + k) = part.address + k
  merged : parts.IsChain fun p q => q.address ≠ p.address + p.length

/-- `getVirtPtrParts` and `virtPtrPartsDo` cut a buffer without copy-on-write pages into the same parts. -/
theorem parts_partition {m : ProcessMemory} (hm : get? s.spaces b.id = some m)
    (hcopy : ∀ va e, virtToEntry 2 m.mem va = some e → e.c = false)
    (hnarrow : ∀ va e, virtToEntry 2 m.mem va = some e → e.paddr < 2 ^ 44)
    (hnull : ∀ va, virtToEntry 2 m.mem va ≠ none → pageSize ≤ unsafeVirtToPhys 2 m.mem va)
    (hwrap : b.address + n + pageSize < 2 ^ 64) (hfuel : n / pageSize + 3 ≤ fuel) :
    ∃ parts len, Partition s m b write n parts len ∧
      (∀ max_parts, getVirtPtrParts fuel s b.ptr n max_parts write = some (parts.length, parts.take max_parts, s)) ∧
      ∀ (σ : Type) (callback : Part → σ → σ) (udata : σ), virtPtrPartsDo fuel s b.ptr n callback udata write =
        some (parts.foldl (fun udata part => callback part udata) udata, s) := by
  have hwalk : ∀ {va : ℕ} {p : ℕ × PageTableEntry}, s.walk b.id va = some p → Paging.walk 2 m.mem va = some p := by
    intro va p hw
    rwa [MemState.walk, hm] at hw
  have hplain : Plain s b.id write :=
    { faults := fun va p hw hfault => by
        have hc := hcopy va p.2 (entry_of_walk (hwalk hw))
        rw [hfault.2.2] at hc
        cases hc
      narrow := fun va p hw => hnarrow va p.2 (entry_of_walk (hwalk hw))
      null := fun va p hw => by
        rw [← unsafeVirtToPhys_of_walk (hwalk hw)]
        exact hnull va (by rw [entry_of_walk (hwalk hw)]; exact Option.some_ne_none _) }
  obtain ⟨k, rfl, hpos⟩ := fuel_position b.address hfuel
  have hpos' : b.address + n < position b.address (k + 2) := hpos.trans (position_lt_succ _ _)
  obtain ⟨len, hcut, hextent⟩ := plain_parts hplain hpos'
  have hloop := plain_loop hplain hwrap hpos
  refine ⟨(plainCut s b write n (k + 2)).1, len, ⟨hextent, ?_, ?_, ?_, cutParts_apart _⟩, fun max_parts => ?_,
    fun σ callback udata => ?_⟩
  · have := hcut.sum
    omega
  · intro before part after hparts
    rw [hparts] at hcut
    rw [hcut.at.1, Nat.zero_add]
  · intro part hpart i hi
    obtain ⟨before, after, hparts⟩ := List.append_of_mem hpart
    rw [hparts] at hcut
    rw [← place_eq_unsafe hm, Nat.add_assoc]
    exact hcut.at.2 i hi
  · rw [parts_eq hwrap, hloop]
    rfl
  · have hstop : (b.ptr.address + n) % 2 ^ 64 = b.address + n := Nat.mod_eq_of_lt (show b.address + n < 2 ^ 64 by omega)
    unfold virtPtrPartsDo
    rw [hstop, partsDoLoop_eq]
    change Option.map _ (partsLoop b.ptr (b.address + n) write (k + 1 + 1) b.address b.address s) = _
    rw [hloop]
    rfl

end Plain

theorem walk_single {f g va : ℕ} {pages : PageTable} {p : ℕ × PageTableEntry}
    (h : Paging.walk 2 [(0, .mk { v := true, paddr := f } [(0, .mk { v := true, paddr := g } pages)])] va = some p) :
    Paging.walk 0 pages va = some p := by
  have hget : ∀ {x : ℕ} {slot found : Slot}, get? [(0, slot)] x = some found → found = slot := by
    intro x slot found hfound
    have hmem := mem_of_get? hfound
    simp only [List.mem_singleton, Prod.mk.injEq] at hmem
    exact hmem.2
  unfold Paging.walk at h
  split at h
  · next hfound =>
    cases hget hfound
    unfold Paging.walk at h
    simp only [PageEntryBits.rwx, Bool.or_false, Bool.false_eq_true, if_true, if_false] at h
    split at h
    · next hfound =>
      cases hget hfound
      simpa [PageEntryBits.rwx] using h
    · cases h
  · cases h

theorem walk_last {va : ℕ} {pages : PageTable} {p : ℕ × PageTableEntry} (h : Paging.walk 0 pages va = some p) :
    p.1 = 0 ∧ ∃ next x, (x, Slot.mk p.2 next) ∈ pages := by
  unfold Paging.walk at h
  split at h
  · next hfound =>
    split_ifs at h
    cases h
    exact ⟨rfl, _, _, mem_of_get? hfound⟩
  · cases h

/-- A process with two pages that follow each other in physical memory and one elsewhere. -/
def threePages : ProcessMemory where
  root := 7
  mem := [(0, .mk { v := true, paddr := 8 } [(0, .mk { v := true, paddr := 9 }
    [(1, .mk { v := true, r := true, w := true, u := true, a := true, d := true, paddr := 10 } []),
     (2, .mk { v := true, r := true, w := true, u := true, a := true, d := true, paddr := 11 } []),
     (3, .mk { v := true, r := true, w := true, u := true, a := true, d := true, paddr := 20 } [])])])]
  start_brk := 16384
  brk := 16384
  loading := false

def plainMachine : MemState where
  spaces := [(0, threePages)]
  ref_count := PageRefTable.empty
  zero_page := 6
  free := []
  phys := fun _ => 0

theorem threePages_walk {va : ℕ} {p : ℕ × PageTableEntry} (h : Paging.walk 2 threePages.mem va = some p) :
    p.1 = 0 ∧ p.2.c = false ∧ 10 ≤ p.2.paddr ∧ p.2.paddr ≤ 20 := by
  obtain ⟨hlevel, next, x, hmem⟩ := walk_last (walk_single h)
  simp only [List.mem_cons, Prod.mk.injEq, Slot.mk.injEq, List.not_mem_nil, or_false] at hmem
  rcases hmem with ⟨-, hp, -⟩ | ⟨-, hp, -⟩ | ⟨-, hp, -⟩ <;> simp [hlevel, hp]

/-- A buffer of three pages that ends with the last one is cut once. -/
theorem parts_partition_threePages : ∃ parts len, Partition plainMachine threePages ⟨0, 4104, false⟩ true 12280 parts len ∧
    getVirtPtrParts 5 plainMachine (Buffer.ptr ⟨0, 4104, false⟩) 12280 0 true = some (parts.length, [], plainMachine) ∧
    parts.reverse = [⟨81920, 8184, 4096⟩, ⟨40968, 0, 8184⟩] := by
  have hentry : ∀ {va : ℕ} {e : PageTableEntry}, virtToEntry 2 threePages.mem va = some e →
      Paging.walk 2 threePages.mem va = some (0, e) ∧ e.c = false ∧ 10 ≤ e.paddr ∧ e.paddr ≤ 20 := by
    intro va e he
    obtain ⟨level, hw⟩ := walk_of_entry he
    obtain ⟨rfl, hp⟩ := threePages_walk hw
    exact ⟨hw, hp⟩
  obtain ⟨parts, len, hparts, hget, hdo⟩ := @parts_partition plainMachine ⟨0, 4104, false⟩ 12280 5 true threePages rfl
    (fun va e he => (hentry he).2.1) (fun va e he => by have := (hentry he).2.2; omega)
    (fun va hva => by
      obtain ⟨e, he⟩ := Option.ne_none_iff_exists'.mp hva
      obtain ⟨hw, -, hlow, -⟩ := hentry he
      rw [unsafeVirtToPhys_of_walk hw, leafAddr_zero]
      simp only [pageSize]
      omega)
    (by decide) (by decide)
  refine ⟨parts, len, hparts, hget 0, ?_⟩
  have hlist := congrArg (Option.map Prod.fst) (hdo (List Part) List.cons [])
  have hrun : (virtPtrPartsDo 5 plainMachine (Buffer.ptr ⟨0, 4104, false⟩) 12280 List.cons [] true).map Prod.fst =
      some [⟨81920, 8184, 4096⟩, ⟨40968, 0, 8184⟩] := by decide +kernel
  rw [hrun, Option.map_some, List.foldl_flip_cons_eq_append', List.append_nil] at hlist
  exact (Option.some.inj hlist).symm

end SomeOs.MemSpace
