import SomeOs.Memory.Copies

/-! # Integers in a memory space

An integer is read and written through the address of its first byte alone. This is the same as
byte by byte when the other bytes follow in physical memory and, for a write, when no fault has
to be taken but at the start of a page.
-/
namespace SomeOs.Paging
open SparseArray

theorem vpn_mod {level : ℕ} (hl : level ≤ 2) (va : ℕ) : vpn level (va % 2 ^ 64) = vpn level va := by
  obtain rfl | rfl | rfl : level = 0 ∨ level = 1 ∨ level = 2 := by omega
  · simp only [vpn]
    omega
  · simp only [vpn]
    omega
  · simp only [vpn]
    omega

theorem samePage_mod (va : ℕ) : SamePage 2 (va % 2 ^ 64) va := fun _ hl => vpn_mod (by omega) va

theorem SamePage.setEntry_eq {n va vaddr : ℕ} (h : SamePage n va vaddr) (table : PageTable) (new : PageTableEntry) :
    setEntry n table va new = setEntry n table vaddr new := by
  induction n generalizing table with
  | zero => simp only [setEntry, samePage_zero.mp h]
  | succ n ih =>
    obtain ⟨htop, hbelow⟩ := samePage_succ.mp h
    simp only [setEntry, htop, ih hbelow]

theorem leafAddr_mod64 {p : ℕ × PageTableEntry} (hl : p.1 ≤ 2) (va : ℕ) : leafAddr p (va % 2 ^ 64) = leafAddr p va := by
  obtain ⟨level, e⟩ := p
  have hdvd : pageSize * 2 ^ (9 * level) ∣ 2 ^ 64 := by
    dsimp only at hl
    obtain rfl | rfl | rfl : level = 0 ∨ level = 1 ∨ level = 2 := by omega
    all_goals decide
  simp only [leafAddr, Nat.mod_mod_of_dvd va hdvd]

end SomeOs.Paging

namespace SomeOs.MemSpace
open SparseArray PageRef Paging Scatter ByteStore

theorem virtToPhys_mod {s : MemState} (hs : Sane s) (id va : ℕ) (write allow_all : Bool) :
    virtToPhys s (some id) (va % 2 ^ 64) write allow_all = virtToPhys s (some id) va write allow_all := by
  rw [virtToPhys_walk hs, virtToPhys_walk hs, walk_samePage (samePage_mod va)]
  cases hw : s.walk id va with
  | none => rfl
  | some p =>
    have hlevel : p.1 ≤ 2 := by
      obtain ⟨m, -, hm⟩ := Option.bind_eq_some_iff.mp hw
      exact walk_level hm
    have hfault : s.fault id (va % 2 ^ 64) p.2 = s.fault id va p.2 := by
      unfold MemState.fault faulted
      simp only [(samePage_mod va).setEntry_eq]
    simp only [hfault, leafAddr_mod64 hlevel]

def Straddles (a n : ℕ) : Prop := pageSize < a % pageSize + n

instance (a n : ℕ) : Decidable (Straddles a n) := inferInstanceAs (Decidable (_ < _))

def Follows (s : MemState) (id a : ℕ) : Prop := s.place id (position a 1) = s.place id a + (position a 1 - a)

def Faults (s : MemState) (id va : ℕ) : Prop := ∃ p ∈ s.walk id va, TakesFault p.2 true

def ReadsRight (s : MemState) (b : Buffer) (size : ℕ) : Prop :=
  ∀ phys, readInt { s with phys := phys } b.ptr size = readMisaligned { s with phys := phys } b.ptr size

structure WritesExactly (s : MemState) (b : Buffer) (n value : ℕ) (t : MemState) : Prop where
  bytes : ∀ i < n, t.phys (t.place b.id (b.address + i)) = byteAt value i
  changes : Changes s b n t

def WritesRight (s : MemState) (b : Buffer) (size : ℕ) : Prop :=
  ∀ value < 2 ^ 64, writeInt s b.ptr size value = writeMisaligned s b.ptr size value ∧
    WritesExactly s b (size / 8) value (writeInt s b.ptr size value)

section Places
variable {s : MemState} {id a n k : ℕ}

theorem position_one (a : ℕ) : position a 1 = a + (pageSize - a % pageSize) := by
  have := position_one_sub a
  have := le_position a 1
  omega

/-- The bytes of an integer are consecutive when its pages are. -/
theorem places_iff (hn : n ≤ pageSize) (hmapped : ∀ k < n, s.place id (a + k) ≠ 0) :
    (∀ k < n, s.place id (a + k) = s.place id a + k) ↔ (Straddles a n → Follows s id a) := by
  have hone := position_one a
  have hmod := Nat.mod_lt a (show 0 < pageSize by decide)
  constructor
  · intro h hcross
    have hlt : pageSize - a % pageSize < n := by
      unfold Straddles at hcross
      omega
    unfold Follows
    rw [hone, h _ hlt]
    omega
  · intro h k hk
    have hfirst := hmapped 0 (by omega)
    rw [Nat.add_zero] at hfirst
    by_cases hin : k < pageSize - a % pageSize
    · apply place_add hfirst
      exact position_page (a := a) (j := 0) (by rw [position_zero, Nat.zero_add, hone]; omega)
    · have hcross : Straddles a n := by
        unfold Straddles
        omega
      have hfollow := h hcross
      unfold Follows at hfollow
      have hnext := hmapped (pageSize - a % pageSize) (by omega)
      rw [← hone] at hnext
      obtain ⟨j, rfl⟩ := Nat.exists_eq_add_of_le (not_lt.mp hin)
      rw [← Nat.add_assoc, ← hone, place_add hnext, hfollow]
      · omega
      · refine position_page (j := 1) ?_
        have hone' := position_aligned (a := a) one_ne_zero
        have hpos := position_next a 1
        have htwo : position a 2 = position a 1 + pageSize := by
          rw [← hpos]
          simp only [pageSize] at hone' ⊢
          omega
        rw [htwo]
        omega

end Places

/-- The pointer is at the byte `k` of the buffer. -/
structure At (addr : VirtPtr) (b : Buffer) (k : ℕ) : Prop where
  table : addr.table = some b.id
  allow_all : addr.allow_all = b.allow_all
  address : addr.address % 2 ^ 64 = (b.address + k) % 2 ^ 64

section Pointers
variable {s t : MemState} {b : Buffer} {addr : VirtPtr} {k w size value : ℕ}

theorem at_ptr (b : Buffer) : At b.ptr b 0 := ⟨rfl, rfl, rfl⟩

theorem At.next (h : At addr b k) : At addr.next b (k + 1) where
  table := h.table
  allow_all := h.allow_all
  address := by
    have := h.address
    simp only [VirtPtr.next]
    omega

theorem At.virtToPhys_eq (hs : Sane s) (h : At addr b k) (write : Bool) :
    virtToPhys s addr.table addr.address write addr.allow_all = virtToPhys s (some b.id) (b.address + k) write b.allow_all := by
  rw [h.table, h.allow_all, ← virtToPhys_mod hs, h.address, virtToPhys_mod hs]

theorem Sane.setPhys (hs : Sane s) (phys : ℕ → UInt8) : Sane { s with phys := phys } where
  small := hs.small
  narrow := hs.narrow
  free_narrow := hs.free_narrow
  null := hs.null
  free_null := hs.free_null

theorem Stable.setPhys {id va : ℕ} {allow_all : Bool} (ht : Sane t) (h : Stable t id va allow_all w) (phys : ℕ → UInt8) :
    Stable { t with phys := phys } id va allow_all w := by
  rcases h.cases ht with ⟨hno, rfl⟩ | ⟨p, hw, hfault, hperm, rfl⟩
  · exact stable_of_refused (ht.setPhys phys) hno
  · exact stable_of_granted (ht.setPhys phys) hw hfault hperm

theorem read_answer (hs : Sane s) (hacc : Accessible s b false k) :
    (virtToPhys s (some b.id) (b.address + k) false b.allow_all).1 = s.place b.id (b.address + k) ∧
      s.place b.id (b.address + k) ≠ 0 := by
  obtain ⟨-, hiff, hplace, -⟩ := plain_access (hs.plain b.id) (b.address + k) b.allow_all
  have hne := hiff.mpr hacc
  rw [hplace hne] at hne
  exact ⟨hplace (hiff.mpr hacc), hne⟩

theorem readInt_eq (hs : Sane s) (h : At addr b k) (hacc : Accessible s b false k) (size : ℕ) :
    readInt s addr size = ofBytes (read s.phys (s.place b.id (b.address + k)) (accessWidth size)) := by
  obtain ⟨hanswer, hne⟩ := read_answer hs hacc
  unfold readInt
  rw [h.virtToPhys_eq hs, hanswer, if_neg hne]

def bufferBytes (s : MemState) (b : Buffer) (n : ℕ) : List UInt8 :=
  (List.range n).map fun i => s.phys (s.place b.id (b.address + i))

theorem bufferBytes_succ (s : MemState) (b : Buffer) (n : ℕ) :
    bufferBytes s b (n + 1) = bufferBytes s b n ++ [s.phys (s.place b.id (b.address + n))] := by
  simp [bufferBytes, List.range_succ]

theorem readMisalignedLoop_eq (hs : Sane s) {n : ℕ} (h : At addr b k) (hacc : ∀ i < k + n, Accessible s b false i) :
    readMisalignedLoop s n addr (8 * k) (ofBytes (bufferBytes s b k)) = ofBytes (bufferBytes s b (k + n)) := by
  induction n generalizing addr k with
  | zero => rfl
  | succ n ih =>
    have hbyte : readInt s addr 8 = (s.phys (s.place b.id (b.address + k))).toNat := by
      rw [readInt_eq hs h (hacc k (by omega))]
      simp [accessWidth, ByteStore.read, ofBytes]
    have hlen : (bufferBytes s b k).length = k := by simp [bufferBytes]
    have hsnoc := ofBytes_snoc (bufferBytes s b k) (s.phys (s.place b.id (b.address + k)))
    rw [hlen, ← bufferBytes_succ] at hsnoc
    rw [readMisalignedLoop, hbyte, ← hsnoc, show 8 * k + 8 = 8 * (k + 1) by omega,
      ih h.next (fun i hi => hacc i (by omega)), show k + 1 + n = k + (n + 1) by omega]

def IntSize (size : ℕ) : Prop := size = 8 ∨ size = 16 ∨ size = 32 ∨ size = 64

instance (size : ℕ) : Decidable (IntSize size) := inferInstanceAs (Decidable (_ ∨ _))

theorem IntSize.width (h : IntSize size) :
    accessWidth size = size / 8 ∧ (size + 7) / 8 = size / 8 ∧ 0 < size / 8 ∧ size / 8 ≤ 8 := by
  rcases h with rfl | rfl | rfl | rfl <;> decide

/-- Integers are read right exactly when their bytes are consecutive. -/
theorem readsRight_iff (hs : Sane s) (hsize : IntSize size) (hacc : ∀ i < size / 8, Accessible s b false i) :
    ReadsRight s b size ↔ (Straddles b.address (size / 8) → Follows s b.id b.address) := by
  obtain ⟨hwidth, hrounds, hpos, hle⟩ := hsize.width
  have hwhole : ∀ phys, readInt { s with phys := phys } b.ptr size = ofBytes (read phys (s.place b.id b.address) (size / 8)) := by
    intro phys
    rw [readInt_eq (hs.setPhys phys) (at_ptr b) (hacc 0 hpos), hwidth]
    rfl
  have hsplit : ∀ phys, readMisaligned { s with phys := phys } b.ptr size =
      ofBytes ((List.range (size / 8)).map fun i => phys (s.place b.id (b.address + i))) := by
    intro phys
    have hloop := readMisalignedLoop_eq (k := 0) (hs.setPhys phys) (at_ptr b) fun i hi => hacc i (Nat.zero_add (size / 8) ▸ hi)
    rw [Nat.zero_add] at hloop
    rw [readMisaligned, hrounds]
    exact hloop
  rw [← places_iff (hle.trans (by decide)) fun k hk => (read_answer hs (hacc k hk)).2]
  constructor
  · intro h k hk
    by_contra hne
    have heq := h fun x => if x = s.place b.id (b.address + k) then 1 else 0
    rw [hwhole, hsplit] at heq
    have hbytes := congrArg (fun l => l[k]?) (ofBytes_inj (by simp) heq)
    have hother : s.place b.id b.address + k ≠ s.place b.id (b.address + k) := fun h => hne h.symm
    simp [ByteStore.read, hk, hother] at hbytes
  · intro h phys
    rw [hwhole, hsplit]
    congr 1
    apply List.map_congr_left
    intro i hi
    rw [h i (List.mem_range.mp hi)]

end Pointers

section Writes
variable {s t : MemState} {b : Buffer} {addr : VirtPtr} {k n w size value : ℕ}

theorem writeInt_stable (ht : Sane t) (h : At addr b k) (hw : Stable t b.id (b.address + k) b.allow_all w) (hne : w ≠ 0)
    (size value : ℕ) : writeInt t addr size value = { t with phys := write t.phys w (intBytes (accessWidth size) value) } := by
  unfold writeInt
  rw [h.virtToPhys_eq ht, hw, if_pos hne]

/-- Bytes with stable answers that follow each other are written to these. -/
theorem writeMisalignedLoop_stable (ht : Sane t) (h : At addr b k) (hne : w ≠ 0)
    (hstable : ∀ j < n, Stable t b.id (b.address + (k + j)) b.allow_all (w + j)) :
    writeMisalignedLoop value n addr (8 * k) t = { t with phys := write t.phys w (bytesFrom value k n) } := by
  induction n generalizing addr k w t with
  | zero =>
    show t = { t with phys := write t.phys w [] }
    rw [write_nil]
  | succ n ih =>
    have hbyte : intBytes (accessWidth 8) ((value >>> (8 * k)) &&& 0xff) = [byteAt value k] := by
      show [byteAt _ 0] = _
      rw [byteAt_shift]
    have hone := writeInt_stable ht h (hstable 0 (by omega)) hne 8 ((value >>> (8 * k)) &&& 0xff)
    rw [hbyte, Nat.add_zero] at hone
    have hrest : ∀ j < n, Stable { t with phys := write t.phys w [byteAt value k] } b.id (b.address + (k + 1 + j)) b.allow_all
        (w + 1 + j) := by
      intro j hj
      rw [show k + 1 + j = k + (j + 1) by omega, show w + 1 + j = w + (j + 1) by omega]
      exact (hstable (j + 1) (by omega)).setPhys ht _
    rw [writeMisalignedLoop, hone, show 8 * k + 8 = 8 * (k + 1) by omega,
      ih (ht.setPhys _) h.next (Nat.succ_ne_zero w) hrest, bytesFrom_succ,
      write_cons t.phys w _ (bytesFrom value (k + 1) n)]

/-- The access to the first byte leads to memory that holds the whole integer. -/
structure Settles (s : MemState) (b : Buffer) (n w : ℕ) (t : MemState) : Prop where
  answer : virtToPhys s (some b.id) b.address true b.allow_all = (w, t)
  ne : w ≠ 0
  sane : Sane t
  ready : Ready s b n t
  stable : ∀ i < n, Stable t b.id (b.address + i) b.allow_all (w + i)

theorem Settles.writeInt_eq (hs : Sane s) (h : Settles s b n w t) (size value : ℕ) :
    writeInt s b.ptr size value = { t with phys := write t.phys w (intBytes (accessWidth size) value) } := by
  have hptr := (at_ptr b).virtToPhys_eq hs true
  rw [Nat.add_zero, h.answer] at hptr
  unfold writeInt
  rw [hptr, if_pos h.ne]

theorem Settles.place (h : Settles s b n w t) {i : ℕ} (hi : i < n) : t.place b.id (b.address + i) = w + i :=
  (stable_place h.sane (h.stable i hi) (by have := h.ne; omega)).symm

theorem Settles.writesRight (hs : Kept s) (hsize : IntSize size) (h : Settles s b (size / 8) w t) : WritesRight s b size := by
  obtain ⟨hwidth, hrounds, hpos, -⟩ := hsize.width
  intro value _
  have hwhole := h.writeInt_eq hs.toSane size value
  rw [hwidth] at hwhole
  constructor
  · -- The first byte takes the fault, if there is one, and all others are stable after it.
    obtain ⟨m, hm⟩ := Nat.exists_eq_succ_of_ne_zero hpos.ne'
    have hone := h.writeInt_eq hs.toSane 8 ((value >>> 0) &&& 0xff)
    have hbyte : intBytes (accessWidth 8) ((value >>> 0) &&& 0xff) = [byteAt value 0] := by
      show [byteAt _ 0] = _
      rw [← byteAt_shift value 0]
    rw [hbyte] at hone
    have hrest : ∀ j < m, Stable { t with phys := write t.phys w [byteAt value 0] } b.id (b.address + (1 + j)) b.allow_all
        (w + 1 + j) := by
      intro j hj
      rw [Nat.add_assoc w]
      exact (h.stable (1 + j) (by omega)).setPhys h.sane _
    rw [hwhole, writeMisaligned, hrounds, hm, writeMisalignedLoop, hone,
      writeMisalignedLoop_stable (k := 1) (h.sane.setPhys _) (at_ptr b).next (Nat.succ_ne_zero w) hrest,
      ← bytesFrom_zero, bytesFrom_succ, write_cons t.phys w _ (bytesFrom value (0 + 1) m)]
  · rw [hwhole]
    constructor
    · intro i hi
      show write t.phys w _ (t.place b.id (b.address + i)) = _
      rw [h.place hi, write_intBytes_inside hi]
    · apply h.ready.changes hs
      intro x hx
      apply write_intBytes_outside
      by_contra hin
      have := hx (x - w) (by omega)
      rw [h.place (by omega)] at this
      omega

/-- Only the first page may take a fault, at its first byte, and a second one follows it in memory. -/
def WholeWrite (s : MemState) (b : Buffer) (n : ℕ) : Prop :=
  (Faults s b.id b.address → b.address % pageSize = 0) ∧
    (Straddles b.address n → ¬Faults s b.id (position b.address 1) ∧ Follows s b.id b.address)

theorem write_answer (hs : Kept s) (hn : 0 < n) (hacc : Accessible s b true 0) (henough : Enough s b n) :
    (∃ p, s.walk b.id b.address = some p ∧ ¬TakesFault p.2 true ∧ Permitted p.2 true b.allow_all ∧
      virtToPhys s (some b.id) b.address true b.allow_all = (leafAddr p b.address, s)) ∨
    ∃ e, s.walk b.id b.address = some (0, e) ∧ TakesFault e true ∧ ¬(NeedsPage s e ∧ s.free = []) ∧
      virtToPhys s (some b.id) b.address true b.allow_all = (pageAddr (faultFrame s e), s.fault b.id b.address e) := by
  rcases access_cases hs.toSane b.id b.address b.allow_all with ⟨hno, -⟩ | h
  · obtain ⟨p, hp, hperm⟩ := hacc
    rw [Nat.add_zero] at hp
    rcases hno p hp with hno | ⟨hfault, hneeds, hnil⟩
    · exact absurd hperm hno
    · have := henough 0 (by rw [position_zero]; omega) ⟨p, hp, hfault, hneeds⟩
      rw [hnil] at this
      exact absurd this (Nat.not_lt_zero _)
  · exact h

theorem page_cases {a i : ℕ} (hi : i < pageSize) :
    (a + i) / pageSize = a / pageSize ∧ i < pageSize - a % pageSize ∨
      (a + i) / pageSize = position a 1 / pageSize ∧ pageSize - a % pageSize ≤ i := by
  rw [position_div]
  simp only [pageSize] at *
  omega

theorem settles_of_safe (hs : Kept s) (hn : 0 < n) (hle : n ≤ 8) (hacc : ∀ i < n, Accessible s b true i) (henough : Enough s b n)
    (hsafe : WholeWrite s b n) : ∃ w t, Settles s b n w t := by
  have hmod := Nat.mod_lt b.address (show 0 < pageSize by decide)
  have hsize : 8 < pageSize := by decide
  rcases write_answer hs hn (hacc 0 hn) henough with ⟨p, hw, hfault, -, hr⟩ | ⟨e, hw, hfault, hnone, hr⟩
  · -- No page takes a fault.
    have hnofault : ∀ i < n, ∀ q, s.walk b.id (b.address + i) = some q → ¬TakesFault q.2 true := by
      intro i hi q hq
      rcases page_cases (a := b.address) (show i < pageSize by omega) with ⟨hpage, -⟩ | ⟨hpage, hge⟩
      · rw [walk_samePage (samePage_of_div hpage), hw] at hq
        cases hq
        exact hfault
      · have hcross : Straddles b.address n := by
          unfold Straddles
          omega
        rw [walk_samePage (samePage_of_div hpage)] at hq
        exact fun h => (hsafe.2 hcross).1 ⟨q, hq, h⟩
    have hstable : ∀ i < n, Stable s b.id (b.address + i) b.allow_all (s.place b.id (b.address + i)) ∧
        s.place b.id (b.address + i) ≠ 0 := by
      intro i hi
      obtain ⟨q, hq, hperm⟩ := hacc i hi
      rw [place_of_walk hq]
      refine ⟨stable_of_granted hs.toSane hq (hnofault i hi q hq) hperm, fun hzero => ?_⟩
      have := hs.null _ _ q hq
      rw [hzero] at this
      exact absurd this (by decide)
    have hplaces := (places_iff (by omega) fun i hi => (hstable i hi).2).mpr fun hcross => (hsafe.2 hcross).2
    have hfirst := (hstable 0 hn).2
    rw [Nat.add_zero] at hfirst
    refine ⟨s.place b.id b.address, s, ⟨?_, hfirst, hs.toSane, ⟨Resolved.refl _ _, ?_, hnofault⟩, fun i hi => ?_⟩⟩
    · rw [hr, place_of_walk hw]
    · intro i hi
      obtain ⟨q, hq, -⟩ := hacc i hi
      exact Option.isSome_iff_exists.mpr ⟨q, hq⟩
    · rw [← hplaces i hi]
      exact (hstable i hi).1
  · -- The first page takes a fault, and the integer starts with it.
    have hzero := hsafe.1 ⟨_, hw, hfault⟩
    have hsame : ∀ i < n, SamePage 2 (b.address + i) b.address := by
      intro i hi
      apply samePage_of_div
      rcases page_cases (a := b.address) (show i < pageSize by omega) with ⟨hpage, -⟩ | ⟨-, hge⟩
      · exact hpage
      · omega
    have hwalk : ∀ i < n, (s.fault b.id b.address e).walk b.id (b.address + i) = some (0, writableCopy e (faultFrame s e)) := by
      intro i hi
      rw [fault_walk hw, if_pos ⟨rfl, hsame i hi⟩]
    have hnofault : ¬TakesFault (writableCopy e (faultFrame s e)) true := by simp [TakesFault, writableCopy]
    have hframe := faultFrame_ne_zero hs.toSane hw hnone
    refine ⟨pageAddr (faultFrame s e), s.fault b.id b.address e, ⟨hr, ?_, hs.toSane.fault hw hnone, ⟨?_, ?_, ?_⟩, fun i hi => ?_⟩⟩
    · simp only [pageAddr, pageSize]
      omega
    · exact (Resolved.refl _ _).fault hs.toZeroPage hw hfault hnone
    · intro i hi
      rw [walk_samePage (hsame i hi), hw]
      rfl
    · intro i hi q hq
      rw [hwalk i hi] at hq
      cases hq
      exact hnofault
    · have hstable := stable_of_granted (hs.toSane.fault hw hnone) (hwalk i hi) hnofault
        (show Permitted _ true b.allow_all by simp [Permitted, writableCopy])
      have hoff : (b.address + i) % pageSize = i := by
        simp only [pageSize] at *
        omega
      rw [leafAddr_zero, hoff] at hstable
      exact hstable

theorem write_misses (phys : ℕ → UInt8) (n : ℕ) {x : ℕ} (hne : x ≠ w + k) (hk : k < 8) :
    ¬∀ v < 2 ^ 64, write phys w (intBytes n v) x = byteAt v k := by
  intro h
  have hlt : 256 ^ k < 2 ^ 64 := by
    rw [show 2 ^ 64 = 256 ^ 8 by rfl]
    exact Nat.pow_lt_pow_right (by decide) hk
  have hone := h (256 ^ k) hlt
  rw [byteAt_pow k k, if_pos rfl] at hone
  by_cases hin : w ≤ x ∧ x < w + n
  · obtain ⟨j, rfl⟩ := Nat.exists_eq_add_of_le hin.1
    rw [write_intBytes_inside (by omega), byteAt_pow, if_neg (by omega)] at hone
    cases hone
  · have hzero := h 0 (by decide)
    rw [write_intBytes_outside (by omega), byteAt_zero] at hzero
    rw [write_intBytes_outside (by omega), hzero] at hone
    cases hone

theorem writeMisalignedLoop_add (value m n : ℕ) (addr : VirtPtr) (i : ℕ) (s : MemState) :
    writeMisalignedLoop value (m + n) addr i s =
      writeMisalignedLoop value n (VirtPtr.next^[m] addr) (i + 8 * m) (writeMisalignedLoop value m addr i s) := by
  induction m generalizing addr i s with
  | zero => rw [Nat.zero_add]; rfl
  | succ m ih =>
    rw [show m + 1 + n = m + n + 1 by omega, writeMisalignedLoop, ih, show i + 8 + 8 * m = i + 8 * (m + 1) by omega]
    rfl

theorem At.iterate (h : At addr b k) (m : ℕ) : At (VirtPtr.next^[m] addr) b (k + m) := by
  induction m generalizing addr k with
  | zero => exact h
  | succ m ih =>
    have := ih h.next
    rwa [show k + 1 + m = k + (m + 1) by omega] at this

theorem writeInt_state (ht : Sane t) (h : At addr b k) (size value : ℕ) : ∃ phys, writeInt t addr size value =
    { (virtToPhys t (some b.id) (b.address + k) true b.allow_all).2 with phys := phys } := by
  unfold writeInt
  rw [h.virtToPhys_eq ht]
  dsimp only
  split_ifs
  · exact ⟨_, rfl⟩
  · exact ⟨_, rfl⟩

theorem writeInt_faults (ht : Sane t) (h : At addr b k) (size value : ℕ) :
    Sane (writeInt t addr size value) ∧ ∀ va, ¬Faults t b.id va → ¬Faults (writeInt t addr size value) b.id va := by
  obtain ⟨phys, hstate⟩ := writeInt_state ht h size value
  rw [hstate]
  refine ⟨(ht.access b.id (b.address + k) b.allow_all).setPhys phys, fun va hno => ?_⟩
  rintro ⟨p, hp, hfault⟩
  change (virtToPhys t (some b.id) (b.address + k) true b.allow_all).2.walk b.id va = some p at hp
  rcases access_cases ht b.id (b.address + k) b.allow_all with ⟨-, hr⟩ | ⟨q, -, -, -, hr⟩ | ⟨e, hw, -, -, hr⟩
  · rw [hr] at hp
    exact hno ⟨p, hp, hfault⟩
  · rw [hr] at hp
    exact hno ⟨p, hp, hfault⟩
  · rw [hr, fault_walk hw] at hp
    split_ifs at hp
    · cases hp
      exact absurd hfault.2.1 (by simp [writableCopy])
    · exact hno ⟨p, hp, hfault⟩

theorem writeMisalignedLoop_faults (ht : Sane t) (h : At addr b k) (n i : ℕ) {va : ℕ} (hno : ¬Faults t b.id va) :
    ¬Faults (writeMisalignedLoop value n addr i t) b.id va := by
  induction n generalizing addr k i t with
  | zero => exact hno
  | succ n ih =>
    obtain ⟨hsane, hkeep⟩ := writeInt_faults ht h 8 ((value >>> i) &&& 0xff)
    exact ih hsane h.next (i + 8) (hkeep va hno)

/-- The second page has taken its fault when an integer was written byte by byte. -/
theorem writeMisaligned_resolves (hs : Kept s) (henough : Enough s b n) (hcross : Straddles b.address n)
    {p : ℕ × PageTableEntry} (hw : s.walk b.id b.address = some p) (hfault : ¬TakesFault p.2 true)
    (hperm : Permitted p.2 true b.allow_all) : ¬Faults (writeMisalignedLoop value n b.ptr 0 s) b.id (position b.address 1) := by
  have hmod := Nat.mod_lt b.address (show 0 < pageSize by decide)
  have hone := position_one b.address
  obtain ⟨m, hm⟩ : ∃ m, n = (pageSize - b.address % pageSize) + (m + 1) := by
    unfold Straddles at hcross
    exact ⟨n - (pageSize - b.address % pageSize) - 1, by omega⟩
  have hnull := hs.null _ _ p hw
  have hne : leafAddr p b.address ≠ 0 := fun h0 => by
    rw [h0] at hnull
    exact absurd hnull (by decide)
  have hstable : ∀ j < pageSize - b.address % pageSize,
      Stable s b.id (b.address + (0 + j)) b.allow_all (leafAddr p b.address + j) := by
    intro j hj
    have hpage : (b.address + j) / pageSize = b.address / pageSize := by
      simp only [pageSize] at *
      omega
    rw [Nat.zero_add, ← leafAddr_add p hpage]
    exact stable_of_granted hs.toSane ((walk_samePage (samePage_of_div hpage)).trans hw) hfault hperm
  have hfirst : writeMisalignedLoop value (pageSize - b.address % pageSize) b.ptr 0 s = _ :=
    writeMisalignedLoop_stable hs.toSane (at_ptr b) hne hstable
  rw [hm, writeMisalignedLoop_add, hfirst, writeMisalignedLoop]
  set t : MemState := { s with phys := write s.phys (leafAddr p b.address) (bytesFrom value 0 (pageSize - b.address % pageSize)) }
    with ht
  have hsane : Sane t := hs.toSane.setPhys _
  have hat := (at_ptr b).iterate (pageSize - b.address % pageSize)
  rw [Nat.zero_add] at hat
  obtain ⟨hsane', -⟩ := writeInt_faults hsane hat 8 ((value >>> (0 + 8 * (pageSize - b.address % pageSize))) &&& 0xff)
  obtain ⟨phys, hstate⟩ := writeInt_state hsane hat 8 ((value >>> (0 + 8 * (pageSize - b.address % pageSize))) &&& 0xff)
  apply writeMisalignedLoop_faults hsane' hat.next
  rw [hstate, ← hone]
  rintro ⟨q, hq, htakes⟩
  change (virtToPhys t (some b.id) (position b.address 1) true b.allow_all).2.walk b.id (position b.address 1) = some q at hq
  rcases access_cases hsane b.id (position b.address 1) b.allow_all with ⟨hno, hr⟩ | ⟨q', hw', hno, -, hr⟩ | ⟨e, hw', -, -, hr⟩
  · rw [hr] at hq
    change s.walk b.id (position b.address 1) = some q at hq
    rcases hno q hq with hno | ⟨-, hneeds, hnil⟩
    · exact hno (by simp [Permitted, htakes.2.2])
    · have hfree := henough 1 (by omega) ⟨q, hq, htakes, hneeds⟩
      have htaken : taken s b.id b.address 1 = 0 := by
        have hzero : ¬Private s b.id (position b.address 0) := by
          rintro ⟨q', hq', htakes', -⟩
          rw [position_zero] at hq'
          rw [Option.mem_def, hw] at hq'
          cases hq'
          exact hfault htakes'
        rw [show (1 : ℕ) = 0 + 1 by rfl, taken_succ, if_neg hzero]
        rfl
      have hnil' : s.free = [] := hnil
      rw [htaken, hnil'] at hfree
      exact absurd hfree (Nat.not_lt_zero _)
  · rw [hr, hw'] at hq
    cases hq
    exact hno htakes
  · rw [hr, fault_walk hw', if_pos ⟨rfl, samePage_refl 2 _⟩] at hq
    cases hq
    exact absurd htakes.2.1 (by simp [writableCopy])

theorem WritesRight.safe (hs : Kept s) (hsize : IntSize size) (hacc : ∀ i < size / 8, Accessible s b true i)
    (henough : Enough s b (size / 8)) (h : WritesRight s b size) : WholeWrite s b (size / 8) := by
  obtain ⟨hwidth, hrounds, hpos, hle⟩ := hsize.width
  have hptr := (at_ptr b).virtToPhys_eq hs.toSane true
  rw [Nat.add_zero] at hptr
  have hone := position_one b.address
  rcases write_answer hs hpos (hacc 0 hpos) henough with ⟨p, hw, hfault, hperm, hr⟩ | ⟨e, hw, hfault, hnone, hr⟩
  · have hnull := hs.null _ _ p hw
    have hne : leafAddr p b.address ≠ 0 := fun h0 => by
      rw [h0] at hnull
      exact absurd hnull (by decide)
    have hwrite : ∀ value, writeInt s b.ptr size value =
        { s with phys := write s.phys (leafAddr p b.address) (intBytes (size / 8) value) } := by
      intro value
      unfold writeInt
      rw [hptr, hr, if_pos hne, hwidth]
    refine ⟨?_, fun hcross => ⟨?_, ?_⟩⟩
    · rintro ⟨q, hq, htakes⟩
      rw [Option.mem_def, hw] at hq
      cases hq
      exact absurd htakes hfault
    · -- The second page is left as it is by the one way and resolved by the other.
      rintro hsecond
      have hsame := (h 0 (by decide)).1
      rw [hwrite, writeMisaligned, hrounds] at hsame
      apply @writeMisaligned_resolves s b (size / 8) 0 hs henough hcross p hw hfault hperm
      rw [← hsame]
      exact hsecond
    · by_contra hno
      have hlt : pageSize - b.address % pageSize < size / 8 := by
        unfold Straddles at hcross
        omega
      have hmiss : s.place b.id (position b.address 1) ≠ leafAddr p b.address + (pageSize - b.address % pageSize) := by
        intro heq
        apply hno
        unfold Follows
        rw [heq, place_of_walk hw]
        omega
      refine write_misses s.phys (size / 8) hmiss (by omega) fun v hv => ?_
      · have hbyte := (h v hv).2.bytes _ hlt
        rw [hwrite, ← hone] at hbyte
        exact hbyte
  · have hframe := faultFrame_ne_zero hs.toSane hw hnone
    have hne : pageAddr (faultFrame s e) ≠ 0 := by
      simp only [pageAddr, pageSize]
      omega
    have haligned : b.address % pageSize = 0 := by
      by_contra hoff
      have hmiss : pageAddr (faultFrame s e) + b.address % pageSize ≠ pageAddr (faultFrame s e) + 0 := by omega
      refine write_misses (s.fault b.id b.address e).phys (size / 8) hmiss (by decide) fun v hv => ?_
      have hbyte := (h v hv).2.bytes 0 hpos
      unfold writeInt at hbyte
      rw [hptr, hr, if_pos hne, hwidth, Nat.add_zero] at hbyte
      have hplace : (s.fault b.id b.address e).place b.id b.address = pageAddr (faultFrame s e) + b.address % pageSize := by
        rw [MemState.place, fault_walk hw, if_pos ⟨rfl, samePage_refl 2 _⟩]
        exact leafAddr_zero _ _
      rw [← hplace]
      exact hbyte
    refine ⟨fun _ => haligned, fun hcross => ?_⟩
    unfold Straddles at hcross
    have : 8 < pageSize := by decide
    omega

/-- Integers are read as their bytes are when the pages they lie in follow each other in physical memory. They
are written so when moreover no fault is taken but at the first byte of a page. -/
theorem int_access_iff (hs : Kept s) (hsize : IntSize size) :
    ((∀ i < size / 8, Accessible s b false i) →
      (ReadsRight s b size ↔ (Straddles b.address (size / 8) → Follows s b.id b.address))) ∧
    ((∀ i < size / 8, Accessible s b true i) → Enough s b (size / 8) →
      (WritesRight s b size ↔ WholeWrite s b (size / 8))) := by
  obtain ⟨-, -, hpos, hle⟩ := hsize.width
  refine ⟨fun hacc => readsRight_iff hs.toSane hsize hacc,
    fun hacc henough => ⟨fun h => h.safe hs hsize hacc henough, fun h => ?_⟩⟩
  obtain ⟨w, t, hsettles⟩ := settles_of_safe hs hpos hle hacc henough h
  exact hsettles.writesRight hs hsize

end Writes

/-- An integer in a page of its own, and one at the start of a page that was not written to. -/
theorem int_access_first : ReadsRight twoProcesses ⟨1, 4100, false⟩ 64 ∧ WritesRight twoProcesses ⟨0, 4096, false⟩ 64 := by
  have henough : Enough twoProcesses ⟨0, 4096, false⟩ 8 := by
    intro j hj _
    have hzero : j < 1 := by
      by_contra hno
      have hpos : position 4096 j < 4096 + 8 := hj
      have := position_mono (a := 4096) (show 1 ≤ j by omega)
      have hone : position 4096 1 = 8192 := rfl
      omega
    exact (List.countP_le_length.trans_eq List.length_range).trans_lt (hzero.trans (by decide))
  constructor
  · exact ((int_access_iff twoProcesses_kept (by decide)).1 (by decide)).mpr fun h => absurd h (by decide)
  · exact ((int_access_iff twoProcesses_kept (by decide)).2 (by decide) henough).mpr
      ⟨fun _ => by decide, fun h => absurd h (by decide)⟩

/-- Memory with other bytes in the frame behind a page than in the next page. -/
def tornMachine : MemState := { twoProcesses with phys := fun a => if a / pageSize = 12 then 7 else 5 }

/-- An integer over the end of a page is read from the frame behind it, and one inside of a page that was not
written to is lost. -/
theorem int_access_torn :
    (∀ i < 8, Accessible tornMachine ⟨1, 8188, false⟩ false i) ∧
    readInt tornMachine (Buffer.ptr ⟨1, 8188, false⟩) 64 ≠ readMisaligned tornMachine (Buffer.ptr ⟨1, 8188, false⟩) 64 ∧
    (∀ i < 1, Accessible tornMachine ⟨0, 4101, false⟩ true i) ∧
    ¬WritesExactly tornMachine ⟨0, 4101, false⟩ 1 9 (writeInt tornMachine (Buffer.ptr ⟨0, 4101, false⟩) 8 9) := by
  refine ⟨by decide, by decide, by decide, fun h => ?_⟩
  have hbyte := h.bytes 0 (by decide)
  revert hbyte
  decide

end SomeOs.MemSpace
