import SomeOs.Memory.Parts
import SomeOs.Memory.Touched

/-! # Copies between memory spaces

The bytes that a copy moves, and those it leaves, when the parts it uses have all been filled
in. After a slip of the first answer the array of the destination has an element more than
parts are filled in.
-/
namespace SomeOs.MemSpace
open SparseArray PageRef Paging Scatter

def Private (s : MemState) (id va : ℕ) : Prop :=
  ∃ p ∈ s.walk id va, TakesFault p.2 true ∧ NeedsPage s p.2

instance (s : MemState) (id va : ℕ) : Decidable (Private s id va) :=
  inferInstanceAs (Decidable (∃ p ∈ s.walk id va, _))

def taken (s : MemState) (id a j : ℕ) : ℕ := (List.range j).countP fun i => Private s id (position a i)

def Enough (s : MemState) (b : Buffer) (n : ℕ) : Prop :=
  ∀ j, position b.address j < b.address + n → Private s b.id (position b.address j) → taken s b.id b.address j < s.free.length

/-- A write to the first address is a write to the second one: they are one byte of one memory space, or
have one place, which the write does not move away from. -/
def Overlap (s : MemState) (id va id' va' : ℕ) : Prop :=
  id = id' ∧ SamePage 2 va va' ∧ va % pageSize = va' % pageSize ∨
    ¬Private s id va ∧ s.place id va ≠ 0 ∧ s.place id va = s.place id' va'

structure Kept (s : MemState) : Prop extends Sane s, ZeroPage s where
  live : ∀ id va p, s.walk id va = some p → leafAddr p va / pageSize ∉ s.free

/-- No byte of the destination is a byte of the source or another byte of the destination. -/
structure PhysApart (s : MemState) (dest src : Buffer) (n : ℕ) : Prop where
  inj : ∀ i j, i < n → j < n → i ≠ j → ¬Overlap s dest.id (dest.address + i) dest.id (dest.address + j)
  disjoint : ∀ i j, i < n → j < n → ¬Overlap s dest.id (dest.address + i) src.id (src.address + j)

/-- All mappings stay, and only the first `len` bytes of the buffer change. -/
structure Changes (s : MemState) (b : Buffer) (len : ℕ) (t : MemState) : Prop where
  mapped : ∀ id va, (t.walk id va).isSome = (s.walk id va).isSome
  others : ∀ id va, (s.walk id va).isSome → (∀ i < len, ¬Overlap s b.id (b.address + i) id va) →
    t.phys (t.place id va) = s.phys (s.place id va)

def CopiesExactly (s : MemState) (dest src : Buffer) (n : ℕ) (r : Except VirtPtrFault MemState) : Prop :=
  ∃ t len, r = .ok t ∧ Extent (fun i => Accessible s dest true i ∧ Accessible s src false i) n len ∧
    (∀ i < len, t.phys (t.place dest.id (dest.address + i)) = s.phys (s.place src.id (src.address + i))) ∧
    Changes s dest len t

def SetsExactly (s : MemState) (dest : Buffer) (byte : UInt8) (n : ℕ) (r : Except VirtPtrFault MemState) : Prop :=
  ∃ t len, r = .ok t ∧ Extent (Accessible s dest true) n len ∧
    (∀ i < len, t.phys (t.place dest.id (dest.address + i)) = byte) ∧ Changes s dest len t

/-- A byte of the source can be read, with all before it, that has no byte at the destination. -/
def Outlasts (s : MemState) (src dest : Buffer) (n : ℕ) : Prop :=
  ∃ i < n, ¬Accessible s dest true i ∧ ∀ k ≤ i, Accessible s src false k

/-- The first page takes a fault inside of the page and the next one then follows it; the range goes on there, and the
source goes on behind what can be written. -/
def Unfilled (s : MemState) (dest src : Buffer) (n : ℕ) : Prop :=
  Slip s dest.id dest.address dest.allow_all ∧ position dest.address 1 < dest.address + n ∧ Outlasts s src dest n

/-- So with a range that ends with the first page, from where the second pass goes on to one more page of the space
that the source is in. -/
def Shifted (s : MemState) (dest src : Buffer) (n : ℕ) : Prop :=
  Slip s dest.id dest.address dest.allow_all ∧ position dest.address 1 = dest.address + n ∧ src.id = dest.id

section Frames
variable {s t : MemState} {id id' va va' a j n : ℕ} {allow_all : Bool}

theorem taken_succ (s : MemState) (id a j : ℕ) :
    taken s id a (j + 1) = taken s id a j + if Private s id (position a j) then 1 else 0 := by
  simp [taken, List.range_succ, List.countP_append, List.countP_cons]

/-- Every position takes at most one frame. -/
theorem free_touch (hs : Kept s) (id a : ℕ) (allow_all : Bool) (j : ℕ) :
    s.free.length ≤ (touch s id a allow_all j).free.length + taken s id a j := by
  induction j with
  | zero => exact Nat.le_add_right _ _
  | succ j ih =>
    have hres := touch_resolved hs.toSane hs.toZeroPage id a allow_all j
    rw [taken_succ, touch]
    rcases access_cases (touch_sane hs.toSane id a allow_all j) id (position a j) allow_all with
      ⟨-, hr⟩ | ⟨p, -, -, -, hr⟩ | ⟨e, hw, hfault, -, hr⟩
    · rw [hr]
      exact ih.trans (Nat.add_le_add_left (Nat.le_add_right _ _) _)
    · rw [hr]
      exact ih.trans (Nat.add_le_add_left (Nat.le_add_right _ _) _)
    · rw [hr]
      obtain ⟨-, -, hfree, -⟩ := @fault_fields _ id (position a j) e _ hw
      rw [hfree]
      by_cases hneeds : NeedsPage (touch s id a allow_all j) e
      · have hprivate : Private s id (position a j) := ⟨_, hres.unmoved hw hfault, hfault, (hres.needsPage e).mp hneeds⟩
        rw [if_pos hneeds, if_pos hprivate, List.length_tail]
        omega
      · rw [if_neg hneeds]
        omega

/-- While frames are left, a position has an address exactly when its page may be written. -/
theorem answer_ne_zero_iff (hs : Kept s) {b : Buffer} (henough : Enough s b n) (hj : position b.address j < b.address + n) :
    answer s b.id b.address b.allow_all j ≠ 0 ↔
      ∃ p, s.walk b.id (position b.address j) = some p ∧ Permitted p.2 true b.allow_all := by
  have hres := touch_resolved hs.toSane hs.toZeroPage b.id b.address b.allow_all (j + 1)
  have hsane := touch_sane hs.toSane b.id b.address b.allow_all (j + 1)
  have hstable := @answer_stable s b.id b.address b.allow_all hs.toSane j
  constructor
  · intro hne
    rcases hstable.cases hsane with ⟨-, hzero⟩ | ⟨p, hw, -, hperm, -⟩
    · exact absurd hzero hne
    · rcases hres.leaf b.id (position b.address j) with hsame | ⟨-, e, f, hmoved, -⟩
      · exact ⟨p, hsame.symm.trans hw, hperm⟩
      · exact ⟨_, hmoved.before, by simp [Permitted, hmoved.takes.2.2]⟩
  · rintro ⟨p, hp, hperm⟩ hzero
    rcases hstable.cases hsane with ⟨hno, -⟩ | ⟨q, hq, -, -, heq⟩
    · rcases hres.leaf b.id (position b.address j) with hsame | ⟨-, e, f, hmoved, -⟩
      · rcases hno p (hsame.trans hp) with hno | ⟨hfault, hneeds, hnil⟩
        · exact hno hperm
        · -- The page was asked for in the state before, where a frame was free.
          have hprivate : Private s b.id (position b.address j) := ⟨p, hp, hfault, (hres.needsPage p.2).mp hneeds⟩
          have hfree := free_touch hs b.id b.address b.allow_all j
          have hlt := henough j hj hprivate
          have hsane' := touch_sane hs.toSane b.id b.address b.allow_all j
          rcases access_cases hsane' b.id (position b.address j) b.allow_all with ⟨-, hr⟩ | ⟨q, -, -, -, hr⟩ |
            ⟨e, hw, hfault', -, hr⟩
          · rw [touch, hr] at hnil
            rw [hnil, List.length_nil] at hfree
            omega
          · rw [touch, hr] at hnil
            rw [hnil, List.length_nil] at hfree
            omega
          · have hw' := hsame.trans hp
            rw [touch, hr, fault_walk hw, if_pos ⟨rfl, samePage_refl 2 _⟩] at hw'
            cases hw'
            exact absurd hfault.2.1 (by simp [writableCopy])
      · rcases hno _ hmoved.after with hno | ⟨hfault, -⟩
        · exact hno (by simp [Permitted, writableCopy])
        · exact absurd hfault.2.1 (by simp [writableCopy])
    · have := hsane.null _ _ q hq
      rw [← heq, hzero] at this
      exact absurd this (by decide)

end Frames

section Places
variable {s t : MemState} {id id' va va' len : ℕ} {b : Buffer} {p p' : ℕ × PageTableEntry}

/-- A mapped byte keeps its place or is in a frame that was free. -/
theorem Resolved.place_cases (h : Resolved id s t) (id' va : ℕ) :
    t.place id' va = s.place id' va ∧ (¬Private s id' va ∨ t.walk id' va = s.walk id' va) ∨
    id' = id ∧ ∃ e f, Moved s t id va e f ∧ NeedsPage s e ∧ f ∈ s.free ∧ t.place id' va = pageAddr f + va % pageSize := by
  rcases h.leaf id' va with hsame | ⟨rfl, e, f, hmoved, hframe⟩
  · left
    refine ⟨?_, Or.inr hsame⟩
    rw [MemState.place, MemState.place, hsame]
  · have hplace : t.place id' va = pageAddr f + va % pageSize := by
      rw [place_of_walk hmoved.after, leafAddr_zero]
      rfl
    by_cases hneeds : NeedsPage s e
    · rw [if_pos hneeds] at hframe
      exact Or.inr ⟨rfl, e, f, hmoved, hneeds, hframe.1, hplace⟩
    · rw [if_neg hneeds] at hframe
      left
      constructor
      · rw [hplace, place_of_walk hmoved.before, leafAddr_zero, hframe]
        rfl
      · refine Or.inl ?_
        rintro ⟨q, hq, -, hneeds'⟩
        rw [hmoved.before] at hq
        cases hq
        exact hneeds hneeds'

theorem pageAddr_add_div (f : ℕ) (va : ℕ) : (pageAddr f + va % pageSize) / pageSize = f := by
  simp only [pageAddr, pageSize]
  omega

/-- Bytes that a write does not reach have another place than the byte that is written. -/
theorem Resolved.place_ne (hs : Kept s) (h : Resolved id s t) (hw : s.walk id va = some p)
    (hsettled : ∀ q, t.walk id va = some q → ¬TakesFault q.2 true) (hw' : s.walk id' va' = some p')
    (hno : ¬Overlap s id va id' va') : t.place id va ≠ t.place id' va' := by
  have hlive := hs.live id va p hw
  have hlive' := hs.live id' va' p' hw'
  rw [← place_of_walk hw] at hlive
  rw [← place_of_walk hw'] at hlive'
  rcases h.place_cases id va with ⟨hkept, hprivate⟩ | ⟨-, e, f, hmoved, hneeds, hfree, hplace⟩
  · rcases h.place_cases id' va' with ⟨hkept', -⟩ | ⟨-, e', f', -, -, hfree', hplace'⟩
    · have hprivate' : ¬Private s id va := by
        rcases hprivate with hprivate | hsame
        · exact hprivate
        · rintro ⟨q, hq, htakes, -⟩
          exact hsettled q (hsame.trans hq) htakes
      rw [hkept, hkept']
      intro heq
      refine hno (Or.inr ⟨hprivate', ?_, heq⟩)
      have hnull := hs.null id va p hw
      rw [place_of_walk hw]
      intro hzero
      rw [hzero] at hnull
      exact absurd hnull (by decide)
    · intro heq
      rw [hkept, hplace'] at heq
      rw [heq, pageAddr_add_div] at hlive
      exact hlive hfree'
  · rcases h.place_cases id' va' with ⟨hkept', -⟩ | ⟨rfl, e', f', hmoved', hneeds', hfree', hplace'⟩
    · intro heq
      rw [hplace, hkept'] at heq
      rw [← heq, pageAddr_add_div] at hlive'
      exact hlive' hfree
    · intro heq
      rw [hplace, hplace'] at heq
      have hframe : f = f' := by
        rw [← pageAddr_add_div f va, heq, pageAddr_add_div]
      subst hframe
      exact hno (Or.inl ⟨rfl, h.fresh va va' e e' f hmoved hmoved' hneeds hneeds', Nat.add_left_cancel heq⟩)

/-- The first `len` bytes of the buffer can be written without a fault. -/
structure Ready (s : MemState) (b : Buffer) (len : ℕ) (t : MemState) : Prop where
  resolved : Resolved b.id s t
  mapped : ∀ i < len, (s.walk b.id (b.address + i)).isSome
  settled : ∀ i < len, ∀ q, t.walk b.id (b.address + i) = some q → ¬TakesFault q.2 true

theorem Ready.place_ne (hs : Kept s) (h : Ready s b len t) {i : ℕ} (hi : i < len) (hw' : (s.walk id' va').isSome)
    (hno : ¬Overlap s b.id (b.address + i) id' va') : t.place b.id (b.address + i) ≠ t.place id' va' := by
  obtain ⟨p, hw⟩ := Option.isSome_iff_exists.mp (h.mapped i hi)
  obtain ⟨p', hw'⟩ := Option.isSome_iff_exists.mp hw'
  exact h.resolved.place_ne hs hw (h.settled i hi) hw' hno

theorem Ready.mono {len' : ℕ} (h : Ready s b len t) (hle : len' ≤ len) : Ready s b len' t :=
  ⟨h.resolved, fun i hi => h.mapped i (by omega), fun i hi => h.settled i (by omega)⟩

theorem Ready.changes (hs : Kept s) (h : Ready s b len t) {phys : ℕ → UInt8}
    (hphys : ∀ x, (∀ i < len, x ≠ t.place b.id (b.address + i)) → phys x = t.phys x) :
    Changes s b len { t with phys := phys } where
  mapped id va := by
    change (t.walk id va).isSome = _
    rcases h.resolved.leaf id va with hsame | ⟨rfl, e, f, hmoved, -⟩
    · rw [hsame]
    · rw [hmoved.after, hmoved.before]
      rfl
  others id va hmapped hno := by
    obtain ⟨p, hw⟩ := Option.isSome_iff_exists.mp hmapped
    change phys (t.place id va) = _
    rw [hphys _ fun i hi => (h.place_ne hs hi hmapped (hno i hi)).symm, h.resolved.bytes id va p hw (hs.live id va p hw)]

end Places

/-- The parts of a buffer that is written, and the number of positions that are asked for. -/
def writeCut (s : MemState) (b : Buffer) (n fuel : ℕ) : List Part × ℕ :=
  cutParts b.address (b.address + n) (answer s b.id b.address b.allow_all) fuel 0 0

def readCut (s : MemState) (b : Buffer) (n fuel : ℕ) : List Part × ℕ :=
  cutParts b.address (b.address + n)
    (fun j => (virtToPhys s (some b.id) (position b.address j) false b.allow_all).1) fuel 0 0

section Buffers
variable {s t : MemState} {b : Buffer} {id va n fuel m : ℕ} {allow_all : Bool}

/-- The parts of the write lead to the bytes that can be written. -/
theorem write_parts (hs : Kept s) (henough : Enough s b n) (hfuel : b.address + n < position b.address fuel)
    (hm : (writeCut s b n fuel).2 ≤ m) :
    ∃ len place, Cut place 0 (writeCut s b n fuel).1 len ∧ Extent (Accessible s b true) n len ∧
      Ready s b len (touch s b.id b.address b.allow_all m) ∧
      ∀ i < len, place i = (touch s b.id b.address b.allow_all m).place b.id (b.address + i) := by
  have hsane := touch_sane hs.toSane b.id b.address b.allow_all
  have hT : ∀ j, answer s b.id b.address b.allow_all j ≠ 0 → answer s b.id b.address b.allow_all j =
      (touch s b.id b.address b.allow_all (max m (j + 1))).place b.id (position b.address j) :=
    fun j hj => stable_place (hsane _) (stable_later hs.toSane (by omega)) hj
  obtain ⟨len, hcut, hreach, hasked⟩ := @cutParts_cut b.address (b.address + n) 0 0 (answer s b.id b.address b.allow_all)
    (fun i => (touch s b.id b.address b.allow_all (max m (pageIndex b.address i + 1))).place b.id (b.address + i))
    (Nat.le_add_right b.address n) (fun j k hj hk => pages_place hT hj hk) fuel (le_refl 0) (Or.inr rfl) (Or.inr rfl)
    (Consecutive.refl _ _ 0) (by rw [Nat.zero_add]; exact hfuel)
  have hextent : Extent (Accessible s b true) n len := by
    refine hreach.extent (P := fun x => ∃ p ∈ s.walk b.id x, Permitted p.2 true b.allow_all)
      (fun j hj => answer_ne_zero_iff hs henough hj) ?_
    rintro x y hpage ⟨p, hp, hperm⟩
    exact ⟨p, (walk_samePage (samePage_of_div hpage)).symm.trans hp, hperm⟩
  rw [position_zero, min_eq_left (Nat.le_add_right _ _), Nat.sub_self] at hcut
  -- The page of a byte within reach has been asked for.
  have hpage : ∀ i < len, ∃ j k, position b.address j + k = b.address + i ∧
    position b.address j + k < position b.address (j + 1) ∧ j < m ∧ answer s b.id b.address b.allow_all j ≠ 0 := by
    intro i hi
    obtain ⟨j, k, hjk, hk⟩ := exists_position b.address i
    have hle := le_position b.address j
    exact ⟨j, k, hjk, hk, (hasked j (by omega)).trans_le hm, hreach.usable j (Nat.zero_le j) (by omega)⟩
  refine ⟨len, _, hcut, hextent, ⟨touch_resolved hs.toSane hs.toZeroPage _ _ _ m, fun i hi => ?_, fun i hi q hq => ?_⟩,
    fun i hi => ?_⟩
  · obtain ⟨p, hp, -⟩ := hextent.all i hi
    exact Option.isSome_iff_exists.mpr ⟨p, hp⟩
  · obtain ⟨j, k, hjk, hk, hjm, hne⟩ := hpage i hi
    have hstable := @stable_later s b.id b.address j m b.allow_all hs.toSane hjm
    rw [← hjk, walk_samePage (samePage_of_div (position_page hk))] at hq
    rcases hstable.cases (hsane m) with ⟨-, hzero⟩ | ⟨p, hp, hfault, -⟩
    · exact absurd hzero hne
    · rw [hp] at hq
      cases hq
      exact hfault
  · obtain ⟨j, k, hjk, hk, hjm, -⟩ := hpage i hi
    have hindex : pageIndex b.address i = j := by
      have hle := le_position b.address j
      have := pageIndex_position hk
      rwa [show position b.address j - b.address + k = i by omega] at this
    rw [hindex, max_eq_left (by omega)]

theorem read_parts (ht : Sane t) (hfuel : b.address + n < position b.address fuel) :
    ∃ len, Cut (fun i => t.place b.id (b.address + i)) 0 (readCut t b n fuel).1 len ∧ Extent (Accessible t b false) n len :=
  plain_parts (ht.plain b.id) hfuel

theorem read_loop (ht : Sane t) (hwrap : b.address + n + pageSize < 2 ^ 64) (hfuel : b.address + n < position b.address fuel) :
    partsLoop b.ptr (b.address + n) false (fuel + 1) b.address b.address t = some ((readCut t b n (fuel + 1)).1, t) :=
  plain_loop (ht.plain b.id) hwrap hfuel

theorem Resolved.accessible (h : Resolved id s t) (b : Buffer) (i : ℕ) : Accessible t b false i ↔ Accessible s b false i := by
  unfold Accessible
  rcases h.leaf b.id (b.address + i) with hsame | ⟨hid, e, f, hmoved, -⟩
  · rw [hsame]
  · rw [hid, hmoved.after, hmoved.before]
    simp [Permitted, writableCopy]

/-- Faults of one space do not move what is read in another one. -/
theorem Resolved.readCut_other {b : Buffer} (h : Resolved id s t) (hs : Sane s) (ht : Sane t) (hid : b.id ≠ id) (n fuel : ℕ) :
    readCut t b n fuel = readCut s b n fuel := by
  have hwalk : ∀ va, t.walk b.id va = s.walk b.id va := fun va => (h.leaf b.id va).resolve_right fun hmoved => hid hmoved.1
  unfold readCut
  congr 1
  funext j
  rw [virtToPhys_of_small fun p hw hfault => absurd hfault ((ht.plain b.id).faults _ p hw),
    virtToPhys_of_small fun p hw hfault => absurd hfault ((hs.plain b.id).faults _ p hw), hwalk]
  cases hw : s.walk b.id (position b.address j) with
  | none => rfl
  | some p =>
    have hno := (hs.plain b.id).faults _ p hw
    simp only [if_neg hno]
    split_ifs <;> rfl

theorem partsArray_filled (parts : List Part) (extra : ℕ) :
    partsArray (parts.take (parts.length + extra)) (parts.length + extra) = parts.map some ++ List.replicate extra none := by
  rw [List.take_of_length_le (Nat.le_add_right _ _), partsArray, Nat.add_sub_cancel_left]

theorem parts_zero (s : MemState) (b : Buffer) (write : Bool) (fuel : ℕ) :
    partsLoop b.ptr (b.address + 0) write (fuel + 1) b.address b.address s = some ([], s) := by
  rw [partsLoop, if_neg (by omega)]

theorem changes_refl (hs : Kept s) (b : Buffer) : Changes s b 0 s :=
  Ready.changes hs ⟨Resolved.refl b.id s, fun i hi => absurd hi (Nat.not_lt_zero i), fun i hi => absurd hi (Nat.not_lt_zero i)⟩
    fun _ _ => rfl

theorem extent_zero (P : ℕ → Prop) : Extent P 0 0 := ⟨le_refl 0, fun i hi => absurd hi (Nat.not_lt_zero i), Or.inl rfl⟩

/-- Both passes over a buffer that is written. There is one part too many in the first one exactly after a
slip, and the second one asks for more positions only when the buffer ends with its first page. -/
theorem write_passes (hs : Kept s) (hn : 0 < n) (hwrap : b.address + n + pageSize < 2 ^ 64)
    (hfuel : b.address + n < position b.address (fuel + 1)) :
    ∃ extra m, getVirtPtrParts (fuel + 2) s b.ptr n 0 true =
        some ((writeCut s b n (fuel + 2)).1.length + extra, [], touch s b.id b.address b.allow_all m) ∧
      (Slip s b.id b.address b.allow_all ∧ position b.address 1 < b.address + n ∧ extra = 1 ∨
        ¬(Slip s b.id b.address b.allow_all ∧ position b.address 1 < b.address + n) ∧ extra = 0) ∧
      (∀ max_parts, getVirtPtrParts (fuel + 2) (touch s b.id b.address b.allow_all m) b.ptr n max_parts true =
        some ((writeCut s b n (fuel + 2)).1.length, (writeCut s b n (fuel + 2)).1.take max_parts,
          touch s b.id b.address b.allow_all (writeCut s b n (fuel + 2)).2)) ∧
      (position b.address 1 ≠ b.address + n ∨ ¬Slip s b.id b.address b.allow_all → m = (writeCut s b n (fuel + 2)).2) := by
  obtain ⟨ps, m, hcount, hlength, hm, hle, heq⟩ := @count_parts s b.id b.address (b.address + n) b.allow_all hs.toSane hwrap
    (Nat.lt_add_of_pos_right hn) fuel hfuel
  refine ⟨ps.length - (writeCut s b n (fuel + 2)).1.length, m, ?_, ?_, fun max_parts => ?_, heq⟩
  · have hge : (writeCut s b n (fuel + 2)).1.length ≤ ps.length := by
      rcases hlength with ⟨-, -, hlength⟩ | ⟨-, hlength⟩
      · exact (Nat.le_succ _).trans hlength.ge
      · exact hlength.ge
    rw [parts_eq hwrap, Nat.add_sub_cancel' hge]
    change Option.map _ (partsLoop ⟨b.address, some b.id, b.allow_all⟩ _ _ _ _ _ _) = _
    rw [hcount]
    rfl
  · rcases hlength with ⟨hslip, hlt, hlength⟩ | ⟨hno, hlength⟩
    · exact Or.inl ⟨hslip, hlt, Nat.sub_eq_of_eq_add' hlength⟩
    · exact Or.inr ⟨hno, Nat.sub_eq_zero_of_le hlength.le⟩
  · rw [parts_eq hwrap]
    change Option.map _ (partsLoop ⟨b.address, some b.id, b.allow_all⟩ _ _ _ _ _ _) = _
    rw [fill_parts hs.toSane hwrap hfuel hm, max_eq_right hle]
    rfl

end Buffers

section Exact
variable {s : MemState} {dest src : Buffer} {n fuel : ℕ}

/-- `memsetVirtPtr` is exact but after a slip. -/
theorem memset_exact_iff (hs : Kept s) (hwrap : dest.address + n + pageSize < 2 ^ 64) (henough : Enough s dest n)
    (hfuel : n / pageSize + 3 ≤ fuel) (byte : UInt8) :
    SetsExactly s dest byte n (memsetVirtPtr fuel s dest.ptr byte n) ↔
      ¬(Slip s dest.id dest.address dest.allow_all ∧ position dest.address 1 < dest.address + n) := by
  obtain ⟨k, rfl, hpos⟩ := fuel_position dest.address hfuel
  rcases Nat.eq_zero_or_pos n with rfl | hn
  · have hstart := position_strict (a := dest.address) Nat.zero_lt_one
    have hparts : getVirtPtrParts (k + 2) s dest.ptr 0 0 true = some (0, [], s) := by
      rw [parts_eq hwrap, parts_zero]
      rfl
    have hset : memsetVirtPtr (k + 2) s dest.ptr byte 0 = .ok s := by
      simp only [memsetVirtPtr, hparts, orFault, bind, Except.bind]
      rfl
    rw [hset]
    refine iff_of_true ⟨s, 0, rfl, extent_zero _, fun i hi => absurd hi (Nat.not_lt_zero i), changes_refl hs dest⟩ ?_
    rw [position_zero] at hstart
    omega
  · obtain ⟨extra, m, hcount, hextra, hfill, -⟩ := write_passes hs hn hwrap hpos
    obtain ⟨len, place, hcut, hextent, hready, hplace⟩ :=
      write_parts hs henough (hpos.trans (position_lt_succ _ _)) (le_refl (writeCut s dest n (k + 2)).2)
    have hset : memsetVirtPtr (k + 2) s dest.ptr byte n =
        (orFault .unfilled (setParts byte ((writeCut s dest n (k + 2)).1.map some ++ List.replicate extra none)
          (touch s dest.id dest.address dest.allow_all (writeCut s dest n (k + 2)).2).phys)).map fun phys =>
            { touch s dest.id dest.address dest.allow_all (writeCut s dest n (k + 2)).2 with phys := phys } := by
      simp only [memsetVirtPtr, hcount, hfill, orFault, bind, Except.bind, partsArray_filled]
      cases setParts byte _ _ <;> rfl
    rw [hset]
    rcases hextra with ⟨hslip, hlt, rfl⟩ | ⟨hno, rfl⟩
    · refine iff_of_false ?_ fun h => h ⟨hslip, hlt⟩
      rw [List.replicate_one, setParts_unfilled]
      rintro ⟨t, _, hr, -⟩
      cases hr
    · obtain ⟨phys, hphys, hin, hout⟩ := setParts_set byte hcut
        (s := (touch s dest.id dest.address dest.allow_all (writeCut s dest n (k + 2)).2).phys)
      rw [List.replicate_zero, List.append_nil, hphys]
      refine iff_of_true ⟨_, len, rfl, hextent, fun i hi => ?_, hready.changes hs fun x hx => ?_⟩ hno
      · have hbyte := hin i (Nat.zero_le i) hi
        rw [hplace i hi] at hbyte
        exact hbyte
      · apply hout
        intro i _ hi
        rw [hplace i hi]
        exact hx i hi

theorem outlasts_iff {destLen srcLen : ℕ} (hd : Extent (Accessible s dest true) n destLen)
    (hc : Extent (Accessible s src false) n srcLen) : Outlasts s src dest n ↔ destLen < srcLen := by
  constructor
  · rintro ⟨i, hi, hno, hread⟩
    by_contra hle
    have hdest : destLen ≤ i := by
      by_contra hlt
      exact hno (hd.all i (by omega))
    rcases hc.ends with hend | hend
    · omega
    · exact hend (hread srcLen (by omega))
  · intro hlt
    have hle := hc.le
    refine ⟨destLen, by omega, ?_, fun k hk => hc.all k (by omega)⟩
    rcases hd.ends with hend | hend
    · omega
    · exact hend

theorem PhysApart.apart (hs : Kept s) (h : PhysApart s dest src n) {t : MemState} {destLen srcLen : ℕ} {place : ℕ → ℕ}
    (hready : Ready s dest destLen t) (hplace : ∀ i < destLen, place i = t.place dest.id (dest.address + i))
    (hd : destLen ≤ n) (hc : Extent (Accessible s src false) n srcLen) :
    Apart place (fun i => t.place src.id (src.address + i)) (min destLen srcLen) where
  inj i j hi hj heq := by
    by_contra hij
    rw [hplace i (by omega), hplace j (by omega)] at heq
    exact hready.place_ne hs (by omega) (hready.mapped j (by omega)) (h.inj i j (by omega) (by omega) hij) heq
  disjoint i j hi hj := by
    have hle := hc.le
    obtain ⟨p, hp, -⟩ := hc.all j (by omega)
    rw [hplace i (by omega)]
    exact hready.place_ne hs (by omega) (Option.isSome_iff_exists.mpr ⟨p, hp⟩) (h.disjoint i j (by omega) (by omega))

/-- `memcpyBetweenVirtPtr` is exact but after a slip, when the source goes on after the destination has ended. -/
theorem memcpy_exact_iff (hs : Kept s) (hdest : dest.address + n + pageSize < 2 ^ 64)
    (hsrc : src.address + n + pageSize < 2 ^ 64) (henough : Enough s dest n) (hapart : PhysApart s dest src n)
    (hfuel : n / pageSize + 3 ≤ fuel) (hstays : ¬Shifted s dest src n) :
    CopiesExactly s dest src n (memcpyBetweenVirtPtr fuel s dest.ptr src.ptr n) ↔ ¬Unfilled s dest src n := by
  unfold Unfilled
  obtain ⟨k, rfl, hpos⟩ := fuel_position dest.address hfuel
  obtain ⟨k', hk', hpos'⟩ := fuel_position src.address hfuel
  obtain rfl : k = k' := by omega
  rcases Nat.eq_zero_or_pos n with rfl | hn
  · have hstart := position_strict (a := dest.address) Nat.zero_lt_one
    have hdparts : getVirtPtrParts (k + 2) s dest.ptr 0 0 true = some (0, [], s) := by
      rw [parts_eq hdest, parts_zero]
      rfl
    have hsparts : getVirtPtrParts (k + 2) s src.ptr 0 0 false = some (0, [], s) := by
      rw [parts_eq hsrc, parts_zero]
      rfl
    have hcopy : memcpyBetweenVirtPtr (k + 2) s dest.ptr src.ptr 0 = .ok s := by
      simp only [memcpyBetweenVirtPtr, hdparts, hsparts, orFault, bind, Except.bind]
      rfl
    rw [hcopy]
    refine iff_of_true ⟨s, 0, rfl, extent_zero _, fun i hi => absurd hi (Nat.not_lt_zero i), changes_refl hs dest⟩ ?_
    rw [position_zero] at hstart
    omega
  · obtain ⟨extra, m, hcount, hextra, hfill, hm⟩ := write_passes hs hn hdest hpos
    obtain ⟨destLen, place, hcut, hextent, hready, hplace⟩ :=
      write_parts hs henough (hpos.trans (position_lt_succ _ _)) (le_refl (writeCut s dest n (k + 2)).2)
    set t := touch s dest.id dest.address dest.allow_all (writeCut s dest n (k + 2)).2 with ht
    have hsane : ∀ j, Sane (touch s dest.id dest.address dest.allow_all j) := touch_sane hs.toSane _ _ _
    -- Both passes over the source find the same parts.
    have hsame : readCut (touch s dest.id dest.address dest.allow_all m) src n (k + 2) = readCut t src n (k + 2) := by
      by_cases hid : src.id = dest.id
      · rw [ht, hm (or_iff_not_imp_right.mpr fun hslip hend => hstays ⟨not_not.mp hslip, hend, hid⟩)]
      · rw [(touch_resolved hs.toSane hs.toZeroPage _ _ _ _).readCut_other hs.toSane (hsane _) hid,
          (touch_resolved hs.toSane hs.toZeroPage _ _ _ _).readCut_other hs.toSane (hsane _) hid]
    have hread : ∀ t max_parts, Sane t → getVirtPtrParts (k + 2) t src.ptr n max_parts false =
        some ((readCut t src n (k + 2)).1.length, (readCut t src n (k + 2)).1.take max_parts, t) := by
      intro t max_parts hsane
      rw [parts_eq hsrc, read_loop hsane hsrc hpos']
      rfl
    have hfirst := hread _ 0 (hsane m)
    have hsecond := fun max_parts => hread t max_parts (hsane _)
    rw [hsame] at hfirst
    obtain ⟨srcLen, hsrccut, hsrcextent⟩ := read_parts (b := src) (n := n) (hsane (writeCut s dest n (k + 2)).2)
      (hpos'.trans (position_lt_succ _ _))
    rw [← ht] at hsrccut hsrcextent
    have hacc : Accessible t src false = Accessible s src false := funext fun i => propext (hready.resolved.accessible src i)
    rw [hacc] at hsrcextent
    have hcopy : memcpyBetweenVirtPtr (k + 2) s dest.ptr src.ptr n =
        (orFault .unfilled (copyParts n ((writeCut s dest n (k + 2)).1.length + extra + (readCut t src n (k + 2)).1.length)
          ((writeCut s dest n (k + 2)).1.map some ++ List.replicate extra none) ((readCut t src n (k + 2)).1.map some) 0
          t.phys)).map fun phys => { t with phys := phys } := by
      have hfull := partsArray_filled (readCut t src n (k + 2)).1 0
      rw [Nat.add_zero, List.replicate_zero, List.append_nil] at hfull
      simp only [memcpyBetweenVirtPtr, hcount, hfirst, hsecond, hfill, orFault, bind, Except.bind, partsArray_filled, hfull]
      cases copyParts n _ _ _ _ _ <;> rfl
    rw [hcopy, outlasts_iff hextent hsrcextent]
    by_cases hlong : extra = 1 ∧ destLen < srcLen
    · obtain ⟨rfl, hlong⟩ := hlong
      rcases hextra with ⟨hslip, hlt, -⟩ | ⟨-, hzero⟩
      · refine iff_of_false ?_ fun h => h ⟨hslip, hlt, hlong⟩
        have hmore : (writeCut s dest n (k + 2)).1.length + (readCut t src n (k + 2)).1.length <
            (writeCut s dest n (k + 2)).1.length + 1 + (readCut t src n (k + 2)).1.length := by omega
        rw [List.replicate_one, copyParts_unfilled hsrcextent.le hlong hmore hcut.from hsrccut.from]
        rintro ⟨t, _, hr, -⟩
        cases hr
      · cases hzero
    · have hrest : List.replicate extra (none : Option Part) = [] ∨ srcLen ≤ destLen := by
        rcases hextra with ⟨-, -, rfl⟩ | ⟨-, rfl⟩
        · exact Or.inr (by omega)
        · exact Or.inl rfl
      have hno : ¬(Slip s dest.id dest.address dest.allow_all ∧ position dest.address 1 < dest.address + n ∧
        destLen < srcLen) := by
        rintro ⟨hslip, hlt, hlen⟩
        rcases hextra with ⟨-, -, rfl⟩ | ⟨hno, -⟩
        · exact hlong ⟨rfl, hlen⟩
        · exact hno ⟨hslip, hlt⟩
      obtain ⟨phys, hphys, hcopied⟩ := copyParts_copied (s := t.phys) (hapart.apart hs hready hplace hextent.le hsrcextent)
        hextent.le hsrcextent.le hrest (Nat.add_le_add_right (Nat.le_add_right _ extra) _) hcut.from hsrccut.from hsrccut.unused
      rw [hphys]
      refine iff_of_true ⟨_, _, rfl, hextent.and hsrcextent, fun i hi => ?_,
        (hready.mono (min_le_left _ _)).changes hs fun x hx => ?_⟩ hno
      · have hbyte := hcopied.inside i (Nat.zero_le i) hi
        obtain ⟨p, hp, -⟩ := hsrcextent.all i (by omega)
        rw [hplace i (by omega), hready.resolved.bytes _ _ p hp (hs.live _ _ p hp)] at hbyte
        exact hbyte
      · apply hcopied.outside
        intro i _ hi
        rw [hplace i (by omega)]
        exact hx i hi

/-- Copies and fills are exact, but for a range whose first page takes a fault inside of the page and then
is followed in physical memory by the next page. -/
theorem virtPtr_exact_iff (hs : Kept s) (hdest : dest.address + n + pageSize < 2 ^ 64) (henough : Enough s dest n)
    (hfuel : n / pageSize + 3 ≤ fuel) (byte : UInt8) :
    (src.address + n + pageSize < 2 ^ 64 → PhysApart s dest src n →
      (¬Unfilled s dest src n ∧ ¬Shifted s dest src n →
        CopiesExactly s dest src n (memcpyBetweenVirtPtr fuel s dest.ptr src.ptr n)) ∧
      (Unfilled s dest src n → ¬CopiesExactly s dest src n (memcpyBetweenVirtPtr fuel s dest.ptr src.ptr n))) ∧
    (SetsExactly s dest byte n (memsetVirtPtr fuel s dest.ptr byte n) ↔
      ¬(Slip s dest.id dest.address dest.allow_all ∧ position dest.address 1 < dest.address + n)) := by
  refine ⟨fun hsrc hapart => ⟨fun h => ?_, fun hunfilled => ?_⟩, memset_exact_iff hs hdest henough hfuel byte⟩
  · exact (memcpy_exact_iff hs hdest hsrc henough hapart hfuel h.2).mpr h.1
  · have hstays : ¬Shifted s dest src n := fun h => hunfilled.2.1.ne h.2.1
    exact fun hcopies => (memcpy_exact_iff hs hdest hsrc henough hapart hfuel hstays).mp hcopies hunfilled

end Exact

/-- A process with two heap pages that it has not written to. -/
def unwritten : ProcessMemory where
  root := 7
  mem := [(0, .mk { v := true, paddr := 8 } [(0, .mk { v := true, paddr := 9 }
    [(1, .mk { v := true, r := true, u := true, a := true, d := true, c := true, paddr := 6 } []),
     (2, .mk { v := true, r := true, u := true, a := true, d := true, c := true, paddr := 6 } [])])])]
  start_brk := 4096
  brk := 12288
  loading := false

/-- A process with three pages of its own. -/
def written : ProcessMemory where
  root := 17
  mem := [(0, .mk { v := true, paddr := 18 } [(0, .mk { v := true, paddr := 19 }
    [(1, .mk { v := true, r := true, w := true, u := true, a := true, d := true, paddr := 10 } []),
     (2, .mk { v := true, r := true, w := true, u := true, a := true, d := true, paddr := 12 } []),
     (3, .mk { v := true, r := true, w := true, u := true, a := true, d := true, paddr := 14 } [])])])]
  start_brk := 4096
  brk := 16384
  loading := false

/-- The machine with both processes and two free frames that follow each other. -/
def twoProcesses : MemState where
  spaces := [(0, unwritten), (1, written)]
  ref_count := PageRefTable.empty
  zero_page := 6
  free := [1, 2]
  phys := fun a => if a / pageSize = 6 then 0 else 5

theorem twoProcesses_walk {id va : ℕ} {p : ℕ × PageTableEntry} (h : twoProcesses.walk id va = some p) :
    p.1 = 0 ∧ (p.2.paddr = 6 ∨ p.2.paddr = 10 ∨ p.2.paddr = 12 ∨ p.2.paddr = 14) := by
  unfold MemState.walk at h
  obtain ⟨m, hm, hw⟩ := Option.bind_eq_some_iff.mp h
  have hmem : m = unwritten ∨ m = written := by
    have := mem_of_get? hm
    simp only [twoProcesses, List.mem_cons, Prod.mk.injEq, List.not_mem_nil, or_false] at this
    exact this.imp And.right And.right
  rcases hmem with rfl | rfl
  · obtain ⟨hlevel, next, x, hmem⟩ := walk_last (walk_single hw)
    simp only [List.mem_cons, Prod.mk.injEq, Slot.mk.injEq, List.not_mem_nil, or_false] at hmem
    rcases hmem with ⟨-, hp, -⟩ | ⟨-, hp, -⟩ <;> simp [hlevel, hp]
  · obtain ⟨hlevel, next, x, hmem⟩ := walk_last (walk_single hw)
    simp only [List.mem_cons, Prod.mk.injEq, Slot.mk.injEq, List.not_mem_nil, or_false] at hmem
    rcases hmem with ⟨-, hp, -⟩ | ⟨-, hp, -⟩ | ⟨-, hp, -⟩ <;> simp [hlevel, hp]

theorem twoProcesses_kept : Kept twoProcesses where
  small _ _ _ h _ := (twoProcesses_walk h).1
  narrow _ _ _ h := by
    have := (twoProcesses_walk h).2
    omega
  free_narrow := by decide
  null _ va p h := by
    obtain ⟨hlevel, hpaddr⟩ := twoProcesses_walk h
    obtain ⟨level, e⟩ := p
    obtain rfl : level = 0 := hlevel
    rw [leafAddr_zero]
    simp only [pageSize] at *
    omega
  free_null := by decide
  nodup := by decide
  used := by decide
  zero k hk := by
    have hdiv : (pageAddr 6 + k) / pageSize = 6 := by
      simp only [pageAddr, pageSize] at *
      omega
    show (if (pageAddr 6 + k) / pageSize = 6 then 0 else 5) = _
    rw [hdiv]
    rfl
  live _ va p h := by
    obtain ⟨hlevel, hpaddr⟩ := twoProcesses_walk h
    obtain ⟨level, e⟩ := p
    obtain rfl : level = 0 := hlevel
    have hdiv : leafAddr (0, e) va / pageSize = e.paddr := by
      rw [leafAddr_zero]
      exact pageAddr_add_div e.paddr va
    rw [hdiv]
    have hfree : twoProcesses.free = [1, 2] := rfl
    simp only [hfree, List.mem_cons, List.not_mem_nil, or_false]
    dsimp only at hpaddr
    omega

/-- Both pages of the range are copied, from three pages. -/
theorem virtPtr_two_pages :
    CopiesExactly twoProcesses ⟨0, 4096, false⟩ ⟨1, 4100, false⟩ 8192
      (memcpyBetweenVirtPtr 5 twoProcesses (Buffer.ptr ⟨0, 4096, false⟩) (Buffer.ptr ⟨1, 4100, false⟩) 8192) ∧
    SetsExactly twoProcesses ⟨0, 4096, false⟩ 7 8192 (memsetVirtPtr 5 twoProcesses (Buffer.ptr ⟨0, 4096, false⟩) 7 8192) := by
  have hno : ¬Slip twoProcesses 0 4096 false := fun ⟨_, _, _, _, _, hoff, _⟩ => hoff (by decide)
  have hprivate : ∀ i < 8192, Private twoProcesses 0 (4096 + i) := by
    intro i hi
    have hpage : SamePage 2 (4096 + i) 4096 ∨ SamePage 2 (4096 + i) 8192 := by
      by_cases hlt : i < 4096
      · exact Or.inl (samePage_of_div (by rw [pageSize]; omega))
      · exact Or.inr (samePage_of_div (by rw [pageSize]; omega))
    unfold Private
    rcases hpage with hpage | hpage
    · rw [walk_samePage hpage]
      decide
    · rw [walk_samePage hpage]
      decide
  have henough : Enough twoProcesses ⟨0, 4096, false⟩ 8192 := by
    intro j hj _
    have htwo : j < 2 := by
      by_contra hno
      have hpos : position 4096 j < 4096 + 8192 := hj
      have := position_mono (a := 4096) (show 2 ≤ j by omega)
      have htwo : position 4096 2 = 12288 := rfl
      omega
    exact (List.countP_le_length.trans_eq List.length_range).trans_lt htwo
  have hapart : PhysApart twoProcesses ⟨0, 4096, false⟩ ⟨1, 4100, false⟩ 8192 := by
    constructor
    · rintro i j hi hj hij (⟨-, hsame, hoff⟩ | ⟨hno, -⟩)
      · have hzero := hsame 0 (by decide)
        simp only [vpn, pageSize] at hzero hoff
        omega
      · exact hno (hprivate i hi)
    · rintro i j hi hj (⟨hid, -⟩ | ⟨hno, -⟩)
      · cases hid
      · exact hno (hprivate i hi)
  have h := @virtPtr_exact_iff twoProcesses ⟨0, 4096, false⟩ ⟨1, 4100, false⟩ 8192 5 twoProcesses_kept (by decide) henough
    (by decide) 7
  exact ⟨(h.1 (by decide) hapart).1 ⟨fun hslip => hno hslip.1, fun hslip => hno hslip.1⟩, h.2.mpr fun hslip => hno hslip.1⟩

/-- The fill of a range that starts inside of the first page, and the copy of a longer one, use a part that
was not filled in. -/
theorem virtPtr_unfilled :
    ¬SetsExactly twoProcesses ⟨0, 4101, false⟩ 0 4096 (memsetVirtPtr 4 twoProcesses (Buffer.ptr ⟨0, 4101, false⟩) 0 4096) ∧
    ¬CopiesExactly twoProcesses ⟨0, 4101, false⟩ ⟨1, 4096, false⟩ 12288
      (memcpyBetweenVirtPtr 6 twoProcesses (Buffer.ptr ⟨0, 4101, false⟩) (Buffer.ptr ⟨1, 4096, false⟩) 12288) := by
  have hset : (memsetVirtPtr 4 twoProcesses (Buffer.ptr ⟨0, 4101, false⟩) 0 4096).isOk = false := by decide
  have hcopy : (memcpyBetweenVirtPtr 6 twoProcesses (Buffer.ptr ⟨0, 4101, false⟩) (Buffer.ptr ⟨1, 4096, false⟩) 12288).isOk =
      false := by decide
  constructor
  · rintro ⟨t, _, hr, -⟩
    rw [hr] at hset
    cases hset
  · rintro ⟨t, _, hr, -⟩
    rw [hr] at hcopy
    cases hcopy

end SomeOs.MemSpace
