import SomeOs.Files.DescriptorMap

/-! # Waiting for descriptors

The sets of `select` have one bit for each descriptor. Reads are tested with a bit that is shifted in
64 bits, and writes with an `int`, whose bit is at the right place below 31 only: bit 31 extends to
all bits above it, and shifts by 32 and more are undefined. Bits from the number of descriptors on
are not looked at and not cleared.
-/
namespace SomeOs.Files
open Descriptors

/-- `VFS_FILE_READ` -/
abbrev fileRead : ℕ := 1
/-- `VFS_FILE_WRITE` -/
abbrev fileWrite : ℕ := 2

inductive SelectError where
  | EINTR
  | EBADF

/-- The variables of the loop, and the numbers that were examined for writing, the last one first. -/
structure SelectState where
  reads : BitVec 64
  writes : BitVec 64
  num_ready : ℕ
  examined : List ℕ

/-- Whether the task is woken and with what result, and the sets that are written back. -/
structure SelectReturn where
  woken : Option (Except SelectError ℕ)
  sets : Option (BitVec 64 × BitVec 64)
  examined : List ℕ

/-- `1UL << i` -/
def longBit (i : ℕ) : BitVec 64 := 1#64 <<< i

/-- `1 << i` as it is used with 64 bits. What a shift by 32 or more gives is not defined. -/
def intBit (undefined : ℕ → BitVec 32) (i : ℕ) : BitVec 64 :=
  (if i < 32 then 1#32 <<< i else undefined i).signExtend 64

def lastState : Except SelectState SelectState → SelectState
  | .error st | .ok st => st

section Model
variable (s : Descriptors) (p : ℕ) (ready : ℕ → Bool → Bool) (undefined : ℕ → BitVec 32)

def openFor (access i : ℕ) : Option ℕ :=
  (s.getFileDescriptorUnsafe p i).bind fun desc =>
    if (s.file (s.desc desc).file).flags &&& access = 0 then none else some (s.desc desc).file

def selectRead (i : ℕ) (st : SelectState) : Except SelectState SelectState :=
  if st.reads &&& longBit i ≠ 0 then
    match openFor s p fileRead i with
    | none => .error st
    | some file =>
      .ok (if ready file false then { st with num_ready := st.num_ready + 1 } else { st with reads := st.reads &&& ~~~longBit i })
  else .ok st

def selectWrite (i : ℕ) (st : SelectState) : Except SelectState SelectState :=
  if st.writes &&& intBit undefined i ≠ 0 then
    let st := { st with examined := i :: st.examined }
    match openFor s p fileWrite i with
    | none => .error st
    | some file =>
      .ok (if ready file true then { st with num_ready := st.num_ready + 1 }
        else { st with writes := st.writes &&& ~~~longBit i })
  else .ok st

/-- The loop over the next `n` numbers from `i` on. It ends early at a number that is not open. -/
def selectFrom : ℕ → ℕ → SelectState → Except SelectState SelectState
  | 0, _, st => .ok st
  | n + 1, i, st =>
    match selectRead s p ready i st with
    | .error st => .error st
    | .ok st =>
      match selectWrite s p ready undefined i st with
      | .error st => .error st
      | .ok st => selectFrom n (i + 1) st

def handleSelectWakeup (signal timeout : Bool) (num_fds : ℕ) (reads writes : BitVec 64) : SelectReturn :=
  if signal then ⟨some (.error .EINTR), none, []⟩
  else
    match selectFrom s p ready undefined num_fds 0 ⟨reads, writes, 0, []⟩ with
    | .error st => ⟨some (.error .EBADF), none, st.examined⟩
    | .ok st =>
      if st.num_ready ≠ 0 then ⟨some (.ok st.num_ready), some (st.reads, st.writes), st.examined⟩
      else if timeout then ⟨some (.ok 0), some (0, 0), st.examined⟩
      else ⟨none, none, st.examined⟩

def readyAt (write : Bool) (i : ℕ) : Bool :=
  (openFor s p (if write then fileWrite else fileRead) i).any fun file => ready file write

def Requested (access num_fds : ℕ) (set : BitVec 64) : Prop :=
  ∀ i < num_fds, set.getLsbD i = true → openFor s p access i ≠ none

def bitCount (set : BitVec 64) : ℕ := (List.range 64).countP fun i => set.getLsbD i

def IsReady (write : Bool) (num_fds : ℕ) (set result : BitVec 64) : Prop :=
  ∀ i < 64, result.getLsbD i = (set.getLsbD i && decide (i < num_fds) && readyAt s p ready write i)

/-- Without a signal exactly the numbers in the write set are examined for writing, and a positive
result counts the bits that are returned, which are those of the ready descriptors. -/
def SelectRight (signal : Bool) (num_fds : ℕ) (reads writes : BitVec 64) (r : SelectReturn) : Prop :=
  signal = false →
    (∀ i < num_fds, i ∈ r.examined ↔ writes.getLsbD i = true) ∧
    ∀ k, r.woken = some (.ok k) → 0 < k → ∃ reads' writes', r.sets = some (reads', writes') ∧
      IsReady s p ready false num_fds reads reads' ∧ IsReady s p ready true num_fds writes writes' ∧
      k = bitCount reads' + bitCount writes'

/-- The condition. The `int` bit of each number meets the bits of the write set that are left, which
are those from the number on and those that are ready, exactly when its own bit is set; and if
something is ready there are no bits from the limit on. -/
def SelectSound (signal : Bool) (num_fds : ℕ) (reads writes : BitVec 64) : Prop :=
  signal = true ∨
    (∀ i < num_fds, (∃ j < 64, (intBit undefined i).getLsbD j = true ∧ writes.getLsbD j = true ∧
        (i ≤ j ∨ readyAt s p ready true j = true)) ↔ writes.getLsbD i = true) ∧
    ((∃ i < num_fds, (reads.getLsbD i = true ∧ readyAt s p ready false i = true) ∨
        (writes.getLsbD i = true ∧ readyAt s p ready true i = true)) →
      ∀ i < 64, num_fds ≤ i → reads.getLsbD i = false ∧ writes.getLsbD i = false)

end Model

section Bits
variable {x y : BitVec 64} {i j : ℕ}

theorem and_ne_zero_iff : x &&& y ≠ 0 ↔ ∃ j < 64, x.getLsbD j = true ∧ y.getLsbD j = true := by
  rw [← not_iff_not, not_not]
  push Not
  constructor
  · intro h j _ hx
    have := congrArg (fun z => BitVec.getLsbD z j) h
    simpa [hx] using this
  · intro h
    apply BitVec.eq_of_getLsbD_eq
    intro j hj
    have := h j hj
    cases hx : x.getLsbD j <;> simp_all

theorem longBit_getLsbD (hj : j < 64) : (longBit i).getLsbD j = decide (j = i) := by
  simp only [longBit, BitVec.getLsbD_shiftLeft, hj, decide_true, Bool.true_and]
  by_cases hij : j < i
  · simp [hij, hij.ne]
  · rw [BitVec.getLsbD_one]
    simp only [hij, decide_false, Bool.not_false, Bool.true_and]
    have : (j - i = 0) ↔ j = i := by omega
    simp [this]

theorem and_longBit_ne_zero (hi : i < 64) : x &&& longBit i ≠ 0 ↔ x.getLsbD i = true := by
  rw [and_ne_zero_iff]
  constructor
  · rintro ⟨j, hj, hx, hbit⟩
    rw [longBit_getLsbD hj, decide_eq_true_eq] at hbit
    rwa [← hbit]
  · exact fun hx => ⟨i, hi, hx, by simp [longBit_getLsbD hi]⟩

theorem clear_getLsbD (hj : j < 64) : (x &&& ~~~longBit i).getLsbD j = (x.getLsbD j && decide (j ≠ i)) := by
  rw [BitVec.getLsbD_and, BitVec.getLsbD_not, longBit_getLsbD hj]
  simp [hj]

/-- Bits that are left of a set before number `m`: those from `m` on, and the ready ones. -/
def Left (ready : ℕ → Bool) (m : ℕ) (set x : BitVec 64) : Prop :=
  ∀ j < 64, x.getLsbD j = (set.getLsbD j && (decide (m ≤ j) || ready j))

variable {ready : ℕ → Bool} {m : ℕ} {set : BitVec 64}

theorem Left.keep (h : Left ready m set x) (hm : set.getLsbD m = true → ready m = true) : Left ready (m + 1) set x := by
  intro j hj
  rw [h j hj]
  by_cases hjm : j = m
  · subst hjm
    cases hset : set.getLsbD j with
    | false => rfl
    | true => simp [hm hset]
  · have : (m ≤ j) ↔ m + 1 ≤ j := by omega
    simp only [this]

theorem Left.clear (h : Left ready m set x) (hm : ready m = false) : Left ready (m + 1) set (x &&& ~~~longBit m) := by
  intro j hj
  rw [clear_getLsbD hj, h j hj]
  by_cases hjm : j = m
  · subst hjm
    simp [hm]
  · have : (m ≤ j) ↔ m + 1 ≤ j := by omega
    simp [hjm, this]

theorem Left.start (ready : ℕ → Bool) (set : BitVec 64) : Left ready 0 set set := by
  intro j _
  simp

end Bits

section Scan
variable {s : Descriptors} {p : ℕ} {ready : ℕ → Bool → Bool} {undefined : ℕ → BitVec 32} {num_fds m : ℕ}
  {reads writes : BitVec 64} {st : SelectState}

/-- The loop before number `m`, when all tests were right so far. -/
structure Scanned (s : Descriptors) (p : ℕ) (ready : ℕ → Bool → Bool) (m : ℕ) (reads writes : BitVec 64)
    (st : SelectState) : Prop where
  readsLeft : Left (readyAt s p ready false) m reads st.reads
  writesLeft : Left (readyAt s p ready true) m writes st.writes
  examined : ∀ i, i ∈ st.examined ↔ i < m ∧ writes.getLsbD i = true
  count : st.num_ready = ((List.range m).countP fun i => reads.getLsbD i && readyAt s p ready false i) +
    (List.range m).countP fun i => writes.getLsbD i && readyAt s p ready true i

theorem Scanned.test_iff (h : Scanned s p ready m reads writes st) :
    st.writes &&& intBit undefined m ≠ 0 ↔ ∃ j < 64, (intBit undefined m).getLsbD j = true ∧ writes.getLsbD j = true ∧
      (m ≤ j ∨ readyAt s p ready true j = true) := by
  rw [and_ne_zero_iff]
  constructor
  · rintro ⟨j, hj, hx, hbit⟩
    rw [h.writesLeft j hj, Bool.and_eq_true, Bool.or_eq_true, decide_eq_true_eq] at hx
    exact ⟨j, hj, hbit, hx⟩
  · rintro ⟨j, hj, hbit, hx⟩
    refine ⟨j, hj, ?_, hbit⟩
    rw [h.writesLeft j hj, Bool.and_eq_true, Bool.or_eq_true, decide_eq_true_eq]
    exact hx

theorem countP_range_succ (q : ℕ → Bool) (m : ℕ) :
    (List.range (m + 1)).countP q = (List.range m).countP q + if q m then 1 else 0 := by
  rw [List.range_succ, List.countP_append, List.countP_singleton]

/-- The part of the loop for reading. -/
theorem Scanned.selectRead (h : Scanned s p ready m reads writes st) (hm : m < 64)
    (hopen : reads.getLsbD m = true → openFor s p fileRead m ≠ none) :
    ∃ reads', SomeOs.Files.selectRead s p ready m st = .ok { st with
        reads := reads'
        num_ready := st.num_ready + if reads.getLsbD m && readyAt s p ready false m then 1 else 0 } ∧
      Left (readyAt s p ready false) (m + 1) reads reads' := by
  have htest : st.reads &&& longBit m ≠ 0 ↔ reads.getLsbD m = true := by
    rw [and_longBit_ne_zero hm, h.readsLeft m hm]
    simp
  unfold SomeOs.Files.selectRead
  by_cases hbit : reads.getLsbD m = true
  · obtain ⟨file, hfile⟩ := Option.ne_none_iff_exists'.mp (hopen hbit)
    have hready : readyAt s p ready false m = ready file false := by simp [readyAt, hfile]
    rw [if_pos (htest.mpr hbit), hfile]
    cases hrdy : ready file false with
    | true =>
      rw [hrdy] at hready
      exact ⟨st.reads, by simp [hbit, hready, hrdy], h.readsLeft.keep fun _ => hready⟩
    | false =>
      rw [hrdy] at hready
      exact ⟨st.reads &&& ~~~longBit m, by simp [hready, hrdy], h.readsLeft.clear hready⟩
  · rw [if_neg (mt htest.mp hbit)]
    exact ⟨st.reads, by simp [hbit], h.readsLeft.keep fun hset => absurd hset hbit⟩

/-- The part of the loop for writing, when its test is right. -/
theorem Left.selectWrite (h : Left (readyAt s p ready true) m writes st.writes)
    (htest : st.writes &&& intBit undefined m ≠ 0 ↔ writes.getLsbD m = true)
    (hopen : writes.getLsbD m = true → openFor s p fileWrite m ≠ none) :
    ∃ writes', selectWrite s p ready undefined m st = .ok { st with
        writes := writes'
        num_ready := st.num_ready + if writes.getLsbD m && readyAt s p ready true m then 1 else 0
        examined := if writes.getLsbD m then m :: st.examined else st.examined } ∧
      Left (readyAt s p ready true) (m + 1) writes writes' := by
  unfold SomeOs.Files.selectWrite
  by_cases hbit : writes.getLsbD m = true
  · obtain ⟨file, hfile⟩ := Option.ne_none_iff_exists'.mp (hopen hbit)
    have hready : readyAt s p ready true m = ready file true := by simp [readyAt, hfile]
    rw [if_pos (htest.mpr hbit), hfile]
    cases hrdy : ready file true with
    | true =>
      rw [hrdy] at hready
      exact ⟨st.writes, by simp [hbit, hready, hrdy], h.keep fun _ => hready⟩
    | false =>
      rw [hrdy] at hready
      exact ⟨st.writes &&& ~~~longBit m, by simp [hbit, hready, hrdy], h.clear hready⟩
  · rw [if_neg (mt htest.mp hbit)]
    exact ⟨st.writes, by simp [hbit], h.keep fun hset => absurd hset hbit⟩

/-- One number, when its test is right. -/
theorem Scanned.step (h : Scanned s p ready m reads writes st) (hm : m < 64)
    (hreads : reads.getLsbD m = true → openFor s p fileRead m ≠ none)
    (hwrites : writes.getLsbD m = true → openFor s p fileWrite m ≠ none)
    (htest : st.writes &&& intBit undefined m ≠ 0 ↔ writes.getLsbD m = true) :
    ∃ st₁ st', SomeOs.Files.selectRead s p ready m st = .ok st₁ ∧ selectWrite s p ready undefined m st₁ = .ok st' ∧
      Scanned s p ready (m + 1) reads writes st' := by
  obtain ⟨reads', hread, hreads'⟩ := h.selectRead hm hreads
  obtain ⟨writes', hwrite, hwrites'⟩ := @Left.selectWrite s p ready undefined m writes { st with
    reads := reads'
    num_ready := st.num_ready + if reads.getLsbD m && readyAt s p ready false m then 1 else 0 } h.writesLeft htest hwrites
  refine ⟨_, _, hread, hwrite, hreads', hwrites', fun i => ?_, ?_⟩
  · have hin := h.examined i
    by_cases hbit : writes.getLsbD m = true
    · simp only [hbit, if_true, List.mem_cons, hin, Nat.lt_succ_iff_lt_or_eq]
      constructor
      · rintro (rfl | ⟨hlt, hi⟩)
        · exact ⟨Or.inr rfl, hbit⟩
        · exact ⟨Or.inl hlt, hi⟩
      · rintro ⟨hlt | rfl, hi⟩
        · exact Or.inr ⟨hlt, hi⟩
        · exact Or.inl rfl
    · simp only [hbit, Bool.false_eq_true, if_false, hin, Nat.lt_succ_iff_lt_or_eq]
      refine and_congr_left fun hi => (or_iff_left ?_).symm
      rintro rfl
      exact hbit hi
  · dsimp only
    rw [countP_range_succ, countP_range_succ, h.count]
    omega

theorem selectRead_examined (s : Descriptors) (p : ℕ) (ready : ℕ → Bool → Bool) (st : SelectState) (m : ℕ) :
    (lastState (SomeOs.Files.selectRead s p ready m st)).examined = st.examined := by
  unfold SomeOs.Files.selectRead
  split_ifs
  · cases openFor s p fileRead m with
    | none => rfl
    | some file =>
      dsimp only
      split_ifs <;> rfl
  · rfl

theorem selectWrite_examined (s : Descriptors) (p : ℕ) (ready : ℕ → Bool → Bool) (undefined : ℕ → BitVec 32) (st : SelectState)
    (m : ℕ) : (lastState (selectWrite s p ready undefined m st)).examined =
      if st.writes &&& intBit undefined m ≠ 0 then m :: st.examined else st.examined := by
  unfold SomeOs.Files.selectWrite
  split_ifs
  · dsimp only
    cases openFor s p fileWrite m with
    | none => rfl
    | some file =>
      dsimp only
      split_ifs <;> rfl
  · rfl

/-- Later numbers do not change what was examined before. -/
theorem selectFrom_examined (n : ℕ) (st : SelectState) {i : ℕ} (hi : i < m) :
    i ∈ (lastState (selectFrom s p ready undefined n m st)).examined ↔ i ∈ st.examined := by
  induction n generalizing m st with
  | zero => rfl
  | succ n ih =>
    have hread := selectRead_examined s p ready st m
    unfold selectFrom
    cases hr : SomeOs.Files.selectRead s p ready m st with
    | error st₁ =>
      rw [hr] at hread
      exact iff_of_eq (congrArg _ hread)
    | ok st₁ =>
      have hwrite := selectWrite_examined s p ready undefined st₁ m
      have hkept : i ∈ (lastState (selectWrite s p ready undefined m st₁)).examined ↔ i ∈ st.examined := by
        rw [hr] at hread
        have hread : st₁.examined = st.examined := hread
        rw [hwrite, ← hread]
        split_ifs
        · rw [List.mem_cons, or_iff_right hi.ne]
        · rfl
      dsimp only
      cases hw : selectWrite s p ready undefined m st₁ with
      | error st₂ => rwa [hw] at hkept
      | ok st₂ =>
        rw [hw] at hkept
        exact (ih st₂ (Nat.lt_succ_of_lt hi)).trans hkept

theorem selectFrom_succ {st₁ st₂ : SelectState} (hread : SomeOs.Files.selectRead s p ready m st = .ok st₁)
    (hwrite : selectWrite s p ready undefined m st₁ = .ok st₂) (n : ℕ) :
    selectFrom s p ready undefined (n + 1) m st = selectFrom s p ready undefined n (m + 1) st₂ := by
  rw [selectFrom, hread]
  dsimp only
  rw [hwrite]

def TestRight (s : Descriptors) (p : ℕ) (ready : ℕ → Bool → Bool) (undefined : ℕ → BitVec 32) (writes : BitVec 64)
    (i : ℕ) : Prop :=
  (∃ j < 64, (intBit undefined i).getLsbD j = true ∧ writes.getLsbD j = true ∧ (i ≤ j ∨ readyAt s p ready true j = true)) ↔
    writes.getLsbD i = true

theorem Scanned.selectFrom (h : Scanned s p ready m reads writes st) (n : ℕ) (hn : m + n ≤ 64)
    (hreads : Requested s p fileRead (m + n) reads) (hwrites : Requested s p fileWrite (m + n) writes)
    (htest : ∀ i, m ≤ i → i < m + n → TestRight s p ready undefined writes i) :
    ∃ st', SomeOs.Files.selectFrom s p ready undefined n m st = .ok st' ∧ Scanned s p ready (m + n) reads writes st' := by
  induction n generalizing m st with
  | zero => exact ⟨st, rfl, h⟩
  | succ n ih =>
    obtain ⟨st₁, st₂, hread, hwrite, hnext⟩ := h.step (by omega) (hreads m (by omega)) (hwrites m (by omega))
      (h.test_iff.trans (htest m le_rfl (by omega)))
    have harrange : m + 1 + n = m + (n + 1) := by omega
    obtain ⟨st', hrest, hscanned⟩ := ih hnext (by omega) (by rwa [harrange]) (by rwa [harrange])
      fun i hi hlt => htest i (by omega) (by omega)
    rw [harrange] at hscanned
    exact ⟨st', (selectFrom_succ hread hwrite n).trans hrest, hscanned⟩

/-- If exactly the numbers in the set are examined, all tests were right. -/
theorem Scanned.tests_right (h : Scanned s p ready m reads writes st) (n : ℕ) (hn : m + n ≤ 64)
    (hreads : Requested s p fileRead (m + n) reads) (hwrites : Requested s p fileWrite (m + n) writes)
    (hexamined : ∀ i, m ≤ i → i < m + n →
      (i ∈ (lastState (SomeOs.Files.selectFrom s p ready undefined n m st)).examined ↔ writes.getLsbD i = true)) :
    ∀ i, m ≤ i → i < m + n → TestRight s p ready undefined writes i := by
  induction n generalizing m st with
  | zero => intro i hi hlt; omega
  | succ n ih =>
    obtain ⟨reads', hread, hreads'⟩ := h.selectRead (by omega) (hreads m (by omega))
    set st₁ : SelectState := { st with
      reads := reads'
      num_ready := st.num_ready + if reads.getLsbD m && readyAt s p ready false m then 1 else 0 } with hst₁
    have hm := hexamined m le_rfl (by omega)
    -- number `m` is examined if and only if the test says so
    have hseen : m ∈ (lastState (SomeOs.Files.selectFrom s p ready undefined (n + 1) m st)).examined ↔
        st.writes &&& intBit undefined m ≠ 0 := by
      have hwrite := selectWrite_examined s p ready undefined st₁ m
      have hbefore : m ∉ st.examined := fun hin => lt_irrefl m ((h.examined m).mp hin).1
      have hlast : m ∈ (lastState (selectWrite s p ready undefined m st₁)).examined ↔ st.writes &&& intBit undefined m ≠ 0 := by
        rw [hwrite]
        split_ifs with htest
        · exact iff_of_true List.mem_cons_self htest
        · exact iff_of_false hbefore htest
      rw [SomeOs.Files.selectFrom, hread]
      dsimp only
      cases hw : selectWrite s p ready undefined m st₁ with
      | error st₂ => rwa [hw] at hlast
      | ok st₂ =>
        rw [hw] at hlast
        exact (selectFrom_examined n st₂ (Nat.lt_succ_self m)).trans hlast
    have htest := hseen.symm.trans hm
    obtain ⟨st₁', st₂, hread', hwrite, hnext⟩ := h.step (by omega) (hreads m (by omega)) (hwrites m (by omega)) htest
    intro i hi hlt
    rcases hi.eq_or_lt with rfl | hi
    · exact h.test_iff.symm.trans htest
    have harrange : m + 1 + n = m + (n + 1) := by omega
    refine ih hnext (by omega) (by rwa [harrange]) (by rwa [harrange]) (fun j hj hjlt => ?_) i hi (by omega)
    have hj' := hexamined j (by omega) (by omega)
    rwa [selectFrom_succ hread' hwrite n] at hj'

theorem countP_range_below (q : ℕ → Bool) {n N : ℕ} (h : n ≤ N) :
    ((List.range N).countP fun i => decide (i < n) && q i) = (List.range n).countP q := by
  obtain ⟨d, rfl⟩ := Nat.exists_eq_add_of_le h
  rw [List.range_add, List.countP_append]
  have hbelow : ((List.range n).countP fun i => decide (i < n) && q i) = (List.range n).countP q :=
    List.countP_congr fun i hi => by simp [List.mem_range.mp hi]
  have habove : ((List.range d).map (n + ·)).countP (fun i => decide (i < n) && q i) = 0 := by
    rw [List.countP_eq_zero]
    intro i hi
    obtain ⟨j, -, rfl⟩ := List.mem_map.mp hi
    simp
  omega

theorem Left.isReady_iff {write : Bool} {set x : BitVec 64} (h : Left (readyAt s p ready write) num_fds set x) :
    IsReady s p ready write num_fds set x ↔ ∀ i < 64, num_fds ≤ i → set.getLsbD i = false := by
  refine forall₂_congr fun i hi => ?_
  rw [h i hi]
  by_cases hlt : i < num_fds
  · simp [hlt, not_le.mpr hlt]
  · simp [hlt, not_lt.mp hlt]

theorem IsReady.bitCount {write : Bool} {set x : BitVec 64} (h : IsReady s p ready write num_fds set x) (hn : num_fds ≤ 64) :
    bitCount x = (List.range num_fds).countP fun i => set.getLsbD i && readyAt s p ready write i := by
  rw [← countP_range_below _ hn]
  refine List.countP_congr fun i hi => ?_
  rw [h i (List.mem_range.mp hi)]
  cases set.getLsbD i <;> cases decide (i < num_fds) <;> simp

end Scan

section Right
variable {s : Descriptors} {p : ℕ} {ready : ℕ → Bool → Bool} {undefined : ℕ → BitVec 32} {num_fds : ℕ} {reads writes : BitVec 64}

theorem scanned_start (s : Descriptors) (p : ℕ) (ready : ℕ → Bool → Bool) (reads writes : BitVec 64) :
    Scanned s p ready 0 reads writes ⟨reads, writes, 0, []⟩ :=
  ⟨.start _ _, .start _ _, by simp, by simp⟩

theorem Scanned.num_ready_pos {st : SelectState} (h : Scanned s p ready num_fds reads writes st) :
    st.num_ready ≠ 0 ↔ ∃ i < num_fds, (reads.getLsbD i = true ∧ readyAt s p ready false i = true) ∨
      (writes.getLsbD i = true ∧ readyAt s p ready true i = true) := by
  rw [h.count, ← Nat.pos_iff_ne_zero, Nat.add_pos_iff_pos_or_pos, List.countP_pos_iff, List.countP_pos_iff]
  simp only [List.mem_range, Bool.and_eq_true, ← exists_or, ← and_or_left]

theorem handleSelectWakeup_examined (s : Descriptors) (p : ℕ) (ready : ℕ → Bool → Bool) (undefined : ℕ → BitVec 32)
    (timeout : Bool) (num_fds : ℕ) (reads writes : BitVec 64) :
    (handleSelectWakeup s p ready undefined false timeout num_fds reads writes).examined =
      (lastState (selectFrom s p ready undefined num_fds 0 ⟨reads, writes, 0, []⟩)).examined := by
  unfold handleSelectWakeup
  simp only [Bool.false_eq_true, if_false]
  cases selectFrom s p ready undefined num_fds 0 ⟨reads, writes, 0, []⟩ with
  | error st => rfl
  | ok st =>
    dsimp only
    split_ifs <;> rfl

theorem handleSelectWakeup_positive {timeout : Bool} {st : SelectState} {k : ℕ}
    (hrun : selectFrom s p ready undefined num_fds 0 ⟨reads, writes, 0, []⟩ = .ok st) :
    ((handleSelectWakeup s p ready undefined false timeout num_fds reads writes).woken = some (.ok k) ∧ 0 < k) ↔
      k = st.num_ready ∧ st.num_ready ≠ 0 := by
  unfold handleSelectWakeup
  simp only [Bool.false_eq_true, if_false, hrun]
  split_ifs with hpos
  · simp only [Option.some.injEq, Except.ok.injEq, hpos, ne_eq, not_false_eq_true, and_true]
    omega
  · simp only [Option.some.injEq, Except.ok.injEq]
    omega
  · simp
    omega

theorem handleSelectWakeup_sets {timeout : Bool} {st : SelectState}
    (hrun : selectFrom s p ready undefined num_fds 0 ⟨reads, writes, 0, []⟩ = .ok st) (hpos : st.num_ready ≠ 0) :
    (handleSelectWakeup s p ready undefined false timeout num_fds reads writes).sets = some (st.reads, st.writes) := by
  unfold handleSelectWakeup
  simp only [Bool.false_eq_true, if_false, hrun]
  rw [if_pos hpos]

/-- For open descriptors, `select` is right exactly when its `int` bits do no harm and, if something
is ready, there are no bits from the limit on. -/
theorem handleSelectWakeup_right_iff (undefined : ℕ → BitVec 32) (signal timeout : Bool) (hn : num_fds ≤ 64)
    (hreads : Requested s p fileRead num_fds reads) (hwrites : Requested s p fileWrite num_fds writes) :
    SelectRight s p ready signal num_fds reads writes
      (handleSelectWakeup s p ready undefined signal timeout num_fds reads writes) ↔
      SelectSound s p ready undefined signal num_fds reads writes := by
  cases signal with
  | true => exact iff_of_true (fun h => by cases h) (Or.inl rfl)
  | false =>
    have hstart := scanned_start s p ready reads writes
    have hreads' : Requested s p fileRead (0 + num_fds) reads := by rwa [Nat.zero_add]
    have hwrites' : Requested s p fileWrite (0 + num_fds) writes := by rwa [Nat.zero_add]
    simp only [SelectRight, SelectSound, forall_const, Bool.false_eq_true, false_or, handleSelectWakeup_examined]
    have htests : (∀ i < num_fds, i ∈ (lastState (selectFrom s p ready undefined num_fds 0 ⟨reads, writes, 0, []⟩)).examined ↔
        writes.getLsbD i = true) ↔ ∀ i < num_fds, TestRight s p ready undefined writes i := by
      constructor
      · intro h i hi
        exact hstart.tests_right num_fds (by omega) hreads' hwrites' (fun i _ hi => h i (by omega)) i (Nat.zero_le i) (by omega)
      · intro h i hi
        obtain ⟨st, hrun, hscanned⟩ := hstart.selectFrom num_fds (by omega) hreads' hwrites' fun i _ hi => h i (by omega)
        rw [hrun, Nat.zero_add] at *
        exact (hscanned.examined i).trans (and_iff_right hi)
    refine (and_congr_left' htests).trans (and_congr_right fun htest => ?_)
    obtain ⟨st, hrun, hscanned⟩ := hstart.selectFrom num_fds (by omega) hreads' hwrites' fun i _ hi => htest i (by omega)
    rw [Nat.zero_add] at hscanned
    rw [← hscanned.num_ready_pos]
    constructor
    · intro h hpos
      obtain ⟨hwoken, hk⟩ := (handleSelectWakeup_positive hrun).mpr ⟨rfl, hpos⟩
      obtain ⟨reads', writes', hsets, hr, hw, -⟩ := h _ hwoken hk
      rw [handleSelectWakeup_sets hrun hpos] at hsets
      cases hsets
      exact fun i hi hlimit => ⟨hscanned.readsLeft.isReady_iff.mp hr i hi hlimit,
        hscanned.writesLeft.isReady_iff.mp hw i hi hlimit⟩
    · intro h k hwoken hk
      obtain ⟨rfl, hpos⟩ := (handleSelectWakeup_positive hrun).mp ⟨hwoken, hk⟩
      have hr := hscanned.readsLeft.isReady_iff.mpr fun i hi hlimit => (h hpos i hi hlimit).1
      have hw := hscanned.writesLeft.isReady_iff.mpr fun i hi hlimit => (h hpos i hi hlimit).2
      refine ⟨st.reads, st.writes, handleSelectWakeup_sets hrun hpos, hr, hw, ?_⟩
      rw [hr.bitCount hn, hw.bitCount hn]
      exact hscanned.count

end Right

/-- A process with files open for reading and writing, at the numbers from `k` on. -/
def filesFrom (k n : ℕ) : Descriptors :=
  ⟨fun a => ⟨a, k + a, 0, 1⟩, fun _ => ⟨1, 3⟩, fun p => if p = 0 then List.range n else [], n, n, 1⟩

/-- Of the numbers 0 and 2 for reading and 1 and 2 for writing, 2 has something to read and 1 has room. -/
theorem handleSelectWakeup_right_three : SelectRight (filesFrom 0 3) 0
    (fun file write => file == if write then 1 else 2) false 3 5#64 6#64
    (handleSelectWakeup (filesFrom 0 3) 0 (fun file write => file == if write then 1 else 2) (fun _ => 0) false false
      3 5#64 6#64) := by
  refine (handleSelectWakeup_right_iff (fun _ => 0) false false (by decide) ?_ ?_).mpr ?_
  · unfold Requested
    decide
  · unfold Requested
    decide
  · unfold SelectSound
    decide +kernel

/-- With only number 40 in the write set, number 31 is examined for writing. -/
theorem select_examines_other : ¬∀ (s : Descriptors) (p : ℕ) (ready : ℕ → Bool → Bool) (undefined : ℕ → BitVec 32)
    (signal timeout : Bool) (num_fds : ℕ) (reads writes : BitVec 64), num_fds ≤ 64 →
    Requested s p fileRead num_fds reads → Requested s p fileWrite num_fds writes →
    SelectRight s p ready signal num_fds reads writes
      (handleSelectWakeup s p ready undefined signal timeout num_fds reads writes) := by
  intro h
  have hwrites : Requested (filesFrom 40 1) 0 fileWrite 64 (longBit 40) := by
    intro i hi hset
    rw [longBit_getLsbD hi, decide_eq_true_eq] at hset
    rw [hset]
    exact Option.some_ne_none 0
  have hright := h (filesFrom 40 1) 0 (fun _ _ => true) (fun _ => 0) false false 64 0 (longBit 40) le_rfl
    (by simp [Requested]) hwrites
  have hexamined := ((hright rfl).1 31 (by decide)).mp (by decide)
  rw [longBit_getLsbD (by decide)] at hexamined
  exact absurd hexamined (by decide)

end SomeOs.Files
