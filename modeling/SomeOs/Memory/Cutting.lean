import SomeOs.Memory.VirtPtr

/-! # The parts of a buffer

The loop that cuts a buffer into parts asks for the addresses of the positions one after the
other, and again for the first one of the part it is at. When the answers agree, the loop is a
function of them, and the parts lead to the bytes of the buffer up to the first position without
an address.
-/
namespace SomeOs.MemSpace
open SparseArray PageRef Paging Scatter

/-- The parts when the position `j` has the physical address `v j`, or 0 for none, and the number of
positions that were asked for. -/
def cutParts (a stop : ℕ) (v : ℕ → ℕ) : ℕ → ℕ → ℕ → List Part × ℕ
  | 0, _, j => ([], j + 1)
  | fuel + 1, i, j =>
    if position a i < stop then
      if v i = 0 then ([], j + 1)
      else if v (j + 1) ≠ v i + (position a (j + 1) - position a i) ∨ stop < position a (j + 1) then
        let rest := cutParts a stop v fuel (j + 1) (j + 1)
        ({ address := v i
           offset := position a i - a
           length := min stop (position a (j + 1)) - position a i } :: rest.1, rest.2)
      else cutParts a stop v fuel i (j + 1)
    else ([], j + 1)

/-- The positions from `i` to `j` are consecutive in physical memory. -/
def Consecutive (a : ℕ) (v : ℕ → ℕ) (i j : ℕ) : Prop :=
  ∀ l, i ≤ l → l ≤ j → v l = v i + (position a l - position a i)

/-- The buffer can be used from the position `i` on for `len` bytes after its start. -/
structure Reaches (a stop : ℕ) (v : ℕ → ℕ) (i len : ℕ) : Prop where
  le : len ≤ stop - a
  usable : ∀ l, i ≤ l → position a l - a < len → v l ≠ 0
  ends : len = stop - a ∨ ∃ l, i ≤ l ∧ position a l - a = len ∧ v l = 0

section Cut
variable {a stop i j : ℕ} {v place : ℕ → ℕ}

theorem Consecutive.refl (a : ℕ) (v : ℕ → ℕ) (i : ℕ) : Consecutive a v i i := by
  intro l h1 h2
  obtain rfl : l = i := by omega
  omega

theorem Consecutive.succ (h : Consecutive a v i j) (hnext : v (j + 1) = v i + (position a (j + 1) - position a i)) :
    Consecutive a v i (j + 1) := by
  intro l h1 h2
  rcases Nat.lt_or_eq_of_le h2 with h2 | rfl
  · exact h l h1 (by omega)
  · exact hnext

theorem Consecutive.ne_zero (h : Consecutive a v i j) (hi : v i ≠ 0) {l : ℕ} (h1 : i ≤ l) (h2 : l ≤ j) : v l ≠ 0 := by
  have := h l h1 h2
  omega

theorem position_between {x : ℕ} (hij : i ≤ j) (h1 : position a i ≤ x) (h2 : x < position a (j + 1)) :
    ∃ l, i ≤ l ∧ l ≤ j ∧ position a l ≤ x ∧ x < position a (l + 1) := by
  induction j with
  | zero => exact ⟨0, by omega, le_refl _, by rwa [show i = 0 by omega] at h1, h2⟩
  | succ j ih =>
    by_cases hx : position a (j + 1) ≤ x
    · exact ⟨j + 1, hij, le_refl _, hx, h2⟩
    · have hij' : i ≤ j := by
        by_contra hno
        obtain rfl : i = j + 1 := by omega
        exact hx h1
      obtain ⟨l, hl1, hl2, hl3, hl4⟩ := ih hij' (by omega)
      exact ⟨l, hl1, by omega, hl3, hl4⟩

theorem Consecutive.place_eq (h : Consecutive a v i j) (hij : i ≤ j) (hi : v i ≠ 0)
    (hplace : ∀ j k, v j ≠ 0 → position a j + k < position a (j + 1) → place (position a j - a + k) = v j + k) {k : ℕ}
    (hk : position a i + k < position a (j + 1)) : place (position a i - a + k) = v i + k := by
  obtain ⟨l, hl1, hl2, hl3, hl4⟩ := position_between hij (Nat.le_add_right _ k) hk
  obtain ⟨k', hk'⟩ := Nat.exists_eq_add_of_le hl3
  have hbyte := hplace l k' (h.ne_zero hi hl1 hl2) (by omega)
  have hvl := h l hl1 hl2
  have hle := le_position a i
  have hmono := position_mono (a := a) hl1
  rw [show position a i - a + k = position a l - a + k' by omega, hbyte]
  omega

theorem reaches_stop (h : stop ≤ position a i) : Reaches a stop v i (stop - a) where
  le := le_refl _
  usable l hl hlt := by
    have := position_mono (a := a) hl
    omega
  ends := Or.inl rfl

/-- The parts cover the buffer up to its end or to the first position without an address. -/
theorem cutParts_cut (hstop : a ≤ stop)
    (hplace : ∀ j k, v j ≠ 0 → position a j + k < position a (j + 1) → place (position a j - a + k) = v j + k)
    (fuel : ℕ) (hij : i ≤ j) (hi : v i ≠ 0 ∨ i = j) (hpos : position a j ≤ stop ∨ i = j) (hrun : Consecutive a v i j)
    (hfuel : stop < position a (j + fuel)) :
    ∃ len, Cut place (min (position a i) stop - a) (cutParts a stop v fuel i j).1 len ∧ Reaches a stop v i len ∧
      ∀ l, position a l < a + len → l < (cutParts a stop v fuel i j).2 := by
  have hasked : ∀ {x j l : ℕ}, position a l < a + (x - a) → x ≤ position a j → a ≤ x → l < j + 1 := by
    intro x j l hl hx hax
    by_contra hno
    have := position_mono (a := a) (show j ≤ l by omega)
    omega
  induction fuel generalizing i j with
  | zero =>
    rw [Nat.add_zero] at hfuel
    obtain rfl : i = j := by
      rcases hpos with hpos | hpos
      · omega
      · exact hpos
    refine ⟨stop - a, ?_, reaches_stop hfuel.le, fun l hl => hasked hl hfuel.le hstop⟩
    rw [min_eq_right hfuel.le]
    rfl
  | succ fuel ih =>
    have hle := le_position a i
    have hnext := position_lt_succ a j
    have hmono := position_mono (a := a) hij
    have hfuel' : stop < position a (j + 1 + fuel) := by rwa [Nat.add_assoc, Nat.add_comm 1 fuel]
    unfold cutParts
    split_ifs with hlt hzero hcut
    · -- The first position of the part has no address.
      refine ⟨position a i - a, ?_, ⟨by omega, ?_, Or.inr ⟨i, le_refl _, rfl, hzero⟩⟩, fun l hl => hasked hl hmono hle⟩
      · rw [min_eq_left hlt.le]
        rfl
      · intro l hl hltl
        have := position_mono (a := a) hl
        omega
    · obtain ⟨len, hcutrest, hreach, hmore⟩ :=
        ih (le_refl (j + 1)) (Or.inr rfl) (Or.inr rfl) (Consecutive.refl a v (j + 1)) hfuel'
      refine ⟨len, ⟨?_, ?_, ?_, ?_⟩, ⟨hreach.le, ?_, ?_⟩, hmore⟩
      · dsimp only
        omega
      · dsimp only
        omega
      · intro k hk
        rw [min_eq_left hlt.le]
        apply hrun.place_eq hij hzero hplace
        dsimp only at hk
        omega
      · have hcur : min (position a i) stop - a + (min stop (position a (j + 1)) - position a i) =
            min (position a (j + 1)) stop - a := by omega
        dsimp only
        rw [hcur]
        exact hcutrest
      · intro l hl hltl
        by_cases hlj : l ≤ j
        · exact hrun.ne_zero hzero hl hlj
        · exact hreach.usable l (by omega) hltl
      · rcases hreach.ends with hend | ⟨l, hl, hend⟩
        · exact Or.inl hend
        · exact Or.inr ⟨l, by omega, hend⟩
    · -- The next page follows in physical memory.
      push Not at hcut
      exact ih (by omega) (Or.inl hzero) (Or.inl hcut.2) (hrun.succ hcut.1) hfuel'
    · refine ⟨stop - a, ?_, reaches_stop (by omega), fun l hl => hasked hl (by omega) hstop⟩
      rw [min_eq_right (by omega)]
      rfl

theorem cutParts_asked (a stop : ℕ) (v : ℕ → ℕ) (fuel i j : ℕ) : j < (cutParts a stop v fuel i j).2 := by
  induction fuel generalizing i j with
  | zero => exact Nat.lt_succ_self j
  | succ fuel ih =>
    unfold cutParts
    split_ifs
    · exact Nat.lt_succ_self j
    · exact (Nat.lt_succ_self j).trans (ih (j + 1) (j + 1))
    · exact (Nat.lt_succ_self j).trans (ih i (j + 1))
    · exact Nat.lt_succ_self j

theorem cutParts_head (fuel : ℕ) : ∀ p ∈ (cutParts a stop v fuel i j).1.head?, p.address = v i ∧ position a i < stop := by
  induction fuel generalizing j with
  | zero =>
    intro p hp
    cases hp
  | succ fuel ih =>
    unfold cutParts
    split_ifs with hlt hzero hcut
    · intro p hp
      cases hp
    · rintro p ⟨⟩
      exact ⟨rfl, hlt⟩
    · exact ih
    · intro p hp
      cases hp

theorem cutParts_apart (fuel : ℕ) :
    (cutParts a stop v fuel i j).1.IsChain fun p q => q.address ≠ p.address + p.length := by
  induction fuel generalizing i j with
  | zero => exact .nil
  | succ fuel ih =>
    unfold cutParts
    split_ifs with hlt hzero hcut
    · exact .nil
    · refine List.isChain_cons.mpr ⟨fun q hq => ?_, ih⟩
      obtain ⟨hq, hnext⟩ := cutParts_head fuel q hq
      have hv := hcut.resolve_right (by omega)
      dsimp only
      rw [hq, min_eq_right hnext.le]
      exact hv
    · exact ih
    · exact .nil

theorem cutParts_end (fuel : ℕ) (h : stop ≤ position a i) : cutParts a stop v fuel i j = ([], j + 1) := by
  cases fuel with
  | zero => rfl
  | succ fuel => rw [cutParts, if_neg (by omega)]

theorem cutParts_first (fuel : ℕ) (hlt : a < stop) (hzero : v 0 ≠ 0) : cutParts a stop v (fuel + 1) 0 0 =
    if v 1 ≠ v 0 + (position a 1 - a) ∨ stop < position a 1 then
      ({ address := v 0
         offset := a - a
         length := min stop (position a 1) - a } :: (cutParts a stop v fuel 1 1).1, (cutParts a stop v fuel 1 1).2)
    else cutParts a stop v fuel 0 1 := by
  rw [cutParts]
  simp only [position_zero, if_pos hlt, if_neg hzero, Nat.zero_add]

theorem cutParts_shift (fuel : ℕ) (hi : v 0 ≠ 0) (hnext : v 1 = v 0 + (position a 1 - position a 0)) (hlt : position a 1 < stop)
    (hj : 0 < j) : (cutParts a stop v fuel 1 j).1.length = (cutParts a stop v fuel 0 j).1.length ∧
      (cutParts a stop v fuel 1 j).2 = (cutParts a stop v fuel 0 j).2 := by
  induction fuel generalizing j with
  | zero => exact ⟨rfl, rfl⟩
  | succ fuel ih =>
    have h01 := position_strict (a := a) Nat.zero_lt_one
    have hmono := position_mono (a := a) (show 1 ≤ j + 1 by omega)
    have hiff : v (j + 1) = v 1 + (position a (j + 1) - position a 1) ↔
      v (j + 1) = v 0 + (position a (j + 1) - position a 0) := by
      omega
    have hi1 : v 1 ≠ 0 := by omega
    unfold cutParts
    simp only [if_pos hlt, if_pos (h01.trans hlt), if_neg hi, if_neg hi1, Ne, hiff]
    split_ifs
    · exact ⟨rfl, rfl⟩
    · exact ih (by omega)

end Cut

/-- The answers to the questions of the loop: position `j` is asked for first in the state `S j`, and has the
address `v j` from then on. -/
structure Answers (addr : VirtPtr) (write : Bool) (S : ℕ → MemState) (v : ℕ → ℕ) : Prop where
  step : ∀ j, virtToPhys (S (j + 1)) addr.table (position addr.address (j + 1)) write addr.allow_all = (v (j + 1), S (j + 2))
  again : ∀ i k, i < k → v i ≠ 0 →
    virtToPhys (S k) addr.table (position addr.address i) write addr.allow_all = (v i, S k)
  zero : ∀ j, v j = 0 →
    virtToPhys (S (j + 1)) addr.table (position addr.address j) write addr.allow_all = (0, S (j + 1))
  narrow : ∀ j, v j < 2 ^ 57

section Loop
variable {addr : VirtPtr} {write : Bool} {S : ℕ → MemState} {v : ℕ → ℕ} {stop i j : ℕ}

theorem sub64_of_le {x y : ℕ} (h : y ≤ x) (hx : x < 2 ^ 64) : sub64 x y = x - y := by
  unfold sub64
  omega

theorem sub64_eq_iff {x y d : ℕ} (hx : x < 2 ^ 57) (hy : y < 2 ^ 57) (hd : d < 2 ^ 58) : sub64 x y = d ↔ x = y + d := by
  unfold sub64
  omega

/-- The loop is a function of the answers. -/
theorem partsLoop_eq (hA : Answers addr write S v) (hwrap : stop + pageSize < 2 ^ 64) (fuel : ℕ) (hij : i ≤ j)
    (hi : v i ≠ 0 ∨ i = j) (hpos : position addr.address j ≤ stop ∨ i = j) (hrun : Consecutive addr.address v i j)
    (hfuel : stop < position addr.address (j + fuel)) :
    partsLoop addr stop write (fuel + 1) (position addr.address i) (position addr.address j) (S (j + 1)) =
      some ((cutParts addr.address stop v (fuel + 1) i j).1, S (cutParts addr.address stop v (fuel + 1) i j).2) := by
  induction fuel generalizing i j with
  | zero =>
    rw [Nat.add_zero] at hfuel
    obtain rfl : i = j := by
      rcases hpos with hpos | hpos
      · omega
      · exact hpos
    simp only [partsLoop, cutParts, if_neg (show ¬position addr.address i < stop by omega)]
  | succ fuel ih =>
    have hle := le_position addr.address i
    have hmono := position_mono (a := addr.address) hij
    have hnext := position_lt_succ addr.address j
    have hnextle := position_succ_le addr.address j
    have hfuel' : stop < position addr.address (j + 1 + fuel) := by rwa [Nat.add_assoc, Nat.add_comm 1 fuel]
    by_cases hlt : position addr.address i < stop
    · have hjstop : position addr.address j ≤ stop := by
        rcases hpos with hpos | rfl
        · exact hpos
        · omega
      have hnextpos : (position addr.address j + pageSize) % 2 ^ 64 / pageSize * pageSize = position addr.address (j + 1) := by
        rw [Nat.mod_eq_of_lt (by omega), position_next]
      by_cases hzero : v i = 0
      · obtain rfl : i = j := hi.resolve_left (by simpa using hzero)
        rw [partsLoop, cutParts]
        simp only [if_pos hlt, hA.zero i hzero, hzero, if_true]
      · have hstart := hA.again i (j + 1) (by omega) hzero
        have hend := hA.step j
        have hwide : position addr.address (j + 1) - position addr.address i < 2 ^ 58 := by
          have hj := hrun j hij (le_refl j)
          have := hA.narrow j
          simp only [pageSize] at *
          omega
        have hcond : (sub64 (v (j + 1)) (v i) ≠ sub64 (position addr.address (j + 1)) (position addr.address i) ∨
            stop < position addr.address (j + 1)) ↔
            (v (j + 1) ≠ v i + (position addr.address (j + 1) - position addr.address i) ∨
              stop < position addr.address (j + 1)) := by
          rw [sub64_of_le (show position addr.address i ≤ position addr.address (j + 1) by omega) (by omega), Ne,
            sub64_eq_iff (hA.narrow _) (hA.narrow _) hwide]
        have hlen : (if stop < position addr.address (j + 1) then sub64 stop (position addr.address i)
            else sub64 (position addr.address (j + 1)) (position addr.address i)) =
            min stop (position addr.address (j + 1)) - position addr.address i := by
          split_ifs <;> rw [sub64_of_le] <;> omega
        rw [partsLoop, cutParts]
        simp only [if_pos hlt, hnextpos, hstart, hend, if_neg hzero, hcond, hlen]
        split_ifs with hcut
        · rw [ih (le_refl (j + 1)) (Or.inr rfl) (Or.inr rfl) (Consecutive.refl _ v (j + 1)) hfuel',
            sub64_of_le hle (by omega)]
          rfl
        · push Not at hcut
          exact ih (by omega) (Or.inl hzero) (Or.inl hcut.2) (hrun.succ hcut.1) hfuel'
    · rw [partsLoop, cutParts]
      simp only [if_neg hlt]

end Loop

end SomeOs.MemSpace
