import Mathlib

/-! # Linear probing in a circular table

The slot sequence `start, start + 1, …` is followed modulo the capacity until a
stopping test holds. A budget of one full turn is enough: a loop that leaves as
soon as it is back at its start and a loop that is known to stop agree with it.
-/
namespace SomeOs.LinearProbe

/-- The first slot from `idx` on at which `stop` holds, within `fuel` steps. -/
def probe (stop : ℕ → Bool) (cap : ℕ) : ℕ → ℕ → ℕ
  | 0, idx => idx
  | fuel + 1, idx => if stop idx then idx else probe stop cap fuel ((idx + 1) % cap)

variable {stop : ℕ → Bool} {cap : ℕ}

private theorem add_succ_mod (idx j : ℕ) :
    ((idx + 1) % cap + j) % cap = (idx + (j + 1)) % cap := by
  rw [Nat.mod_add_mod]
  congr 1
  omega

/-- A stopping slot that no earlier slot of the sequence precedes is the result. -/
theorem probe_eq_of_first {fuel idx k : ℕ} (hidx : idx < cap) (hk : k < fuel)
    (hstop : stop ((idx + k) % cap) = true)
    (hbefore : ∀ j < k, stop ((idx + j) % cap) = false) :
    probe stop cap fuel idx = (idx + k) % cap := by
  induction fuel generalizing idx k with
  | zero => omega
  | succ fuel ih =>
    have hpos : 0 < cap := by omega
    cases k with
    | zero =>
      have h0 : (idx + 0) % cap = idx := by simpa using Nat.mod_eq_of_lt hidx
      rw [h0] at hstop ⊢
      simp [probe, hstop]
    | succ k =>
      have h0 := hbefore 0 (by omega)
      rw [Nat.add_zero, Nat.mod_eq_of_lt hidx] at h0
      have hrec := @ih ((idx + 1) % cap) k (Nat.mod_lt _ hpos) (by omega)
        (by rw [add_succ_mod]; exact hstop)
        (by intro j hj; rw [add_succ_mod]; exact hbefore (j + 1) (by omega))
      simp only [probe, h0, Bool.false_eq_true, ↓reduceIte]
      rw [hrec, add_succ_mod]

theorem probe_lt {fuel idx : ℕ} (hidx : idx < cap) : probe stop cap fuel idx < cap := by
  induction fuel generalizing idx with
  | zero => exact hidx
  | succ fuel ih =>
    simp only [probe]
    split
    · exact hidx
    · exact ih (Nat.mod_lt _ (by omega))

theorem exists_offset {start i : ℕ} (hs : start < cap) (hi : i < cap) :
    ∃ k < cap, (start + k) % cap = i := by
  rcases Nat.lt_or_ge i start with h | h
  · refine ⟨cap - start + i, by omega, ?_⟩
    have he : start + (cap - start + i) = i + cap := by omega
    rw [he, Nat.add_mod_right, Nat.mod_eq_of_lt hi]
  · refine ⟨i - start, by omega, ?_⟩
    have he : start + (i - start) = i := by omega
    rw [he, Nat.mod_eq_of_lt hi]

/-- If some slot of the table stops the search, one full turn ends at the first
one of the sequence. -/
theorem probe_spec (start : ℕ) (hs : start < cap) (hex : ∃ i < cap, stop i = true) :
    ∃ k < cap, probe stop cap cap start = (start + k) % cap ∧
      stop ((start + k) % cap) = true ∧ ∀ j < k, stop ((start + j) % cap) = false := by
  obtain ⟨i, hi, hstop⟩ := hex
  obtain ⟨k, hk, hki⟩ := exists_offset hs hi
  have hne : ∃ k, k < cap ∧ stop ((start + k) % cap) = true := ⟨k, hk, by rw [hki]; exact hstop⟩
  have hfirst := Nat.find_spec hne
  have hbefore : ∀ j < Nat.find hne, stop ((start + j) % cap) = false := by
    intro j hj
    have hmin := Nat.find_min hne hj
    have hjc : j < cap := by omega
    simpa [hjc] using hmin
  exact ⟨Nat.find hne, hfirst.1, probe_eq_of_first hs hfirst.1 hfirst.2 hbefore, hfirst.2, hbefore⟩

theorem probe_of_none {fuel idx : ℕ} (hpos : 0 < cap) (hidx : idx < cap) (h : ∀ i < cap, stop i = false) :
    probe stop cap fuel idx = (idx + fuel) % cap := by
  induction fuel generalizing idx with
  | zero => exact (Nat.mod_eq_of_lt hidx).symm
  | succ fuel ih =>
    simp only [probe, h idx hidx, Bool.false_eq_true, if_false]
    rw [ih (Nat.mod_lt _ hpos), add_succ_mod]

/-- A loop that follows the slots until it may stop; a guarded one leaves when it is back at its start. -/
structure ProbeLoop where
  stop : ℕ → Bool
  guarded : Bool
  cap : ℕ
  start : ℕ

namespace ProbeLoop
variable {l : ProbeLoop}

/-- The loop is left after `k` rounds. -/
def Leaves (l : ProbeLoop) (k : ℕ) : Prop :=
  l.stop ((l.start + k) % l.cap) = true ∨ l.guarded = true ∧ 0 < k ∧ (l.start + k) % l.cap = l.start

/-- The loop is left within one turn, at the slot that `probe` returns. -/
def Ends (l : ProbeLoop) : Prop :=
  ∃ k ≤ l.cap, l.Leaves k ∧ (∀ j < k, ¬l.Leaves j) ∧ probe l.stop l.cap l.cap l.start = (l.start + k) % l.cap

theorem not_back {j : ℕ} (hs : l.start < l.cap) (hpos : 0 < j) (hj : j < l.cap) : (l.start + j) % l.cap ≠ l.start := by
  rcases Nat.lt_or_ge (l.start + j) l.cap with h | h
  · rw [Nat.mod_eq_of_lt h]
    omega
  · rw [Nat.mod_eq_sub_mod h, Nat.mod_eq_of_lt (by omega)]
    omega

theorem ends_of_exists (hs : l.start < l.cap) (hex : ∃ i < l.cap, l.stop i = true) : l.Ends := by
  obtain ⟨k, hk, hprobe, hstop, hbefore⟩ := probe_spec l.start hs hex
  refine ⟨k, hk.le, Or.inl hstop, fun j hj => ?_, hprobe⟩
  rintro (h | ⟨-, hpos, hback⟩)
  · rw [hbefore j hj] at h
    cases h
  · exact not_back hs hpos (hj.trans hk) hback

theorem ends_of_guarded (hs : l.start < l.cap) (hg : l.guarded = true) : l.Ends := by
  by_cases hex : ∃ i < l.cap, l.stop i = true
  · exact ends_of_exists hs hex
  · push Not at hex
    have hnone : ∀ i < l.cap, l.stop i = false := fun i hi => by simpa using hex i hi
    have hpos : 0 < l.cap := by omega
    have hturn : (l.start + l.cap) % l.cap = l.start := by
      rw [Nat.add_mod_right, Nat.mod_eq_of_lt hs]
    refine ⟨l.cap, le_refl _, Or.inr ⟨hg, hpos, hturn⟩, fun j hj => ?_, probe_of_none hpos hs hnone⟩
    rintro (h | ⟨-, hpos, hback⟩)
    · rw [hnone _ (Nat.mod_lt _ hpos)] at h
      cases h
    · exact not_back hs hpos hj hback

end ProbeLoop

end SomeOs.LinearProbe
