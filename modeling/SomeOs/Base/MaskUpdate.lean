import Mathlib

/-! # Updates of words by masks

An update clears some bits and then sets some. Updates that are put together into one keep no order:
a bit that one of them sets is set in the end.
-/
namespace SomeOs.MaskUpdate
variable {w : ℕ}

structure Masks (w : ℕ) where
  clear : BitVec w
  set : BitVec w

namespace Masks

def apply (x : BitVec w) (u : Masks w) : BitVec w := (x &&& ~~~u.clear) ||| u.set

def merge (u v : Masks w) : Masks w := ⟨u.clear ||| v.clear, u.set ||| v.set⟩

def Sets (u : Masks w) (i : ℕ) : Prop := u.set.getLsbD i = true

def Takes (u : Masks w) (i : ℕ) : Prop := u.clear.getLsbD i = true ∧ u.set.getLsbD i = false

variable {us : List (Masks w)} {u v : Masks w} {x : BitVec w} {i : ℕ}

theorem getLsbD_apply (hi : i < w) : (apply x u).getLsbD i = true ↔ u.Sets i ∨ x.getLsbD i = true ∧ ¬u.Takes i := by
  unfold apply Sets Takes
  rw [BitVec.getLsbD_or, BitVec.getLsbD_and, BitVec.getLsbD_not]
  cases u.set.getLsbD i <;> cases u.clear.getLsbD i <;> simp [hi]

theorem getLsbD_foldl_merge : (us.foldl merge v).set.getLsbD i = true ↔ v.Sets i ∨ ∃ u ∈ us, u.Sets i := by
  induction us generalizing v with
  | nil => simp [Sets]
  | cons u us ih =>
    rw [List.foldl_cons, ih]
    simp [Sets, merge, or_assoc]

theorem getLsbD_foldl_clear :
    (us.foldl merge v).clear.getLsbD i = true ↔ v.clear.getLsbD i = true ∨ ∃ u ∈ us, u.clear.getLsbD i = true := by
  induction us generalizing v with
  | nil => simp
  | cons u us ih =>
    rw [List.foldl_cons, ih]
    simp [merge, or_assoc]

/-- A bit is set by an update that no later one takes back, or it is set before and never taken. -/
theorem getLsbD_foldl_apply (hi : i < w) : (us.foldl apply x).getLsbD i = true ↔
    (∃ before u after, us = before ++ u :: after ∧ u.Sets i ∧ ∀ v ∈ after, ¬v.Takes i) ∨
      x.getLsbD i = true ∧ ∀ u ∈ us, ¬u.Takes i := by
  induction us generalizing x with
  | nil => simp
  | cons u us ih =>
    rw [List.foldl_cons, ih, getLsbD_apply hi]
    constructor
    · rintro (⟨before, v, after, rfl, hset, hafter⟩ | ⟨hset | ⟨hx, hu⟩, hafter⟩)
      · exact Or.inl ⟨u :: before, v, after, rfl, hset, hafter⟩
      · exact Or.inl ⟨[], u, us, rfl, hset, hafter⟩
      · exact Or.inr ⟨hx, List.forall_mem_cons.mpr ⟨hu, hafter⟩⟩
    · rintro (⟨_ | ⟨b, before⟩, v, after, heq, hset, hafter⟩ | ⟨hx, hall⟩)
      · cases heq
        exact Or.inr ⟨Or.inl hset, hafter⟩
      · cases heq
        exact Or.inl ⟨before, v, after, rfl, hset, hafter⟩
      · obtain ⟨hu, hafter⟩ := List.forall_mem_cons.mp hall
        exact Or.inr ⟨Or.inr ⟨hx, hu⟩, hafter⟩

/-- Updates put together do what they do one after the other if every bit that one of them sets is
set by one that no later one takes back. -/
theorem apply_foldl_merge : apply x (us.foldl merge ⟨0, 0⟩) = us.foldl apply x ↔ ∀ i < w, (∃ u ∈ us, u.Sets i) →
    ∃ before u after, us = before ++ u :: after ∧ u.Sets i ∧ ∀ v ∈ after, ¬v.Takes i := by
  have hmerged : ∀ i < w, (apply x (us.foldl merge ⟨0, 0⟩)).getLsbD i = true ↔
      (∃ u ∈ us, u.Sets i) ∨ x.getLsbD i = true ∧ ∀ u ∈ us, ¬u.Takes i := fun i hi => by
    rw [getLsbD_apply hi, Sets, getLsbD_foldl_merge]
    by_cases hset : ∃ u ∈ us, u.Sets i
    · simp [hset]
    · have hnone : ∀ u ∈ us, ¬u.Sets i := by simpa using hset
      have htakes : (us.foldl merge ⟨0, 0⟩ : Masks w).Takes i ↔ ∃ u ∈ us, u.Takes i := by
        unfold Takes
        rw [getLsbD_foldl_clear, Bool.eq_false_iff, Ne, getLsbD_foldl_merge]
        constructor
        · rintro ⟨h | ⟨u, hu, hclear⟩, -⟩
          · simp at h
          · exact ⟨u, hu, hclear, by simpa [Sets] using hnone u hu⟩
        · rintro ⟨u, hu, hclear, -⟩
          exact ⟨Or.inr ⟨u, hu, hclear⟩, by simpa [Sets] using hset⟩
      rw [htakes]
      simp [Sets]
  constructor
  · intro heq i hi hset
    have hbit := (hmerged i hi).mpr (Or.inl hset)
    rw [heq, getLsbD_foldl_apply hi] at hbit
    rcases hbit with hbit | ⟨-, hnone⟩
    · exact hbit
    · obtain ⟨u, hu, hset⟩ := hset
      obtain ⟨before, after, rfl⟩ := List.append_of_mem hu
      exact ⟨before, u, after, rfl, hset, fun v hv => hnone v (by simp [hv])⟩
  · intro h
    refine BitVec.eq_of_getLsbD_eq fun i hi => ?_
    rw [Bool.eq_iff_iff, hmerged i hi, getLsbD_foldl_apply hi]
    refine or_congr_left ⟨fun hset => h i hi hset, ?_⟩
    rintro ⟨before, u, after, rfl, hset, -⟩
    exact ⟨u, by simp, hset⟩

end Masks

end SomeOs.MaskUpdate
