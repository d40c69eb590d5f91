import Mathlib

/-! # Units of a list

A unit goes up to an element that ends it, or to the end of the list. Single elements and lines are
the units of two ways to end them.
-/
namespace SomeOs.Units
variable {α : Type*} (p : α → Bool)

def units : List α → List (List α)
  | [] => []
  | a :: s =>
    if p a then [a] :: units s
    else match units s with
      | [] => [[a]]
      | u :: us => (a :: u) :: us

/-- What is behind the first `k` units. -/
def skip : ℕ → List α → List α
  | 0, s => s
  | _ + 1, [] => []
  | k + 1, a :: s => if p a then skip k s else skip (k + 1) s

/-- The first `k` units. -/
def firsts : ℕ → List α → List α
  | 0, _ => []
  | _ + 1, [] => []
  | k + 1, a :: s => if p a then a :: firsts k s else a :: firsts (k + 1) s

def Ended (s : List α) : Prop := ∀ a, s.getLast? = some a → p a = true

variable {p} {s c : List α} {k j : ℕ}

@[simp] theorem skip_zero : skip p 0 s = s := by cases s <;> rfl

@[simp] theorem firsts_zero : firsts p 0 s = [] := by cases s <;> rfl

@[simp] theorem skip_nil : skip p k [] = [] := by cases k <;> rfl

@[simp] theorem firsts_nil : firsts p k [] = [] := by cases k <;> rfl

theorem firsts_append_skip (k : ℕ) (s : List α) : firsts p k s ++ skip p k s = s := by
  induction s generalizing k with
  | nil => simp
  | cons a s ih =>
    cases k with
    | zero => simp
    | succ k =>
      unfold firsts skip
      split_ifs <;> rw [List.cons_append, ih]

/-- The units of a list and what is behind some of them. -/
theorem flatten_drop_units (k : ℕ) (s : List α) : ((units p s).drop k).flatten = skip p k s := by
  induction s generalizing k with
  | nil => simp [units]
  | cons a s ih =>
    cases k with
    | zero =>
      have hall := ih 0
      rw [List.drop_zero, skip_zero] at hall ⊢
      unfold units
      split_ifs
      · rw [List.flatten_cons, hall]
        rfl
      · cases hunits : units p s with
        | nil =>
          rw [hunits] at hall
          rw [← hall]
          rfl
        | cons u us =>
          rw [hunits] at hall
          rw [← hall]
          rfl
    | succ k =>
      unfold units skip
      split_ifs
      · rw [List.drop_succ_cons, ih]
      · rw [← ih]
        cases hunits : units p s with
        | nil => simp
        | cons u us => simp

theorem flatten_units (s : List α) : (units p s).flatten = s := by
  have h := flatten_drop_units (p := p) 0 s
  rwa [List.drop_zero, skip_zero] at h

theorem flatten_take_units (k : ℕ) (s : List α) : ((units p s).take k).flatten = firsts p k s := by
  have hall : ((units p s).take k).flatten ++ skip p k s = firsts p k s ++ skip p k s := by
    rw [← flatten_drop_units, ← List.flatten_append, List.take_append_drop, flatten_units, flatten_drop_units,
      firsts_append_skip]
  exact List.append_cancel_right hall

theorem mem_units_ne_nil {u : List α} (h : u ∈ units p s) : u ≠ [] := by
  induction s generalizing u with
  | nil => cases h
  | cons a s ih =>
    unfold units at h
    split_ifs at h
    · rcases List.mem_cons.mp h with rfl | h
      · simp
      · exact ih h
    · cases hunits : units p s with
      | nil =>
        rw [hunits] at h
        rw [List.mem_singleton.mp h]
        simp
      | cons v us =>
        rw [hunits] at h ih
        rcases List.mem_cons.mp h with rfl | h
        · simp
        · exact ih (List.mem_cons_of_mem _ h)

theorem length_skip_lt (h : k < (units p s).length) (hkj : k < j) : (skip p j s).length < (skip p k s).length := by
  have hne : (units p s)[k] ≠ [] := mem_units_ne_nil (List.getElem_mem h)
  have hlen : ((units p s).drop j).flatten.length ≤ ((units p s).drop (k + 1)).flatten.length := by
    obtain ⟨d, rfl⟩ := Nat.exists_eq_add_of_le (Nat.succ_le_of_lt hkj)
    rw [← List.drop_drop]
    have hsplit := congrArg (fun l => l.flatten.length) (List.take_append_drop d ((units p s).drop (k + 1)))
    simp only [List.flatten_append, List.length_append] at hsplit
    exact le_of_le_of_eq (Nat.le_add_left _ _) hsplit
  rw [← flatten_drop_units, ← flatten_drop_units k, List.drop_eq_getElem_cons h, List.flatten_cons, List.length_append]
  have hpos := List.length_pos_iff.mpr hne
  omega

theorem length_firsts_lt (h : k < (units p s).length) (hkj : k < j) : (firsts p k s).length < (firsts p j s).length := by
  have hlt := length_skip_lt h hkj
  have hk := congrArg List.length (firsts_append_skip (p := p) k s)
  have hj := congrArg List.length (firsts_append_skip (p := p) j s)
  rw [List.length_append] at hk hj
  omega

/-- Every end makes a unit, and a last one without its end is one more. -/
theorem length_units (s : List α) : (Ended p s → (units p s).length = s.countP p) ∧
    (¬Ended p s → (units p s).length = s.countP p + 1) := by
  induction s with
  | nil => exact ⟨fun _ => rfl, fun h => absurd (fun a ha => by cases ha) h⟩
  | cons a s ih =>
    have hlast : Ended p (a :: s) ↔ (s = [] ∧ p a = true) ∨ (s ≠ [] ∧ Ended p s) := by
      cases s with
      | nil => simp [Ended]
      | cons b s => simp [Ended]
    have hcount : (a :: s).countP p = s.countP p + if p a then 1 else 0 := List.countP_cons ..
    unfold units
    by_cases hnil : s = []
    · subst hnil
      by_cases ha : p a = true <;> simp [hlast, ha, units]
    · simp only [hlast, hnil, false_and, false_or, ne_eq, not_false_eq_true, true_and, hcount]
      have hne : units p s ≠ [] := fun h => by
        have hall := flatten_units (p := p) s
        rw [h] at hall
        exact hnil hall.symm
      obtain ⟨u, us, hunits⟩ := List.exists_cons_of_ne_nil hne
      rw [hunits] at ih ⊢
      by_cases ha : p a = true <;> simpa [ha] using ih

theorem skip_append (h : c.countP p < k) : skip p k (c ++ s) = skip p (k - c.countP p) s := by
  induction c generalizing k with
  | nil => rfl
  | cons a c ih =>
    obtain ⟨k, rfl⟩ := Nat.exists_eq_add_one.mpr (Nat.zero_lt_of_lt h)
    rw [List.cons_append, skip]
    by_cases ha : p a = true
    · rw [List.countP_cons_of_pos ha] at h ⊢
      rw [if_pos ha, ih (by omega), Nat.add_sub_add_right]
    · rw [List.countP_cons_of_neg ha] at h ⊢
      rw [if_neg ha, ih h]

theorem skip_append_of_le (h : k ≤ c.countP p) : skip p k (c ++ s) = skip p k c ++ s := by
  induction c generalizing k with
  | nil =>
    obtain rfl : k = 0 := Nat.le_zero.mp h
    simp
  | cons a c ih =>
    cases k with
    | zero => simp
    | succ k =>
      rw [List.cons_append, skip, skip]
      by_cases ha : p a = true
      · rw [List.countP_cons_of_pos ha] at h
        rw [if_pos ha, if_pos ha, ih (by omega)]
      · rw [List.countP_cons_of_neg ha] at h
        rw [if_neg ha, if_neg ha, ih h]

theorem skip_eq_nil (h : (units p s).length ≤ k) : skip p k s = [] := by
  rw [← flatten_drop_units, List.drop_eq_nil_of_le h, List.flatten_nil]

theorem firsts_append (h : c.countP p < k) : firsts p k (c ++ s) = c ++ firsts p (k - c.countP p) s := by
  have hall : firsts p k (c ++ s) ++ skip p k (c ++ s) = (c ++ firsts p (k - c.countP p) s) ++ skip p k (c ++ s) := by
    rw [firsts_append_skip, skip_append h, List.append_assoc, firsts_append_skip]
  exact List.append_cancel_right hall

theorem firsts_append_of_le (h : k ≤ c.countP p) : firsts p k (c ++ s) = firsts p k c := by
  have hall : firsts p k (c ++ s) ++ skip p k (c ++ s) = firsts p k c ++ skip p k (c ++ s) := by
    rw [firsts_append_skip, skip_append_of_le h, ← List.append_assoc, firsts_append_skip]
  exact List.append_cancel_right hall

theorem firsts_append_eq (k : ℕ) (c s : List α) :
    firsts p k (c ++ s) = firsts p k c ++ firsts p (k - c.countP p) s := by
  by_cases h : c.countP p < k
  · have hc := firsts_append (s := []) h
    rw [List.append_nil, firsts_nil, List.append_nil] at hc
    rw [firsts_append h, hc]
  · rw [not_lt] at h
    rw [firsts_append_of_le h, Nat.sub_eq_zero_of_le h, firsts_zero, List.append_nil]

theorem take_length_firsts (k : ℕ) (s : List α) : s.take (firsts p k s).length = firsts p k s := by
  have h : (firsts p k s ++ skip p k s).take (firsts p k s).length = firsts p k s := List.take_left
  rwa [firsts_append_skip] at h

theorem drop_length_firsts (k : ℕ) (s : List α) : s.drop (firsts p k s).length = skip p k s := by
  have h : (firsts p k s ++ skip p k s).drop (firsts p k s).length = skip p k s := List.drop_left
  rwa [firsts_append_skip] at h

theorem firsts_ne_nil (hk : 0 < k) (hs : s ≠ []) : firsts p k s ≠ [] := by
  obtain ⟨a, s, rfl⟩ := List.exists_cons_of_ne_nil hs
  obtain ⟨k, rfl⟩ := Nat.exists_eq_add_one.mpr hk
  unfold firsts
  split_ifs <;> exact List.cons_ne_nil _ _

theorem skip_eq_drop (hp : ∀ a, p a = true) (k : ℕ) (s : List α) : skip p k s = s.drop k := by
  induction s generalizing k with
  | nil => simp
  | cons a s ih =>
    cases k with
    | zero => simp
    | succ k => rw [skip, if_pos (hp a), ih, List.drop_succ_cons]

theorem length_units_eq_length (hp : ∀ a, p a = true) (s : List α) : (units p s).length = s.length := by
  rw [(length_units s).1 fun a _ => hp a, List.countP_eq_length.mpr fun a _ => hp a]

end SomeOs.Units
