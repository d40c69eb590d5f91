import Mathlib

/-! # Zero-initialised arrays as ordered association lists

An index without a pair still holds the initial value of its array. Reading and
writing compare indices in the same way, so the laws below hold of every list.
-/
namespace SomeOs.SparseArray
variable {α : Type*}

def get? : List (ℕ × α) → ℕ → Option α
  | [], _ => none
  | (j, b) :: l, i => if j < i then get? l i else if j = i then some b else none

def set : List (ℕ × α) → ℕ → α → List (ℕ × α)
  | [], i, a => [(i, a)]
  | (j, b) :: l, i, a =>
    if j < i then (j, b) :: set l i a else if j = i then (i, a) :: l else (i, a) :: (j, b) :: l

def erase : List (ℕ × α) → ℕ → List (ℕ × α)
  | [], _ => []
  | (j, b) :: l, i => if j < i then (j, b) :: erase l i else if j = i then l else (j, b) :: l

theorem get?_nil (i : ℕ) : get? ([] : List (ℕ × α)) i = none := rfl

theorem get?_cons (j : ℕ) (b : α) (l : List (ℕ × α)) (i : ℕ) :
    get? ((j, b) :: l) i = if j < i then get? l i else if j = i then some b else none := rfl

theorem set_nil (i : ℕ) (a : α) : set [] i a = [(i, a)] := rfl

theorem set_cons (j : ℕ) (b : α) (l : List (ℕ × α)) (i : ℕ) (a : α) : set ((j, b) :: l) i a =
    if j < i then (j, b) :: set l i a else if j = i then (i, a) :: l else (i, a) :: (j, b) :: l := rfl

theorem erase_cons (j : ℕ) (b : α) (l : List (ℕ × α)) (i : ℕ) :
    erase ((j, b) :: l) i = if j < i then (j, b) :: erase l i else if j = i then l else (j, b) :: l := rfl

/-- A present index splits the list at its pair. -/
theorem split_of_get? {l : List (ℕ × α)} {i : ℕ} {a : α} (h : get? l i = some a) :
    ∃ p q, l = p ++ (i, a) :: q ∧ (∀ b, set l i b = p ++ (i, b) :: q) ∧ erase l i = p ++ q := by
  induction l with
  | nil => simp [get?_nil] at h
  | cons x l ih =>
    obtain ⟨j, b⟩ := x
    simp only [get?_cons] at h
    by_cases hlt : j < i
    · rw [if_pos hlt] at h
      obtain ⟨p, q, hl, hs, he⟩ := ih h
      refine ⟨(j, b) :: p, q, by rw [hl]; rfl, fun c => ?_, ?_⟩
      · simp only [set_cons, if_pos hlt, hs c, List.cons_append]
      · simp only [erase_cons, if_pos hlt, he, List.cons_append]
    · rw [if_neg hlt] at h
      by_cases heq : j = i
      · subst heq
        rw [if_pos rfl] at h
        cases h
        exact ⟨[], l, rfl, fun c => by simp [set_cons], by simp [erase_cons]⟩
      · rw [if_neg heq] at h
        cases h

theorem split_of_get?_none {l : List (ℕ × α)} {i : ℕ} (h : get? l i = none) :
    ∃ p q, l = p ++ q ∧ ∀ b, set l i b = p ++ (i, b) :: q := by
  induction l with
  | nil => exact ⟨[], [], rfl, fun b => rfl⟩
  | cons x l ih =>
    obtain ⟨j, b⟩ := x
    simp only [get?_cons] at h
    by_cases hlt : j < i
    · rw [if_pos hlt] at h
      obtain ⟨p, q, hl, hs⟩ := ih h
      exact ⟨(j, b) :: p, q, by rw [hl]; rfl, fun c => by simp [set_cons, hlt, hs c]⟩
    · rw [if_neg hlt] at h
      by_cases heq : j = i
      · rw [if_pos heq] at h
        cases h
      · exact ⟨[], (j, b) :: l, rfl, fun c => by simp [set_cons, hlt, heq]⟩

theorem get?_set (l : List (ℕ × α)) (i j : ℕ) (a : α) :
    get? (set l i a) j = if j = i then some a else get? l j := by
  induction l with
  | nil =>
    by_cases h : j = i
    · simp [set_nil, get?_cons, h]
    · simp only [set_nil, get?_cons, get?_nil, if_neg h]
      split_ifs with h1 h2
      · rfl
      · exact absurd h2.symm h
      · rfl
  | cons x l ih =>
    obtain ⟨k, b⟩ := x
    by_cases hlt : k < i
    · simp only [set_cons, if_pos hlt, get?_cons, ih]
      by_cases h : j = i
      · subst h
        simp [hlt]
      · simp only [if_neg h]
    · by_cases heq : k = i
      · subst heq
        simp only [set_cons, lt_self_iff_false, if_false, if_true, get?_cons]
        by_cases h : j = k
        · simp [h]
        · have h' : k ≠ j := fun e => h e.symm
          simp only [if_neg h, if_neg h']
      · simp only [set_cons, if_neg hlt, if_neg heq, get?_cons]
        by_cases h : j = i
        · simp [h]
        · simp only [if_neg h]
          split_ifs <;> first | rfl | omega

theorem set_set (l : List (ℕ × α)) (i : ℕ) (a b : α) : set (set l i a) i b = set l i b := by
  induction l with
  | nil => simp [set_nil, set_cons]
  | cons x l ih =>
    obtain ⟨j, c⟩ := x
    by_cases hlt : j < i
    · simp [set_cons, hlt, ih]
    · by_cases heq : j = i
      · simp [set_cons, heq]
      · simp [set_cons, hlt, heq]

theorem mem_of_get? {l : List (ℕ × α)} {i : ℕ} {a : α} (h : get? l i = some a) : (i, a) ∈ l := by
  obtain ⟨p, q, hl, _⟩ := split_of_get? h
  simp [hl]

theorem mem_set {l : List (ℕ × α)} {i : ℕ} {a : α} {x : ℕ × α} (h : x ∈ set l i a) :
    x = (i, a) ∨ x ∈ l := by
  cases hg : get? l i with
  | none =>
    obtain ⟨p, q, hl, hs⟩ := split_of_get?_none hg
    rw [hs] at h
    rw [hl]
    simp only [List.mem_append, List.mem_cons] at h ⊢
    tauto
  | some b =>
    obtain ⟨p, q, hl, hs, _⟩ := split_of_get? hg
    rw [hs] at h
    rw [hl]
    simp only [List.mem_append, List.mem_cons] at h ⊢
    tauto

theorem mem_erase {l : List (ℕ × α)} {i : ℕ} {x : ℕ × α} (h : x ∈ erase l i) : x ∈ l := by
  induction l with
  | nil => exact h
  | cons y l ih =>
    obtain ⟨j, b⟩ := y
    simp only [erase_cons] at h
    split_ifs at h
    · rcases List.mem_cons.mp h with h | h
      · exact h ▸ List.mem_cons_self
      · exact List.mem_cons_of_mem _ (ih h)
    · exact List.mem_cons_of_mem _ h
    · exact h

end SomeOs.SparseArray
