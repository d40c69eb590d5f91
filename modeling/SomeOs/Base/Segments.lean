import Mathlib

/-! # Segments of a list

A separator cuts a list into segments, of which the empty ones do not count. Everything about the
segments follows from where they are cut.
-/
namespace SomeOs.Segments
variable {α : Type*} [DecidableEq α] {sep : α}

def segments (sep : α) (l : List α) : List (List α) := (l.splitOn sep).filter (· ≠ [])

@[simp] theorem segments_nil : segments sep [] = [] := by simp [segments]

@[simp] theorem segments_append_sep (x y : List α) : segments sep (x ++ sep :: y) = segments sep x ++ segments sep y := by
  rw [segments, List.splitOn_append_cons_self, List.filter_append]
  rfl

@[simp] theorem segments_cons_sep (y : List α) : segments sep (sep :: y) = segments sep y := by
  simpa using @segments_append_sep α _ sep [] y

theorem segments_dropWhile (l : List α) : segments sep (l.dropWhile (· = sep)) = segments sep l := by
  induction l with
  | nil => rfl
  | cons x l ih =>
    by_cases hx : x = sep
    · rw [List.dropWhile_cons_of_pos (by simpa using hx), ih, hx, segments_cons_sep]
    · rw [List.dropWhile_cons_of_neg (by simpa using hx)]

theorem segments_of_not_mem {x : List α} (h : sep ∉ x) (hne : x ≠ []) : segments sep x = [x] := by
  rw [segments, List.splitOn_eq_singleton h]
  simp [hne]

theorem segments_ne_nil {x : α} (hx : x ≠ sep) (l : List α) : segments sep (x :: l) ≠ [] := by
  by_cases hmem : sep ∈ l
  · obtain ⟨u, v, rfl, hu⟩ := List.eq_append_cons_of_mem hmem
    rw [← List.cons_append, segments_append_sep, segments_of_not_mem (by simp [hu, Ne.symm hx]) (by simp)]
    simp
  · rw [segments_of_not_mem (by simp [hmem, Ne.symm hx]) (by simp)]
    simp

theorem segments_eq_nil_iff {l : List α} : segments sep l = [] ↔ ∀ a ∈ l, a = sep := by
  induction l with
  | nil => simp
  | cons x l ih =>
    by_cases hx : x = sep
    · subst hx
      rw [segments_cons_sep, ih]
      simp
    · simp [segments_ne_nil hx l, hx]

theorem not_mem_of_mem_splitOn {l w : List α} (h : w ∈ l.splitOn sep) : sep ∉ w := by
  induction l generalizing w with
  | nil =>
    rw [List.splitOn_nil, List.mem_singleton] at h
    subst h
    exact List.not_mem_nil
  | cons x l ih =>
    rw [List.splitOn_cons_eq_if_modifyHead] at h
    split_ifs at h with hx
    · rcases List.mem_cons.mp h with rfl | h
      · exact List.not_mem_nil
      · exact ih h
    · obtain ⟨r, rs, hr⟩ := List.exists_cons_of_ne_nil (List.splitOn_ne_nil sep l)
      rw [hr, List.modifyHead_cons, List.mem_cons] at h
      rcases h with rfl | h
      · rw [List.mem_cons]
        rintro (rfl | h)
        · simp at hx
        · exact ih (by rw [hr]; exact List.mem_cons_self) h
      · exact ih (by rw [hr]; exact List.mem_cons_of_mem r h)

theorem mem_segments {l w : List α} (h : w ∈ segments sep l) : w ≠ [] ∧ sep ∉ w := by
  obtain ⟨hw, hne⟩ := List.mem_filter.mp h
  exact ⟨by simpa using hne, not_mem_of_mem_splitOn hw⟩

theorem mem_of_mem_segments {l w : List α} {a : α} (h : w ∈ segments sep l) (ha : a ∈ w) : a ∈ l := by
  have hw := (List.mem_filter.mp h).1
  clear h
  induction l generalizing w with
  | nil =>
    rw [List.splitOn_nil, List.mem_singleton] at hw
    rwa [hw] at ha
  | cons x l ih =>
    rw [List.splitOn_cons_eq_if_modifyHead] at hw
    split_ifs at hw with hx
    · rcases List.mem_cons.mp hw with rfl | hw
      · cases ha
      · exact List.mem_cons_of_mem x (ih ha hw)
    · obtain ⟨r, rs, hr⟩ := List.exists_cons_of_ne_nil (List.splitOn_ne_nil sep l)
      rw [hr, List.modifyHead_cons, List.mem_cons] at hw
      rcases hw with rfl | hw
      · rcases List.mem_cons.mp ha with rfl | ha
        · exact List.mem_cons_self
        · exact List.mem_cons_of_mem x (ih ha (by rw [hr]; exact List.mem_cons_self))
      · exact List.mem_cons_of_mem x (ih ha (by rw [hr]; exact List.mem_cons_of_mem r hw))

theorem segments_intercalate {ws : List (List α)} (h : ∀ w ∈ ws, w ≠ [] ∧ sep ∉ w) :
    segments sep ([sep].intercalate ws) = ws := by
  cases ws with
  | nil => simp
  | cons w ws =>
    rw [segments, List.splitOn_intercalate sep (fun l hl => (h l hl).2) (List.cons_ne_nil w ws), List.filter_eq_self]
    intro l hl
    simpa using (h l hl).1

end SomeOs.Segments
