import Mathlib

/-! # Ends of lists

What holds of the elements at the end of a list, and lists without an end of theirs.
-/
namespace SomeOs.ListEnds
variable {B : Type*} {p : B → Bool} {l taken q : List B}

theorem getLast?_filter (h : ∀ b ∈ l.getLast?, p b) : (l.filter p).getLast? = l.getLast? := by
  rcases List.eq_nil_or_concat l with rfl | ⟨k, b, rfl⟩
  · rfl
  · rw [List.concat_eq_append, List.getLast?_concat] at h
    rw [List.concat_eq_append, List.filter_append, List.filter_singleton, h b rfl, List.getLast?_concat]
    simp

theorem forall_mem_of_dropLast {P : B → Prop} (h : ∀ c ∈ q.dropLast, P c) (hlast : ∀ c ∈ q.getLast?, P c) :
    ∀ c ∈ q, P c := by
  rcases List.eq_nil_or_concat q with rfl | ⟨l, d, rfl⟩
  · simp
  · rw [List.concat_eq_append, List.dropLast_concat] at h
    rw [List.concat_eq_append, List.getLast?_concat] at hlast
    intro c hc
    rcases List.mem_append.mp (List.concat_eq_append ▸ hc) with hc | hc
    · exact h c hc
    · exact hlast c (List.mem_singleton.mp hc ▸ rfl)

theorem countP_dropLast (h : ∀ c ∈ q.getLast?, ¬p c) : q.dropLast.countP p = q.countP p := by
  rcases List.eq_nil_or_concat q with rfl | ⟨l, c, rfl⟩
  · rfl
  · rw [List.concat_eq_append, List.getLast?_concat] at h
    rw [List.concat_eq_append, List.dropLast_concat, List.countP_append, List.countP_singleton, if_neg (h c rfl),
      add_zero]

theorem countP_dropLast_of_last (hq : q ≠ []) (h : ∀ c ∈ q.getLast?, p c) : q.dropLast.countP p + 1 = q.countP p := by
  obtain ⟨l, c, rfl⟩ := (List.eq_nil_or_concat q).resolve_left hq
  rw [List.concat_eq_append, List.getLast?_concat] at h
  rw [List.concat_eq_append, List.dropLast_concat, List.countP_append, List.countP_singleton, if_pos (h c rfl)]

theorem rdropWhile_append (hlast : ∀ c ∈ taken.getLast?, ¬p c) (h : ∀ c ∈ q, p c) :
    (taken ++ q).rdropWhile p = taken := by
  have hdrop : (taken ++ q).rdropWhile p = taken.rdropWhile p := by
    unfold List.rdropWhile
    rw [List.reverse_append, List.dropWhile_append_of_pos (by simpa using h)]
  rw [hdrop]
  rcases List.eq_nil_or_concat taken with rfl | ⟨t, c, rfl⟩
  · rfl
  · rw [List.concat_eq_append] at hlast ⊢
    exact List.rdropWhile_concat_neg _ _ _ (by simpa using hlast)

theorem rtakeWhile_append (hlast : ∀ c ∈ taken.getLast?, ¬p c) (h : ∀ c ∈ q, p c) :
    (taken ++ q).rtakeWhile p = q := by
  have hboth := @List.rdropWhile_append_rtakeWhile B p (taken ++ q)
  rw [rdropWhile_append hlast h] at hboth
  exact List.append_cancel_left hboth

end SomeOs.ListEnds
