import SomeOs.Files.DescriptorCounts

/-! # The list of descriptors as a map

In a sorted list the searches of the source find the descriptor of a number, the place for a number,
and the least number from some number on that is not taken. What an operation does to the lists is
what it does to the maps from numbers to files and flags.
-/
namespace SomeOs.Files
namespace Descriptors

def lookup (s : Descriptors) (l : List ℕ) (k : ℤ) : Option (ℕ × ℕ) :=
  (l.find? fun a => (s.desc a).id = k).map fun a => ((s.desc a).file, (s.desc a).flags)

def table (s : Descriptors) (p : ℕ) : ℤ → Option (ℕ × ℕ) := s.lookup (s.files p)

section Lists
variable {s t : Descriptors} {l l' : List ℕ} {a : ℕ} {k fd : ℤ}

theorem lookup_congr (h : ∀ b ∈ l, (t.desc b).file = (s.desc b).file ∧ (t.desc b).id = (s.desc b).id ∧
    (t.desc b).flags = (s.desc b).flags) : t.lookup l = s.lookup l := by
  funext k
  unfold lookup
  induction l with
  | nil => rfl
  | cons b l ih =>
    obtain ⟨hfile, hid, hflags⟩ := h b List.mem_cons_self
    simp only [List.find?_cons, hid]
    split
    · simp [hfile, hflags]
    · exact ih fun c hc => h c (List.mem_cons_of_mem _ hc)

theorem lookup_congr_desc (h : ∀ b ∈ l, t.desc b = s.desc b) : t.lookup l = s.lookup l :=
  lookup_congr fun b hb => by rw [h b hb]; exact ⟨rfl, rfl, rfl⟩

theorem lookup_eq_none : s.lookup l k = none ↔ ∀ a ∈ l, (s.desc a).id ≠ k := by
  simp [lookup]

theorem lookup_insert (hbefore : ∀ b ∈ l, (s.desc b).id < (s.desc a).id) :
    s.lookup (l ++ a :: l') = Function.update (s.lookup (l ++ l')) (s.desc a).id (some ((s.desc a).file, (s.desc a).flags)) := by
  funext k
  by_cases hk : k = (s.desc a).id
  · subst hk
    rw [Function.update_self]
    unfold lookup
    rw [List.find?_append, List.find?_eq_none.mpr fun b hb => by simpa using (hbefore b hb).ne, Option.none_or,
      List.find?_cons_of_pos (by simp)]
    rfl
  · rw [Function.update_of_ne hk]
    unfold lookup
    rw [List.find?_append, List.find?_append, List.find?_cons_of_neg (by simpa using Ne.symm hk)]

theorem lookup_erase (h : l.Pairwise fun a b => (s.desc a).id < (s.desc b).id) (ha : a ∈ l) :
    s.lookup (l.erase a) = Function.update (s.lookup l) (s.desc a).id none := by
  obtain ⟨l₁, l₂, rfl⟩ := List.append_of_mem ha
  rw [List.pairwise_append, List.pairwise_cons] at h
  obtain ⟨-, ⟨hafter, -⟩, hacross⟩ := h
  have hbefore : ∀ b ∈ l₁, (s.desc b).id < (s.desc a).id := fun b hb => hacross b hb a List.mem_cons_self
  have hnot : a ∉ l₁ := fun hin => lt_irrefl _ (hbefore a hin)
  rw [List.erase_append_right _ hnot, List.erase_cons_head, lookup_insert hbefore, Function.update_idem]
  symm
  rw [Function.update_eq_self_iff]
  symm
  refine lookup_eq_none.mpr fun b hb => ?_
  rcases List.mem_append.mp hb with hb | hb
  · exact (hbefore b hb).ne
  · exact (hafter b hb).ne'

theorem dropWhile_find (h : l.Pairwise fun a b => (s.desc a).id < (s.desc b).id) :
    (match l.dropWhile fun a => (s.desc a).id < fd with
      | a :: _ => if (s.desc a).id = fd then some a else none
      | [] => none) = l.find? fun a => (s.desc a).id = fd := by
  induction l with
  | nil => rfl
  | cons a l ih =>
    rw [List.pairwise_cons] at h
    rcases lt_trichotomy (s.desc a).id fd with hlt | heq | hgt
    · rw [List.dropWhile_cons_of_pos (by simpa using hlt), ih h.2, List.find?_cons_of_neg (by simpa using hlt.ne)]
    · rw [List.dropWhile_cons_of_neg (by simp [heq]), List.find?_cons_of_pos (by simpa using heq)]
      exact if_pos heq
    · rw [List.dropWhile_cons_of_neg (by simpa using hgt.le), List.find?_cons_of_neg (by simpa using hgt.ne')]
      dsimp only
      rw [if_neg hgt.ne', eq_comm, List.find?_eq_none]
      intro b hb
      have := h.1 b hb
      simp only [decide_eq_true_eq]
      omega

theorem takeWhile_place (h : l.Pairwise fun a b => (s.desc a).id < (s.desc b).id) (hfree : ∀ b ∈ l, (s.desc b).id ≠ fd) :
    (∀ b ∈ l.take (l.takeWhile fun a => (s.desc a).id < fd).length, (s.desc b).id < fd) ∧
      ∀ b ∈ l.drop (l.takeWhile fun a => (s.desc a).id < fd).length, fd < (s.desc b).id := by
  induction l with
  | nil => simp
  | cons a l ih =>
    rw [List.pairwise_cons] at h
    by_cases hlt : (s.desc a).id < fd
    · obtain ⟨htake, hdrop⟩ := ih h.2 fun b hb => hfree b (List.mem_cons_of_mem _ hb)
      rw [List.takeWhile_cons_of_pos (by simpa using hlt), List.length_cons, List.take_succ_cons, List.drop_succ_cons]
      exact ⟨List.forall_mem_cons.mpr ⟨hlt, htake⟩, hdrop⟩
    · rw [List.takeWhile_cons_of_neg (by simpa using hlt)]
      have hgt : fd < (s.desc a).id := lt_of_le_of_ne (not_lt.mp hlt) (hfree a List.mem_cons_self).symm
      exact ⟨by simp, List.forall_mem_cons.mpr ⟨hgt, fun b hb => hgt.trans (h.1 b hb)⟩⟩

/-- The number that is not taken is the least one, and its place is behind the taken ones. -/
theorem skipTaken_spec (h : l.Pairwise fun a b => (s.desc a).id < (s.desc b).id) (hfrom : ∀ b ∈ l, fd ≤ (s.desc b).id) :
    IsLeast {k | fd ≤ k ∧ s.lookup l k = none} (s.skipTaken l fd).2 ∧
      (∀ b ∈ l.take (s.skipTaken l fd).1, (s.desc b).id < (s.skipTaken l fd).2) ∧
      ∀ b ∈ l.drop (s.skipTaken l fd).1, (s.skipTaken l fd).2 < (s.desc b).id := by
  induction l generalizing fd with
  | nil => exact ⟨⟨⟨le_rfl, rfl⟩, fun k hk => hk.1⟩, by simp, by simp⟩
  | cons a l ih =>
    rw [List.pairwise_cons] at h
    unfold skipTaken
    split_ifs with htaken
    · obtain ⟨⟨hfree, hleast⟩, htake, hdrop⟩ := @ih (fd + 1) h.2 fun b hb => by have := h.1 b hb; omega
      have hle : fd + 1 ≤ (s.skipTaken l (fd + 1)).2 := hfree.1
      refine ⟨⟨⟨by dsimp only; omega, ?_⟩, ?_⟩, ?_, ?_⟩
      · rw [lookup_eq_none]
        refine List.forall_mem_cons.mpr ⟨by dsimp only; omega, lookup_eq_none.mp hfree.2⟩
      · rintro k ⟨hk, hnone⟩
        rw [lookup_eq_none] at hnone
        have hne := hnone a List.mem_cons_self
        exact hleast ⟨by omega, lookup_eq_none.mpr fun b hb => hnone b (List.mem_cons_of_mem _ hb)⟩
      · rw [List.take_succ_cons]
        exact List.forall_mem_cons.mpr ⟨by dsimp only; omega, htake⟩
      · rwa [List.drop_succ_cons]
    · have hgt : fd < (s.desc a).id := lt_of_le_of_ne (hfrom a List.mem_cons_self) (Ne.symm htaken)
      have hall : ∀ b ∈ a :: l, fd < (s.desc b).id :=
        List.forall_mem_cons.mpr ⟨hgt, fun b hb => hgt.trans (h.1 b hb)⟩
      exact ⟨⟨⟨le_rfl, lookup_eq_none.mpr fun b hb => (hall b hb).ne'⟩, fun k hk => hk.1⟩, by simp, hall⟩

end Lists

end Descriptors
end SomeOs.Files
