import Mathlib

/-! # Lines

A list is cut into the lines that end in a separator and what is left behind the last one.
-/
namespace SomeOs.Lines
variable {α : Type*} {sep : α}

def join (sep : α) (ls : List (List α)) : List α := ls.flatMap (· ++ [sep])

@[simp] theorem join_nil : join sep [] = [] := rfl

@[simp] theorem join_cons (l : List α) (ls : List (List α)) : join sep (l :: ls) = l ++ sep :: join sep ls := by
  simp [join]

theorem exists_join (sep : α) (s : List α) :
    ∃ ls rest, s = join sep ls ++ rest ∧ (∀ l ∈ ls, sep ∉ l) ∧ sep ∉ rest := by
  induction s with
  | nil => exact ⟨[], [], rfl, by simp, by simp⟩
  | cons c s ih =>
    obtain ⟨ls, rest, rfl, hls, hrest⟩ := ih
    by_cases hc : sep = c
    · refine ⟨[] :: ls, rest, by simp [hc], ?_, hrest⟩
      rintro l (_ | ⟨_, hl⟩)
      · simp
      · exact hls l hl
    · cases ls with
      | nil => exact ⟨[], c :: rest, rfl, by simp, by simp [hc, hrest]⟩
      | cons l ls =>
        obtain ⟨hl, hls⟩ := List.forall_mem_cons.mp hls
        refine ⟨(c :: l) :: ls, rest, by simp, ?_, hrest⟩
        exact List.forall_mem_cons.mpr ⟨by simp [hc, hl], hls⟩

theorem splitOn_join [BEq α] [LawfulBEq α] {ls : List (List α)} {rest : List α} (hls : ∀ l ∈ ls, sep ∉ l)
    (hrest : sep ∉ rest) : (join sep ls ++ rest).splitOn sep = ls ++ [rest] := by
  induction ls with
  | nil => exact List.splitOn_eq_singleton hrest
  | cons l ls ih =>
    obtain ⟨hl, hls⟩ := List.forall_mem_cons.mp hls
    rw [join_cons, List.append_assoc, List.cons_append, List.splitOn_append_cons_self_of_not_mem hl, ih hls]
    rfl

theorem getLast?_join {ls : List (List α)} (h : ls ≠ []) : (join sep ls).getLast? = some sep := by
  obtain ⟨ls, l, rfl⟩ := (List.eq_nil_or_concat ls).resolve_left h
  simp [join]

theorem getLast?_join_append {ls : List (List α)} {rest : List α} (hrest : sep ∉ rest) :
    (join sep ls ++ rest).getLast? = some sep ↔ rest = [] ∧ ls ≠ [] := by
  constructor
  · intro h
    have hnil : rest = [] := by
      by_contra hne
      rw [List.getLast?_append_of_ne_nil _ hne] at h
      exact hrest (List.mem_of_getLast? h)
    refine ⟨hnil, fun hls => ?_⟩
    simp [hnil, hls] at h
  · rintro ⟨rfl, hls⟩
    rw [List.append_nil, getLast?_join hls]

theorem length_join_map_le {f : List α → List α} (hf : ∀ l, (f l).length ≤ l.length) (ls : List (List α)) :
    (join sep (ls.map f)).length ≤ (join sep ls).length := by
  induction ls with
  | nil => exact le_rfl
  | cons l ls ih =>
    have := hf l
    simp only [List.map_cons, join_cons, List.length_append, List.length_cons]
    omega

theorem join_map_eq_iff {f : List α → List α} (hf : ∀ l, f l <:+ l) (ls : List (List α)) :
    join sep (ls.map f) = join sep ls ↔ ∀ l ∈ ls, f l = l := by
  induction ls with
  | nil => simp
  | cons l ls ih =>
    rw [List.map_cons, join_cons, join_cons, List.forall_mem_cons, ← ih]
    constructor
    · intro h
      have hle := @length_join_map_le _ sep _ (fun l => (hf l).length_le) ls
      have hlen := congrArg List.length h
      simp only [List.length_append, List.length_cons] at hlen
      have heq : f l = l := (hf l).eq_of_length_le (by omega)
      rw [heq, List.append_cancel_left_eq, List.cons.injEq] at h
      exact ⟨heq, h.2⟩
    · rintro ⟨hl, htail⟩
      rw [hl, htail]

end SomeOs.Lines
