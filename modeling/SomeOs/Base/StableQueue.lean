import Mathlib

/-! # Stable priority queues as lists

A list in the order of a key keeps the elements of one key in the order in which they came.
A new element goes behind the last one whose key is not larger.
-/
namespace SomeOs.StableQueue
variable {T K : Type*} [LinearOrder K]

/-- The elements of `arrived` in the order of their keys, those of one key as they came. -/
structure StablyOrdered (key : T → K) (l arrived : List T) : Prop where
  ordered : l.Pairwise (key · ≤ key ·)
  same_key : ∀ k, l.filter (key · = k) = arrived.filter (key · = k)

def insertBehind (key : T → K) (t : T) (l : List T) : List T :=
  l.takeWhile (key · ≤ key t) ++ t :: l.dropWhile (key · ≤ key t)

/-- The last element whose key is at most `k`. -/
def lastUpTo (key : T → K) (k : K) (l : List T) : Option T := (l.filter (key · ≤ k)).getLast?

variable {key key' : T → K} {l arrived : List T} {t a : T} {k : K}

theorem insertBehind_perm : (insertBehind key t l).Perm (t :: l) := by
  unfold insertBehind
  refine List.perm_middle.trans (List.Perm.cons t ?_)
  rw [List.takeWhile_append_dropWhile]

theorem mem_insertBehind : a ∈ insertBehind key t l ↔ a = t ∨ a ∈ l := by
  rw [insertBehind_perm.mem_iff, List.mem_cons]

theorem split_congr (h : ∀ a ∈ l, key' a = key a) : l.takeWhile (key' · ≤ k) = l.takeWhile (key · ≤ k) ∧
    l.dropWhile (key' · ≤ k) = l.dropWhile (key · ≤ k) := by
  induction l with
  | nil => exact ⟨rfl, rfl⟩
  | cons a l ih =>
    obtain ⟨htake, hdrop⟩ := ih fun b hb => h b (List.mem_cons_of_mem _ hb)
    simp only [List.takeWhile_cons, List.dropWhile_cons, h a List.mem_cons_self, htake, hdrop, and_self]

theorem filter_insertBehind {p : T → Bool} (ht : ¬p t) :
    (insertBehind key t l).filter p = l.filter p := by
  unfold insertBehind
  rw [List.filter_append, List.filter_cons, if_neg ht, ← List.filter_append, List.takeWhile_append_dropWhile]

theorem exists_split (h : l.Pairwise (key · ≤ key ·)) (t : T) : ∃ before behind, l = before ++ behind ∧
    insertBehind key t l = before ++ t :: behind ∧ (∀ a ∈ before, key a ≤ key t) ∧ ∀ a ∈ behind, key t < key a := by
  refine ⟨_, _, List.takeWhile_append_dropWhile.symm, rfl,
    fun a ha => by simpa using List.mem_takeWhile_imp ha, fun a ha => ?_⟩
  induction l with
  | nil => cases ha
  | cons b l ih =>
    obtain ⟨hb, hl⟩ := List.pairwise_cons.mp h
    by_cases hk : key b ≤ key t
    · simp only [List.dropWhile_cons, hk, decide_true, if_true] at ha
      exact ih hl ha
    · simp only [List.dropWhile_cons, hk, decide_false, Bool.false_eq_true, if_false] at ha
      rcases List.mem_cons.mp ha with rfl | ha
      · exact not_le.mp hk
      · exact (not_le.mp hk).trans_le (hb a ha)

theorem ordered_insertBehind (h : l.Pairwise (key · ≤ key ·)) :
    (insertBehind key t l).Pairwise (key · ≤ key ·) := by
  obtain ⟨before, behind, rfl, hins, hbefore, hbehind⟩ := exists_split h t
  obtain ⟨h1, h2, h12⟩ := List.pairwise_append.mp h
  rw [hins]
  refine List.pairwise_append.mpr ⟨h1, List.pairwise_cons.mpr ⟨fun b hb => (hbehind b hb).le, h2⟩, ?_⟩
  intro a ha b hb
  rcases List.mem_cons.mp hb with rfl | hb
  · exact hbefore a ha
  · exact h12 a ha b hb

theorem filter_of_le {before : List T} (hle : ∀ a ∈ before, key a ≤ k) : before.filter (key · ≤ k) = before := by
  rw [List.filter_eq_self]
  simpa using hle

theorem lastUpTo_append {before behind : List T} (hbefore : ∀ a ∈ before, key a ≤ k)
    (hbehind : ∀ a ∈ behind, k < key a) : lastUpTo key k (before ++ behind) = before.getLast? := by
  have hnone : behind.filter (key · ≤ k) = [] := by
    simpa [List.filter_eq_nil_iff] using hbehind
  unfold lastUpTo
  rw [List.filter_append, filter_of_le hbefore, hnone, List.append_nil]

theorem getLast?_append_ne {before rest : List T} (hn : (before ++ rest).Nodup) (hrest : rest ≠ []) :
    (before ++ rest).getLast? ≠ before.getLast? := by
  intro heq
  obtain ⟨rest, b, rfl⟩ := (List.eq_nil_or_concat rest).resolve_left hrest
  rw [List.concat_eq_append] at hn heq
  rw [← List.append_assoc, List.getLast?_concat] at heq
  exact (List.nodup_append'.mp hn).2.2 (List.mem_of_getLast? heq.symm) (by simp)

theorem filter_eq_of_lastUpTo_eq {k₁ k₂ : K} (h : l.Pairwise (key · ≤ key ·)) (hn : l.Nodup) (ha : key a = k₁)
    (hle : k₁ ≤ k₂) (heq : lastUpTo key k₂ l = lastUpTo key k₁ l) :
    l.filter (key · ≤ k₂) = l.filter (key · ≤ k₁) := by
  subst ha
  obtain ⟨before, behind, rfl, -, hbefore, hbehind⟩ := exists_split h a
  have hnone : behind.filter (key · ≤ key a) = [] := by
    simpa [List.filter_eq_nil_iff] using hbehind
  unfold lastUpTo at heq
  rw [List.filter_append, List.filter_append, filter_of_le hbefore,
    filter_of_le fun b hb => (hbefore b hb).trans hle, hnone, List.append_nil] at heq ⊢
  by_contra hne
  refine getLast?_append_ne ?_ (fun hnil => hne (by rw [hnil, List.append_nil])) heq
  have hsub : (before ++ behind.filter (key · ≤ k₂)).Sublist (before ++ behind) :=
    List.filter_sublist.append_left before
  exact hn.sublist hsub

theorem lastUpTo_congr (h : ∀ a ∈ l, key' a = key a) : lastUpTo key' k l = lastUpTo key k l := by
  unfold lastUpTo
  rw [List.filter_congr fun a ha => by rw [h a ha]]

theorem lastUpTo_eq_none : lastUpTo key k l = none ↔ ∀ a ∈ l, k < key a := by
  unfold lastUpTo
  simp

theorem lastUpTo_between {k' : K} (h : l.Pairwise (key · ≤ key ·)) (hn : l.Nodup) (h1 : key a ≤ k)
    (h2 : k ≤ k') (heq : lastUpTo key k' l = lastUpTo key (key a) l) :
    lastUpTo key k l = lastUpTo key (key a) l := by
  have hsame := congrArg (List.filter (key · ≤ k)) (filter_eq_of_lastUpTo_eq h hn rfl (h1.trans h2) heq)
  rw [List.filter_filter, List.filter_filter] at hsame
  unfold lastUpTo
  congr 1
  convert hsame using 2
  · ext b
    simpa using fun hb => hb.trans h2
  · ext b
    simpa using fun hb => hb.trans h1

theorem lastUpTo_insertBehind_of_lt (hk : k < key t) :
    lastUpTo key k (insertBehind key t l) = lastUpTo key k l := by
  unfold lastUpTo
  rw [filter_insertBehind (by simpa using hk)]

theorem lastUpTo_insertBehind [DecidableEq T] (h : l.Pairwise (key · ≤ key ·)) (hn : l.Nodup) (hk : key t ≤ k) :
    lastUpTo key k (insertBehind key t l) =
      if lastUpTo key k l = lastUpTo key (key t) l then some t else lastUpTo key k l := by
  obtain ⟨before, behind, rfl, hins, hbefore, hbehind⟩ := exists_split h t
  have hnone : behind.filter (key · ≤ key t) = [] := by
    simpa [List.filter_eq_nil_iff] using hbehind
  rw [hins]
  unfold lastUpTo
  rw [List.filter_append, List.filter_append, List.filter_append, filter_of_le hbefore,
    filter_of_le fun b hb => (hbefore b hb).trans hk, hnone, List.append_nil, List.filter_cons,
    if_pos (by simpa using hk)]
  rcases List.eq_nil_or_concat (behind.filter (key · ≤ k)) with hnil | ⟨rest, b, hrest⟩
  · simp [hnil]
  · have hsub : (before ++ behind.filter (key · ≤ k)).Sublist (before ++ behind) :=
      List.filter_sublist.append_left before
    have hne : behind.filter (key · ≤ k) ≠ [] := by simp [hrest]
    rw [if_neg (getLast?_append_ne (hn.sublist hsub) hne), List.append_cons,
      List.getLast?_append_of_ne_nil _ hne, List.getLast?_append_of_ne_nil _ hne]

theorem lastUpTo_cons_of_lt (hk : k < key a) : lastUpTo key k (a :: l) = lastUpTo key k l := by
  unfold lastUpTo
  rw [List.filter_cons, if_neg (by simpa using hk)]

theorem lastUpTo_of_cons [DecidableEq T] (hn : (a :: l).Nodup) (hk : key a ≤ k) :
    lastUpTo key k l = if lastUpTo key k (a :: l) = some a then none else lastUpTo key k (a :: l) := by
  have hcons : lastUpTo key k (a :: l) = ([a] ++ l.filter (key · ≤ k)).getLast? := by
    unfold lastUpTo
    rw [List.filter_cons, if_pos (by simpa using hk)]
    rfl
  rw [hcons]
  unfold lastUpTo
  rcases List.eq_nil_or_concat (l.filter (key · ≤ k)) with hnil | ⟨rest, b, hrest⟩
  · simp [hnil]
  · have hsub : ([a] ++ l.filter (key · ≤ k)).Sublist ([a] ++ l) := List.filter_sublist.append_left [a]
    have hrest' : l.filter (key · ≤ k) ≠ [] := by simp [hrest]
    have hne := getLast?_append_ne (hn.sublist hsub) hrest'
    rw [List.getLast?_singleton] at hne
    rw [if_neg hne, List.getLast?_append_of_ne_nil _ hrest']

namespace StablyOrdered

theorem nil : StablyOrdered key ([] : List T) [] := ⟨List.Pairwise.nil, fun _ => rfl⟩

theorem congr (h : StablyOrdered key l arrived) (hl : ∀ a ∈ l, key' a = key a)
    (ha : ∀ a ∈ arrived, key' a = key a) : StablyOrdered key' l arrived := by
  refine ⟨h.ordered.imp_of_mem ?_, fun k => ?_⟩
  · intro a b hamem hbmem hab
    rwa [hl a hamem, hl b hbmem]
  · rw [List.filter_congr fun a hmem => by rw [hl a hmem], h.same_key k]
    exact (List.filter_congr fun a hmem => by rw [ha a hmem]).symm

theorem mem_iff (h : StablyOrdered key l arrived) : a ∈ l ↔ a ∈ arrived := by
  have hmem : a ∈ l.filter (key · = key a) ↔ a ∈ arrived.filter (key · = key a) := by rw [h.same_key]
  simpa using hmem

theorem perm [DecidableEq T] (h : StablyOrdered key l arrived) : l.Perm arrived := by
  rw [List.perm_iff_count]
  intro a
  have hcount := congrArg (List.count a) (h.same_key (key a))
  rwa [List.count_filter (by simp), List.count_filter (by simp)] at hcount

theorem insertBehind (h : StablyOrdered key l arrived) :
    StablyOrdered key (insertBehind key t l) (arrived ++ [t]) := by
  refine ⟨ordered_insertBehind h.ordered, fun k => ?_⟩
  by_cases hk : key t = k
  · subst hk
    obtain ⟨before, behind, rfl, hins, -, hbehind⟩ := exists_split h.ordered t
    have hnone : behind.filter (key · = key t) = [] := by
      simpa [List.filter_eq_nil_iff] using fun b hb => (hbehind b hb).ne'
    have hsame := h.same_key (key t)
    rw [List.filter_append, hnone, List.append_nil] at hsame
    rw [hins, List.filter_append, List.filter_append, hsame]
    simp [hnone]
  · rw [filter_insertBehind (by simpa using hk), h.same_key k, List.filter_append]
    simp [hk]

/-- The first element is the one of the smallest key that came first. -/
theorem head?_eq_argmin [DecidableEq T] (h : StablyOrdered key l arrived) : l.head? = arrived.argmin key := by
  cases l with
  | nil =>
    have hnil : arrived = [] := by
      have hperm := h.perm
      simpa using hperm.symm
    rw [hnil]
    rfl
  | cons a l =>
    symm
    have hfirst := h.same_key (key a)
    rw [List.filter_cons, if_pos (by simp)] at hfirst
    obtain ⟨before, after, rfl, hbefore, -, -⟩ := List.filter_eq_cons_iff.mp hfirst.symm
    have hle : ∀ b ∈ before ++ a :: after, key a ≤ key b := fun b hb => by
      rcases List.mem_cons.mp (h.mem_iff.mpr hb) with rfl | hb
      · exact le_rfl
      · exact (List.pairwise_cons.mp h.ordered).1 b hb
    have hnot : ∀ b, key b ≤ key a → b ∉ before := fun b hb hmem =>
      hbefore b hmem (by simpa using hb.antisymm (hle b (by simp [hmem])))
    refine List.argmin_eq_some_iff.mpr ⟨by simp, hle, fun b _ hb => ?_⟩
    rw [List.idxOf_append_of_notMem (hnot a le_rfl), List.idxOf_append_of_notMem (hnot b hb)]
    simp

theorem tail [DecidableEq T] (h : StablyOrdered key (a :: l) arrived) : StablyOrdered key l (arrived.erase a) := by
  refine ⟨(List.pairwise_cons.mp h.ordered).2, fun k => ?_⟩
  rw [← List.erase_filter, ← h.same_key k]
  by_cases hk : key a = k
  · simp [hk]
  · rw [List.filter_cons, if_neg (by simpa using hk), List.erase_of_not_mem]
    simpa using fun _ => hk

end StablyOrdered

end SomeOs.StableQueue
