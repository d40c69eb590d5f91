import Mathlib

/-! # Trees of nodes in a heap

A heap maps addresses to nodes of a fixed width. A slot of a node may hold the address of
another node, down to a given depth. The nodes below a node are listed once for each slot that
leads to them, so that a tree without sharing is a list without duplicates.
-/
namespace SomeOs.NodeTree

variable {α : Type*} (child : α → Option ℕ) (width : ℕ)

def below (heap : ℕ → ℕ → α) : ℕ → ℕ → List ℕ
  | 0, _ => []
  | n + 1, f => (List.range width).flatMap fun i =>
    match child (heap f i) with
    | none => []
    | some g => g :: below heap n g

def nodes (heap : ℕ → ℕ → α) (n f : ℕ) : List ℕ := f :: below child width heap n f

def hang (heap : ℕ → ℕ → α) (n : ℕ) (a : α) : List ℕ :=
  match child a with
  | none => []
  | some g => nodes child width heap n g

def Bounded (heap : ℕ → ℕ → α) : ℕ → ℕ → Prop
  | 0, f => ∀ i < width, child (heap f i) = none
  | n + 1, f => ∀ i < width, ∀ g, child (heap f i) = some g → Bounded heap n g

variable {child width} {heap heap' : ℕ → ℕ → α} {n f g i : ℕ} {a : α}

theorem below_succ (heap : ℕ → ℕ → α) (n f : ℕ) :
    below child width heap (n + 1) f = (List.range width).flatMap fun i => hang child width heap n (heap f i) := rfl

theorem not_mem_below (h : (nodes child width heap n f).Nodup) : f ∉ below child width heap n f := (List.nodup_cons.mp h).1

theorem ne_of_mem_below (h : (nodes child width heap n f).Nodup) (hg : g ∈ below child width heap n f) : g ≠ f :=
  fun heq => not_mem_below h (heq ▸ hg)

theorem hang_none (h : child a = none) : hang child width heap n a = [] := by
  simp [hang, h]

theorem hang_some (h : child a = some g) : hang child width heap n a = nodes child width heap n g := by
  simp [hang, h]

theorem hang_subset (hi : i < width) : hang child width heap n (heap f i) ⊆ below child width heap (n + 1) f := by
  intro x hx
  rw [below_succ]
  exact List.mem_flatMap.mpr ⟨i, List.mem_range.mpr hi, hx⟩

theorem nodes_subset (hi : i < width) (h : child (heap f i) = some g) :
    nodes child width heap n g ⊆ below child width heap (n + 1) f := by
  rw [← hang_some h]
  exact hang_subset hi

theorem below_congr (h : ∀ g ∈ nodes child width heap n f, heap' g = heap g) :
    below child width heap' n f = below child width heap n f := by
  induction n generalizing f with
  | zero => rfl
  | succ n ih =>
    rw [below_succ, below_succ, h f List.mem_cons_self]
    apply List.flatMap_congr
    intro i hi
    cases hc : child (heap f i) with
    | none => rw [hang_none hc, hang_none hc]
    | some g =>
      rw [hang_some hc, hang_some hc, nodes, nodes]
      congr 1
      apply ih
      intro x hx
      exact h x (List.mem_cons_of_mem _ (nodes_subset (List.mem_range.mp hi) hc hx))

theorem nodes_congr (h : ∀ g ∈ nodes child width heap n f, heap' g = heap g) :
    nodes child width heap' n f = nodes child width heap n f := by
  rw [nodes, nodes, below_congr h]

theorem bounded_congr (h : ∀ g ∈ nodes child width heap n f, heap' g = heap g) (hb : Bounded child width heap n f) :
    Bounded child width heap' n f := by
  induction n generalizing f with
  | zero =>
    intro i hi
    rw [h f List.mem_cons_self]
    exact hb i hi
  | succ n ih =>
    intro i hi g hg
    rw [h f List.mem_cons_self] at hg
    exact ih (fun x hx => h x (List.mem_cons_of_mem _ (nodes_subset hi hg hx))) (hb i hi g hg)

theorem below_of_empty (h : ∀ i < width, child (heap f i) = none) : below child width heap n f = [] := by
  cases n with
  | zero => rfl
  | succ n =>
    rw [below_succ, List.flatMap_eq_nil_iff]
    intro i hi
    exact hang_none (h i (List.mem_range.mp hi))

theorem bounded_of_empty (h : ∀ i < width, child (heap f i) = none) : Bounded child width heap n f := by
  cases n with
  | zero => exact h
  | succ n =>
    intro i hi g hg
    rw [h i hi] at hg
    cases hg

theorem hang_apart {j x : ℕ} (hnodup : (nodes child width heap (n + 1) f).Nodup) (hi : i < width) (hj : j < width)
    (hne : j ≠ i) (hx : x ∈ hang child width heap n (heap f j)) : x ∉ hang child width heap n (heap f i) := by
  have hbelow := (List.nodup_cons.mp hnodup).2
  rw [below_succ, List.nodup_flatMap] at hbelow
  have hsymm : Std.Symm (Function.onFun List.Disjoint fun i => hang child width heap n (heap f i)) :=
    ⟨fun _ _ h => h.symm⟩
  exact hbelow.2.forall (List.mem_range.mpr hj) (List.mem_range.mpr hi) hne hx

theorem nodup_child (hnodup : (nodes child width heap (n + 1) f).Nodup) (hi : i < width) (h : child (heap f i) = some g) :
    (nodes child width heap n g).Nodup ∧ f ∉ nodes child width heap n g := by
  obtain ⟨hf, hbelow⟩ := List.nodup_cons.mp hnodup
  refine ⟨?_, fun hmem => hf (nodes_subset hi h hmem)⟩
  rw [below_succ, List.nodup_flatMap] at hbelow
  rw [← hang_some h]
  exact hbelow.1 i (List.mem_range.mpr hi)

/-- Two heaps differ in one slot of a node and in the nodes this slot leads to. -/
structure SlotOnly (child : α → Option ℕ) (width : ℕ) (heap heap' : ℕ → ℕ → α) (n f i : ℕ) : Prop where
  self : ∀ j, j ≠ i → heap' f j = heap f j
  other : ∀ g ∈ below child width heap (n + 1) f, g ∉ hang child width heap n (heap f i) → heap' g = heap g

theorem SlotOnly.child_same {j : ℕ} (hc : SlotOnly child width heap heap' n f i)
    (hnodup : (nodes child width heap (n + 1) f).Nodup) (hi : i < width) (hj : j < width) (hne : j ≠ i)
    (hg : child (heap f j) = some g) : ∀ x ∈ nodes child width heap n g, heap' x = heap x := by
  intro x hx
  refine hc.other x (nodes_subset hj hg hx) (hang_apart hnodup hi hj hne ?_)
  rw [hang_some hg]
  exact hx

theorem SlotOnly.hang_same {j : ℕ} (hc : SlotOnly child width heap heap' n f i)
    (hnodup : (nodes child width heap (n + 1) f).Nodup) (hi : i < width) (hj : j < width) (hne : j ≠ i) :
    hang child width heap' n (heap' f j) = hang child width heap n (heap f j) := by
  rw [hc.self j hne]
  cases hg : child (heap f j) with
  | none => rw [hang_none hg, hang_none hg]
  | some g =>
    rw [hang_some hg, hang_some hg]
    exact nodes_congr (hc.child_same hnodup hi hj hne hg)

theorem SlotOnly.below (hc : SlotOnly child width heap heap' n f i)
    (hnodup : (nodes child width heap (n + 1) f).Nodup) (hi : i < width) :
    ∃ l r, below child width heap (n + 1) f = l ++ hang child width heap n (heap f i) ++ r ∧
      NodeTree.below child width heap' (n + 1) f = l ++ hang child width heap' n (heap' f i) ++ r := by
  have hsplit : List.range width = List.range i ++ i :: List.range' (i + 1) (width - (i + 1)) := by
    obtain ⟨k, rfl⟩ : ∃ k, width = i + (k + 1) := ⟨width - (i + 1), by omega⟩
    rw [List.range_eq_range', List.range_eq_range', ← List.range'_append, show i + (k + 1) - (i + 1) = k by omega]
    simp [List.range'_succ]
  have hbelow := @below_succ _ child width heap n f
  have hbelow' := @below_succ _ child width heap' n f
  rw [hsplit, List.flatMap_append, List.flatMap_cons, ← List.append_assoc] at hbelow hbelow'
  refine ⟨_, _, hbelow, ?_⟩
  rw [hbelow']
  congr 1
  · congr 1
    apply List.flatMap_congr
    intro j hj
    have hj := List.mem_range.mp hj
    exact hc.hang_same hnodup hi (by omega) (by omega)
  · apply List.flatMap_congr
    intro j hj
    have hj := List.mem_range'_1.mp hj
    exact hc.hang_same hnodup hi (by omega) (by omega)

theorem SlotOnly.mem_cases {x : ℕ} (hc : SlotOnly child width heap heap' n f i)
    (hnodup : (nodes child width heap (n + 1) f).Nodup) (hi : i < width) (hx : x ∈ NodeTree.below child width heap' (n + 1) f) :
    x ∈ hang child width heap' n (heap' f i) ∨ x ∈ NodeTree.below child width heap (n + 1) f ∧ heap' x = heap x := by
  rw [below_succ] at hx
  obtain ⟨j, hj, hx⟩ := List.mem_flatMap.mp hx
  have hj := List.mem_range.mp hj
  by_cases hne : j = i
  · rw [hne] at hx
    exact .inl hx
  · rw [hc.hang_same hnodup hi hj hne] at hx
    exact .inr ⟨hang_subset hj hx, hc.other x (hang_subset hj hx) (hang_apart hnodup hi hj hne hx)⟩

theorem SlotOnly.bounded (hc : SlotOnly child width heap heap' n f i)
    (hnodup : (nodes child width heap (n + 1) f).Nodup) (hi : i < width) (hb : Bounded child width heap (n + 1) f)
    (hnew : ∀ g, child (heap' f i) = some g → Bounded child width heap' n g) : Bounded child width heap' (n + 1) f := by
  intro j hj g hg
  by_cases hne : j = i
  · rw [hne] at hg
    exact hnew g hg
  · rw [hc.self j hne] at hg
    exact bounded_congr (hc.child_same hnodup hi hj hne hg) (hb j hj g hg)

theorem mem_below_of_child {x : ℕ} (hb : Bounded child width heap n f) (hx : x ∈ nodes child width heap n f)
    (hi : i < width) (hg : child (heap x i) = some g) : g ∈ below child width heap n f := by
  induction n generalizing f with
  | zero =>
    rw [nodes, NodeTree.below, List.mem_singleton] at hx
    rw [hx, hb i hi] at hg
    cases hg
  | succ n ih =>
    rcases List.mem_cons.mp hx with rfl | hx
    · exact nodes_subset hi hg List.mem_cons_self
    · rw [below_succ] at hx
      obtain ⟨j, hj, hx⟩ := List.mem_flatMap.mp hx
      have hj := List.mem_range.mp hj
      cases hc : child (heap f j) with
      | none =>
        rw [hang_none hc] at hx
        cases hx
      | some y =>
        rw [hang_some hc] at hx
        exact nodes_subset hj hc (List.mem_cons_of_mem _ (ih (hb j hj y hc) hx))

/-- In a bounded tree that lists no node twice, no two slots lead to one node. -/
theorem unshared {x y j : ℕ} (hb : Bounded child width heap n f) (hnodup : (nodes child width heap n f).Nodup)
    (hx : x ∈ nodes child width heap n f) (hy : y ∈ nodes child width heap n f) (hi : i < width) (hj : j < width)
    (hxg : child (heap x i) = some g) (hyg : child (heap y j) = some g) : x = y ∧ i = j := by
  induction n generalizing f with
  | zero =>
    rw [nodes, NodeTree.below, List.mem_singleton] at hx
    rw [hx, hb i hi] at hxg
    cases hxg
  | succ n ih =>
    -- the slot of the root on the way to the node is the one that leads to it
    have hslot : ∀ z ∈ nodes child width heap (n + 1) f, ∀ k < width, child (heap z k) = some g →
        (z = f ∧ g ∈ hang child width heap n (heap f k)) ∨ ∃ l < width, ∃ c, child (heap f l) = some c ∧
          z ∈ nodes child width heap n c ∧ g ∈ NodeTree.below child width heap n c := by
      intro z hz k hk hzg
      rcases List.mem_cons.mp hz with rfl | hz
      · refine .inl ⟨rfl, ?_⟩
        rw [hang_some hzg]
        exact List.mem_cons_self
      · rw [below_succ] at hz
        obtain ⟨l, hl, hz⟩ := List.mem_flatMap.mp hz
        have hl := List.mem_range.mp hl
        cases hc : child (heap f l) with
        | none =>
          rw [hang_none hc] at hz
          cases hz
        | some c =>
          rw [hang_some hc] at hz
          exact .inr ⟨l, hl, c, hc, hz, mem_below_of_child (hb l hl c hc) hz hk hzg⟩
    have hsame : ∀ k l, k < width → l < width → g ∈ hang child width heap n (heap f k) →
        g ∈ hang child width heap n (heap f l) → k = l := by
      intro k l hk hl hgk hgl
      by_contra hne
      exact hang_apart hnodup hl hk hne hgk hgl
    have hroot : ∀ k < width, ∀ l < width, ∀ c, child (heap f k) = some g → child (heap f l) = some c →
        g ∉ NodeTree.below child width heap n c := by
      intro k hk l hl c hk' hc hg
      have hkl : k = l := by
        refine hsame k l hk hl ?_ ?_
        · rw [hang_some hk']
          exact List.mem_cons_self
        · rw [hang_some hc]
          exact List.mem_cons_of_mem _ hg
      rw [hkl, hc, Option.some.injEq] at hk'
      rw [hk'] at hc hg
      exact not_mem_below (nodup_child hnodup hl hc).1 hg
    rcases hslot x hx i hi hxg with ⟨rfl, hgi⟩ | ⟨k, hk, c, hc, hxc, hgc⟩ <;>
      rcases hslot y hy j hj hyg with ⟨rfl, hgj⟩ | ⟨l, hl, d, hd, hyd, hgd⟩
    · exact ⟨rfl, hsame i j hi hj hgi hgj⟩
    · exact absurd hgd (hroot i hi l hl d hxg hd)
    · exact absurd hgc (hroot j hj k hk c hyg hc)
    · have hkl : k = l := by
        refine hsame k l hk hl ?_ ?_
        · rw [hang_some hc]
          exact List.mem_cons_of_mem _ hgc
        · rw [hang_some hd]
          exact List.mem_cons_of_mem _ hgd
      subst hkl
      rw [hc, Option.some.injEq] at hd
      subst hd
      exact ih (hb k hk c hc) (nodup_child hnodup hk hc).1 hxc hyd

end SomeOs.NodeTree
