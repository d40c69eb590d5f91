import SomeOs.Vfs.Walks

/-! # The path of a node

The path that a lookup returns beside the node is the canonical form of the path that was looked
up. The names of the trail say both what it is and that it leads to the same node.
-/
namespace SomeOs.Vfs
open Segments

section Memory
variable {x junk : List UInt8}

theorem storeAll_eq (bytes : List UInt8) (h : bytes.length ≤ junk.length) :
    storeAll (x ++ junk) x.length bytes = some (x ++ bytes ++ junk.drop bytes.length) := by
  induction bytes generalizing x junk with
  | nil => simp [storeAll]
  | cons c bytes ih =>
    obtain ⟨j, junk, rfl⟩ := List.exists_cons_of_length_pos (show 0 < junk.length by simp at h; omega)
    have hstore : store (x ++ j :: junk) x.length c = some (x ++ [c] ++ junk) := by simp [store]
    have := @ih (x ++ [c]) junk (by simpa using h)
    rw [List.length_append, List.length_singleton] at this
    rw [storeAll, hstore, Option.bind_some, this]
    simp

theorem store_eq {c : UInt8} (h : 0 < junk.length) : store (x ++ junk) x.length c = some (x ++ c :: junk.drop 1) := by
  obtain ⟨j, junk, rfl⟩ := List.exists_cons_of_length_pos h
  simp [store]

def joined (segs : List Name) : List UInt8 := segs.flatMap (slash :: ·)

theorem joined_length (segs : List Name) : (joined segs).length = (segs.map fun seg => 1 + seg.length).sum := by
  induction segs with
  | nil => rfl
  | cons seg segs ih =>
    rw [joined, List.flatMap_cons, List.length_append, List.map_cons, List.sum_cons, ← ih, joined]
    simp [Nat.add_comm]

theorem storeSegs_eq (segs : List Name) (hne : x ≠ [] ∨ segs ≠ []) (h : junk.length = (joined segs).length + 1) :
    storeSegs (x ++ junk) x.length segs = some (x ++ joined segs ++ [0]) := by
  induction segs generalizing x junk with
  | nil =>
    have hx : 1 ≤ x.length := List.length_pos_of_ne_nil (hne.resolve_right (by simp))
    have h1 : junk.length = 1 := h
    rw [storeSegs, max_eq_right hx, store_eq (by omega), List.drop_eq_nil_of_le h1.le]
    simp [joined]
  | cons seg segs ih =>
    have hlen : (joined (seg :: segs)).length = 1 + seg.length + (joined segs).length := by
      rw [joined_length, joined_length, List.map_cons, List.sum_cons]
    have hseg := @storeAll_eq (x ++ [slash]) (junk.drop 1) seg (by rw [List.length_drop]; omega)
    have hrest := @ih (x ++ [slash] ++ seg) ((junk.drop 1).drop seg.length) (Or.inl (by simp)) (by simp; omega)
    rw [List.length_append, List.length_singleton, Nat.add_comm] at hseg
    have hpos : (x ++ [slash] ++ seg).length = x.length + (1 + seg.length) := by simp; omega
    rw [hpos] at hrest
    rw [storeSegs, store_eq (by omega), Option.bind_some, ← List.singleton_append, ← List.append_assoc, hseg, Option.bind_some,
      hrest]
    simp [joined]

theorem realPath_eq {block at_prefix : List UInt8} {segs : List Name} (h : block.length = max 1 (pathLength at_prefix segs) + 1) :
    realPath block at_prefix segs = some ((if at_prefix = [] ∧ segs = [] then [slash] else at_prefix ++ joined segs) ++ [0]) := by
  have hlen : pathLength at_prefix segs = at_prefix.length + (joined segs).length := by rw [pathLength, joined_length]
  have hall := @storeAll_eq [] block at_prefix (by omega)
  rw [List.nil_append, List.nil_append, List.length_nil] at hall
  have hdrop : (block.drop at_prefix.length).length = max 1 (pathLength at_prefix segs) + 1 - at_prefix.length := by
    rw [List.length_drop, h]
  rw [realPath, hall, Option.bind_some, store_eq (by omega), Option.bind_some]
  split_ifs with hnil
  · obtain ⟨rfl, rfl⟩ := hnil
    have h2 : block.length = 2 := h
    obtain ⟨a, b, rfl⟩ := List.length_eq_two.mp h2
    rfl
  · have hpos : 1 ≤ at_prefix.length + (joined segs).length := by
      by_contra hzero
      refine hnil ⟨List.length_eq_zero_iff.mp (by omega), ?_⟩
      cases segs with
      | nil => rfl
      | cons seg segs => simp [joined] at hzero
    exact storeSegs_eq segs (by rwa [← not_and_or] ) (by simp; omega)

end Memory

theorem joined_eq {segs : List Name} (hne : segs ≠ []) : joined segs = slash :: [slash].intercalate segs := by
  induction segs with
  | nil => exact absurd rfl hne
  | cons seg segs ih =>
    cases segs with
    | nil => simp [joined]
    | cons v segs =>
      rw [List.intercalate_cons_cons]
      have := ih (List.cons_ne_nil v segs)
      rw [joined] at this ⊢
      rw [List.flatMap_cons, this]
      simp

/-- The string has a slash at its start, and then names that are neither empty nor `.` or `..`. -/
def Canonical (path : List UInt8) : Prop :=
  ∃ rest, path = slash :: rest ∧ (rest = [] ∨ ∀ seg ∈ rest.splitOn slash, seg ≠ [] ∧ seg ≠ dot ∧ seg ≠ dotDot)

section Result
variable {s u : VirtualFilesystem} {process : Option User} {root n : NodeId} {path block : List UInt8} {flags : LookupFlags}
  {segs : List Name}

/-- The path of the node that was found is the canonical path, which leads to it again. -/
theorem vfsLookupNode_realPath (h0 : 0 ∉ path) (habs : isAbsolute path = true)
    (h : s.vfsLookupNode process root path flags = some (.ok (n, segs), u))
    (hblock : block.length = max 1 (pathLength [] segs) + 1) :
    ∃ real_path, realPath block [] segs = some (real_path ++ [0]) ∧ 0 ∉ real_path ∧ Canonical real_path ∧
      (∃ steps, ∀ fuel, steps ≤ fuel → (inlineReducePath fuel (path ++ [0])).map cString = some real_path) ∧
      u.tree = s.tree ∧ ∀ v : VirtualFilesystem, v.tree = s.tree →
        ∃ w, v.vfsLookupNode process root real_path flags = some (.ok (n, segs), w) := by
  obtain ⟨r, t, hr, htree, hok⟩ := vfsLookupNode_spec s process root path flags
  rw [hr] at h
  simp only [Option.some.injEq, Prod.mk.injEq] at h
  obtain ⟨rfl, rfl⟩ := h
  obtain ⟨hsegs, d, dirs, htrail, hn⟩ := hok n segs rfl
  obtain ⟨kept, m, hstack, hres, hcanon⟩ := canonical_segments path
  rw [habs, ← hsegs] at hres
  have hpath : canonicalPath path = slash :: [slash].intercalate segs := by
    rw [canonicalPath, habs, ← hsegs]
    rfl
  have hname : ∀ seg ∈ segs, seg ≠ [] ∧ slash ∉ seg ∧ seg ≠ dot ∧ seg ≠ dotDot := by
    intro seg hseg
    obtain ⟨hne, hslash, hdot⟩ := hstack.segment seg (by rwa [hres, List.mem_reverse] at hseg)
    exact ⟨hne, hslash, hdot, (htrail.names seg (List.mem_reverse.mpr hseg)).2⟩
  refine ⟨canonicalPath path, ?_, canonical_chars h0, ?_, inlineReducePath_canonical h0, htree, fun v hv => ?_⟩
  · rw [realPath_eq hblock, hpath]
    by_cases hnil : segs = []
    · simp [hnil]
    · rw [if_neg (fun h => hnil h.2), List.nil_append, joined_eq hnil]
  · refine ⟨_, hpath, ?_⟩
    by_cases hnil : segs = []
    · exact Or.inl (by rw [hnil]; rfl)
    · refine Or.inr ?_
      rw [List.splitOn_intercalate slash (fun seg hseg => (hname seg hseg).2.1) hnil]
      exact fun seg hseg => ⟨(hname seg hseg).1, (hname seg hseg).2.2⟩
  · rw [← hv] at htrail hn
    obtain ⟨w, hw⟩ := htrail.found (hcanon.trans hres.symm)
    exact ⟨w, by rw [hn]; exact hw⟩

/-- The path `/a/..//b/` -/
theorem vfsLookupNode_realPath_parent : ∃ real_path,
    realPath [1, 2, 3] [] [[98]] = some (real_path ++ [0]) ∧ 0 ∉ real_path ∧ Canonical real_path := by
  have h0 : 0 ∉ ([47, 97, 47, 46, 46, 47, 47, 98, 47] : List UInt8) := by decide
  have hfst : (VirtualFilesystem.vfsLookupNode ⟨twoDirectories none, 0, fun _ => 1, some 0, []⟩ none (0, 1)
      [47, 97, 47, 46, 46, 47, 47, 98, 47] {}).map (·.1.toOption) = some (some ((0, 3), [[98]])) := by decide
  obtain ⟨r, u, hr, -⟩ := vfsLookupNode_spec ⟨twoDirectories none, 0, fun _ => 1, some 0, []⟩ none (0, 1)
    [47, 97, 47, 46, 46, 47, 47, 98, 47] {}
  rw [hr] at hfst
  cases r with
  | error e => cases hfst
  | ok r =>
    cases hfst
    obtain ⟨real_path, h1, h2, h3, -⟩ :=
      vfsLookupNode_realPath h0 rfl hr (show [1, 2, 3].length = max 1 (pathLength [] [[98]]) + 1 from rfl)
    exact ⟨real_path, h1, h2, h3⟩

end Result

end SomeOs.Vfs
