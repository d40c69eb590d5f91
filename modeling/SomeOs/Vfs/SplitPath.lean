import SomeOs.Vfs.ReducePath

/-! # Parent paths and base names

A path with a segment is a directory part, which is empty or ends with a slash, the last segment and
slashes. The scans from the end of the string stop at the borders of these parts. In a path without
segments nothing stops the last one.
-/
namespace SomeOs.Vfs
open Segments

section Scans
variable {p : UInt8 → Bool} {path : List UInt8} {k len : ℕ}

theorem scanBack_eq (hkl : k ≤ len) (hover : ∀ i, k < i → i ≤ len → ∃ c, path[i]? = some c ∧ p c = true)
    (hstop : k = 0 ∨ ∃ c, path[k]? = some c ∧ p c = false) : scanBack p path len = some k := by
  induction len with
  | zero =>
    obtain rfl : k = 0 := by omega
    rfl
  | succ len ih =>
    rw [scanBack]
    by_cases heq : k = len + 1
    · rcases hstop with hzero | ⟨c, hc, hp⟩
      · omega
      · rw [← heq, hc, Option.bind_some, hp]
        simp
    · obtain ⟨c, hc, hp⟩ := hover (len + 1) (by omega) (le_refl _)
      rw [hc, Option.bind_some, if_pos hp]
      exact ih (by omega) fun i h1 h2 => hover i h1 (by omega)

theorem dropSlashes_eq (hkl : k ≤ len) (hover : ∀ i, k ≤ i → i < len → path[i]? = some slash)
    (hstop : k = 0 ∨ ∃ c, path[k - 1]? = some c ∧ c ≠ slash) : dropSlashes path len = some k := by
  induction len with
  | zero =>
    obtain rfl : k = 0 := by omega
    rfl
  | succ len ih =>
    rw [dropSlashes]
    by_cases heq : k = len + 1
    · rcases hstop with hzero | ⟨c, hc, hne⟩
      · omega
      · rw [heq, Nat.add_sub_cancel] at hc
        rw [hc, Option.bind_some, if_neg hne, heq]
    · rw [hover len (by omega) (by omega), Option.bind_some, if_pos rfl]
      exact ih (by omega) fun i h1 h2 => hover i h1 (by omega)

theorem trimSlashes_eq {c : UInt8} (hkl : k < len) (hover : ∀ i, k < i → i < len → path[i]? = some slash)
    (hc : path[k]? = some c) (hne : c ≠ slash) : trimSlashes path len = some (k + 1) := by
  induction len with
  | zero => omega
  | succ len ih =>
    rw [trimSlashes]
    by_cases heq : k = len
    · rw [← heq, hc, Option.bind_some, if_neg hne]
    · rw [hover len (by omega) (by omega), Option.bind_some, if_pos rfl]
      exact ih (by omega) fun i h1 h2 => hover i h1 (by omega)

theorem trimSlashes_none (hover : ∀ i < len, path[i]? = some slash) : trimSlashes path len = none := by
  induction len with
  | zero => rfl
  | succ len ih =>
    rw [trimSlashes, hover len (by omega), Option.bind_some, if_pos rfl]
    exact ih fun i hi => hover i (by omega)

end Scans

structure Split (path dir base : List UInt8) (n : ℕ) : Prop where
  path : path = dir ++ base ++ List.replicate n slash
  base : base ≠ [] ∧ slash ∉ base
  dir : dir = [] ∨ dir.getLast? = some slash

section Split
variable {path dir base : List UInt8} {n : ℕ}

/-- The end of a list from the last slash on. -/
theorem exists_split (h : segments slash path ≠ []) : ∃ dir base n, Split path dir base n := by
  induction path using List.reverseRecOn with
  | nil => simp at h
  | append_singleton path c ih =>
    by_cases hc : c = slash
    · subst hc
      rw [segments_append_sep, segments_nil, List.append_nil] at h
      obtain ⟨dir, base, n, hsplit⟩ := ih h
      refine ⟨dir, base, n + 1, ⟨?_, hsplit.base, hsplit.dir⟩⟩
      rw [hsplit.path, List.replicate_succ']
      simp
    · have hne : slash ∉ [c] := by simpa using Ne.symm hc
      by_cases hpath : segments slash path ≠ []
      · obtain ⟨dir, base, n, hsplit⟩ := ih hpath
        cases n with
        | zero =>
          refine ⟨dir, base ++ [c], 0, ⟨by rw [hsplit.path]; simp, ⟨by simp, ?_⟩, hsplit.dir⟩⟩
          rw [List.mem_append, not_or]
          exact ⟨hsplit.base.2, hne⟩
        | succ n =>
          refine ⟨path, [c], 0, ⟨by simp, ⟨by simp, hne⟩, Or.inr ?_⟩⟩
          rw [hsplit.path, List.replicate_succ']
          simp
      · refine ⟨path, [c], 0, ⟨by simp, ⟨by simp, hne⟩, ?_⟩⟩
        rcases List.eq_nil_or_concat path with rfl | ⟨u, d, rfl⟩
        · exact Or.inl rfl
        · have hd := segments_eq_nil_iff.mp (not_not.mp hpath) d (by simp)
          exact Or.inr (by simp [hd])

theorem segments_slashes (x : List UInt8) (n : ℕ) : segments slash (x ++ List.replicate n slash) = segments slash x := by
  cases n with
  | zero => simp
  | succ n =>
    have hnil : segments slash (List.replicate n slash) = [] := segments_eq_nil_iff.mpr fun c hc => List.eq_of_mem_replicate hc
    rw [List.replicate_succ, segments_append_sep, hnil, List.append_nil]

theorem Split.segments_eq (h : Split path dir base n) : segments slash path = segments slash dir ++ [base] := by
  have hbase := segments_of_not_mem h.base.2 h.base.1
  rw [h.path, segments_slashes]
  rcases h.dir with rfl | hdir
  · simpa using hbase
  · obtain ⟨u, rfl⟩ := List.getLast?_eq_some_iff.mp hdir
    simp [hbase]

theorem Split.length (h : Split path dir base n) : path.length = dir.length + base.length + n := by
  rw [h.path]
  simp [Nat.add_assoc]

theorem Split.base_char (h : Split path dir base n) {i : ℕ} (h1 : dir.length ≤ i) (h2 : i < dir.length + base.length) :
    ∃ c, (path ++ [0])[i]? = some c ∧ c ≠ slash := by
  have hi : i - dir.length < base.length := by omega
  refine ⟨base[i - dir.length], ?_, fun hc => h.base.2 (hc ▸ List.getElem_mem hi)⟩
  rw [h.path, List.append_assoc, List.append_assoc, List.getElem?_append_right h1, List.getElem?_append_left hi,
    List.getElem?_eq_getElem hi]

theorem Split.slash_char (h : Split path dir base n) {i : ℕ} (h1 : dir.length + base.length ≤ i) (h2 : i < path.length) :
    (path ++ [0])[i]? = some slash := by
  have hlen := h.length
  rw [h.path, List.append_assoc, List.getElem?_append_right (by simpa using h1), List.getElem?_append_left (by simp; omega),
    List.getElem?_replicate_of_lt (by simp; omega)]

theorem Split.dir_char (h : Split path dir base n) (hne : dir ≠ []) : (path ++ [0])[dir.length - 1]? = some slash := by
  have hlast := h.dir.resolve_left hne
  have := List.length_pos_of_ne_nil hne
  rw [h.path, List.append_assoc, List.append_assoc, List.getElem?_append_left (by omega), ← List.getLast?_eq_getElem?, hlast]

theorem Split.scans (h : Split path dir base n) : ∃ len, scanBack (· = slash) (path ++ [0]) (path.length - 1) = some len ∧
    scanBack (· ≠ slash) (path ++ [0]) len = some (dir.length - 1) := by
  have hlen := h.length
  have hpos := List.length_pos_of_ne_nil h.base.1
  refine ⟨dir.length + base.length - 1, scanBack_eq (by omega) (fun i h1 h2 => ?_) (Or.inr ?_),
    scanBack_eq (by omega) (fun i h1 h2 => ?_) ?_⟩
  · exact ⟨slash, h.slash_char (by omega) (by omega), by simp⟩
  · obtain ⟨c, hc, hne⟩ := h.base_char (show dir.length ≤ dir.length + base.length - 1 by omega) (by omega)
    exact ⟨c, hc, by simpa using hne⟩
  · obtain ⟨c, hc, hne⟩ := h.base_char (show dir.length ≤ i by omega) (by omega)
    exact ⟨c, hc, by simpa using hne⟩
  · by_cases hdir : dir = []
    · exact Or.inl (by simp [hdir])
    · exact Or.inr ⟨slash, h.dir_char hdir, by simp⟩

theorem cString_string (h0 : 0 ∉ path) : cString (path ++ [0]) = path := cString_append h0

theorem trim_base {rest : List UInt8} (hbase : base ≠ [] ∧ slash ∉ base) (hne : rest ≠ []) :
    ∃ junk, (trimSlashes (base ++ List.replicate n slash ++ rest) (base.length + n)).bind
      (fun k => store (base ++ List.replicate n slash ++ rest) k 0) = some (base ++ 0 :: junk) := by
  have hpos := List.length_pos_of_ne_nil hbase.1
  have hb : base.length - 1 < base.length := by omega
  have htrim : trimSlashes (base ++ List.replicate n slash ++ rest) (base.length + n) = some (base.length - 1 + 1) := by
    have hlast : base[base.length - 1] ≠ slash := fun hs => hbase.2 (hs ▸ List.getElem_mem hb)
    refine trimSlashes_eq (by omega) (fun i h1 h2 => ?_) ?_ hlast
    · rw [List.append_assoc, List.getElem?_append_right (by omega), List.getElem?_append_left (by simp; omega),
        List.getElem?_replicate_of_lt (by omega)]
    · rw [List.append_assoc, List.getElem?_append_left hb, List.getElem?_eq_getElem hb]
  obtain ⟨d, tail, htail⟩ := List.exists_cons_of_ne_nil (show List.replicate n slash ++ rest ≠ [] by simp [hne])
  refine ⟨tail, ?_⟩
  rw [htrim, Option.bind_some, show base.length - 1 + 1 = base.length by omega, List.append_assoc, htail]
  simp [store]

theorem Split.start (h : Split path dir base n) : ∃ c, (path ++ [0])[dir.length - 1]? = some c ∧
    (if c = slash then dir.length - 1 + 1 else dir.length - 1) = dir.length := by
  by_cases hdir : dir = []
  · have hpos := List.length_pos_of_ne_nil h.base.1
    obtain ⟨c, hc, hne⟩ := h.base_char (le_refl dir.length) (by omega)
    refine ⟨c, by simpa [hdir] using hc, ?_⟩
    rw [if_neg hne, hdir]
    rfl
  · have := List.length_pos_of_ne_nil hdir
    refine ⟨slash, h.dir_char hdir, ?_⟩
    rw [if_pos rfl]
    omega

theorem Split.baseFilename (h : Split path dir base n) (h0 : 0 ∉ path) :
    ∃ junk, getBaseFilename (path ++ [0]) = some (base ++ 0 :: junk) := by
  have hlen := h.length
  have hpos := List.length_pos_of_ne_nil h.base.1
  obtain ⟨last, hlast⟩ := Nat.exists_eq_add_one_of_ne_zero (show path.length ≠ 0 by omega)
  obtain ⟨len, hscan₁, hscan₂⟩ := h.scans
  rw [hlast, Nat.add_sub_cancel] at hscan₁
  obtain ⟨c, hc, hstart⟩ := h.start
  have hn : last + 1 - dir.length = base.length + n := by omega
  have hcopy : ((path ++ [0]).drop dir.length).take (base.length + n) = base ++ List.replicate n slash := by
    have hlength : base.length + n = (base ++ List.replicate n slash).length := by simp
    rw [hlength, h.path, List.append_assoc, List.append_assoc, List.drop_left, ← List.append_assoc, List.take_left]
  obtain ⟨junk, hjunk⟩ := @trim_base base n ((path ++ [0]).drop (base.length + n)) h.base (by simp; omega)
  refine ⟨junk, ?_⟩
  simp only [getBaseFilename, cString_string h0, hlast, hscan₁, Option.bind_some, hscan₂, hc, hstart, hn, hcopy, hjunk]

theorem exists_trailing (dir : List UInt8) : ∃ d m, dir = d ++ List.replicate m slash ∧
    (d = [] ∨ ∃ u c, d = u ++ [c] ∧ c ≠ slash) := by
  induction dir using List.reverseRecOn with
  | nil => exact ⟨[], 0, rfl, Or.inl rfl⟩
  | append_singleton dir c ih =>
    by_cases hc : c = slash
    · obtain ⟨d, m, hdir, hd⟩ := ih
      refine ⟨d, m + 1, ?_, hd⟩
      rw [hdir, hc, List.replicate_succ', List.append_assoc]
    · exact ⟨dir ++ [c], 0, by simp, Or.inr ⟨dir, c, rfl, hc⟩⟩

theorem store_split (x y : List UInt8) (hy : y ≠ []) : store (x ++ y) x.length 0 = some (x ++ 0 :: y.tail) := by
  obtain ⟨c, y, rfl⟩ := List.exists_cons_of_ne_nil hy
  simp [store]

/-- The last scan stops after the directory that is meant. -/
theorem Split.parentEnd (h : Split path dir base n) {d : List UInt8} {m : ℕ} (hdir : dir = d ++ List.replicate m slash)
    (hd : d = [] ∨ ∃ u c, d = u ++ [c] ∧ c ≠ slash) : dropSlashes (path ++ [0]) (dir.length - 1) = some d.length := by
  have hpath : path ++ [0] = d ++ (List.replicate m slash ++ (base ++ List.replicate n slash ++ [0])) := by
    rw [h.path, hdir]
    simp
  have hlen : dir.length = d.length + m := by simp [hdir]
  have hm : d ≠ [] → m ≠ 0 := by
    rintro hne rfl
    obtain ⟨u, c, rfl, hc⟩ := hd.resolve_left hne
    rcases h.dir with hnil | hlast
    · simp [hnil] at hdir
    · simp [hdir, hc] at hlast
  have hle : d.length ≤ dir.length - 1 := by
    rcases hd with rfl | ⟨u, c, rfl, -⟩
    · exact Nat.zero_le _
    · have := hm (by simp)
      omega
  refine dropSlashes_eq hle (fun i h1 h2 => ?_) ?_
  · rw [hpath, List.getElem?_append_right h1, List.getElem?_append_left (by simp; omega),
      List.getElem?_replicate_of_lt (by omega)]
  · rcases hd with rfl | ⟨u, c, rfl, hc⟩
    · exact Or.inl rfl
    · refine Or.inr ⟨c, ?_, hc⟩
      rw [hpath]
      simp

/-- The parent path has the segments of the directory part, and is absolute when the path is. -/
theorem Split.parentPath (h : Split path dir base n) (h0 : 0 ∉ path) :
    ∃ parent junk, getParentPath (path ++ [0]) = some (parent ++ 0 :: junk) ∧ 0 ∉ parent ∧
      segments slash parent = segments slash dir ∧ isAbsolute parent = isAbsolute path := by
  have hlen := h.length
  have hpos := List.length_pos_of_ne_nil h.base.1
  obtain ⟨last, hlast⟩ := Nat.exists_eq_add_one_of_ne_zero (show path.length ≠ 0 by omega)
  obtain ⟨len, hscan₁, hscan₂⟩ := h.scans
  rw [hlast, Nat.add_sub_cancel] at hscan₁
  obtain ⟨d, m, hdir, hd⟩ := exists_trailing dir
  have hend := h.parentEnd hdir hd
  have hpath : path ++ [0] = d ++ (List.replicate m slash ++ (base ++ List.replicate n slash ++ [0])) := by
    rw [h.path, hdir]
    simp
  simp only [getParentPath, cString_string h0, hlast, hscan₁, Option.bind_some, hscan₂, hend]
  rcases hd with rfl | ⟨u, c, rfl, hc⟩
  · cases m with
    | zero =>
      -- A name without a directory: the parent is the empty string.
      obtain rfl : dir = [] := by simpa using hdir
      obtain ⟨c, hc, hne⟩ := h.base_char (le_refl _) (by omega)
      rw [List.length_nil] at hc
      refine ⟨[], (path ++ [0]).tail, ?_, List.not_mem_nil, rfl, ?_⟩
      · rw [hc, Option.bind_some, if_neg (by simp [hne])]
        exact store_split [] (path ++ [0]) (by simp)
      · obtain ⟨d, p, rfl⟩ := List.exists_cons_of_ne_nil (show path ≠ [] by rintro rfl; simp at hlast)
        have hd : d = c := by simpa using hc
        simp [isAbsolute, hd, hne]
    | succ m =>
      refine ⟨[slash], (List.replicate m slash ++ (base ++ List.replicate n slash ++ [0])).tail, ?_, by decide, ?_, ?_⟩
      · rw [hpath]
        exact store_split [slash] _ (by simp)
      · rw [hdir, segments_slashes]
        rfl
      · rw [h.path, hdir]
        rfl
  · obtain ⟨e, tail, htail⟩ := List.exists_cons_of_ne_nil (show u ++ [c] ≠ [] by simp)
    refine ⟨u ++ [c], (List.replicate m slash ++ (base ++ List.replicate n slash ++ [0])).tail, ?_, ?_, ?_, ?_⟩
    · have hfirst : (path ++ [0])[0]? = some e := by
        rw [hpath, htail]
        rfl
      rw [hfirst, Option.bind_some, if_neg (by simp), hpath]
      exact store_split (u ++ [c]) _ (by simp)
    · intro hin
      apply h0
      rw [h.path, hdir, List.append_assoc, List.append_assoc]
      exact List.mem_append_left _ hin
    · rw [hdir, segments_slashes]
    · rw [h.path, hdir, htail]
      rfl

/-- Both functions return, the base name is the last segment, and with the parent it makes up the path. -/
def SplitsRight (path : List UInt8) : Prop :=
  ∃ parent base, getParentPath (path ++ [0]) = some parent ∧ getBaseFilename (path ++ [0]) = some base ∧
    segments slash (cString parent ++ slash :: cString base) = segments slash path ∧
    (segments slash path ≠ [] → (segments slash path).getLast? = some (cString base) ∧ slash ∉ cString base)

theorem getBaseFilename_slashes (h : ∀ c ∈ path, c = slash) : getBaseFilename (path ++ [0]) = none := by
  obtain ⟨m, rfl⟩ : ∃ m, path = List.replicate m slash := ⟨path.length, List.eq_replicate_of_mem h⟩
  have h0 : (0 : UInt8) ∉ List.replicate m slash := fun hin => absurd (List.eq_of_mem_replicate hin) (by decide)
  have hchar : ∀ i < m, (List.replicate m slash ++ [0])[i]? = some slash := by
    intro i hi
    rw [List.getElem?_append_left (by simpa using hi), List.getElem?_replicate_of_lt hi]
  cases m with
  | zero => simp [getBaseFilename, cString]
  | succ m =>
    have hscan : scanBack (· = slash) (List.replicate (m + 1) slash ++ [0]) m = some 0 :=
      scanBack_eq (Nat.zero_le m) (fun i _ hi => ⟨slash, hchar i (by omega), by simp⟩) (Or.inl rfl)
    simp only [getBaseFilename, cString_string h0, List.length_replicate, hscan, Option.bind_some, scanBack, hchar 0 (by omega),
      if_true]
    rw [trimSlashes_none]
    · rfl
    · intro i hi
      rw [List.getElem?_append_left (by simp; omega), List.getElem?_take_of_lt (by omega), List.getElem?_drop, hchar _ (by omega)]

theorem exists_baseFilename_iff (h0 : 0 ∉ path) : (∃ filename, getBaseFilename (path ++ [0]) = some filename) ↔
    segments slash path ≠ [] := by
  constructor
  · rintro ⟨filename, hname⟩ hnil
    rw [getBaseFilename_slashes (segments_eq_nil_iff.mp hnil)] at hname
    cases hname
  · intro hne
    obtain ⟨dir, base, n, h⟩ := exists_split hne
    obtain ⟨junk, hbase⟩ := h.baseFilename h0
    exact ⟨_, hbase⟩

/-- A path is split into its parent and its base name exactly when it has a segment. -/
theorem splitsRight_iff (h0 : 0 ∉ path) : SplitsRight path ↔ segments slash path ≠ [] := by
  constructor
  · rintro ⟨parent, base, -, hbase, -⟩ hnil
    rw [getBaseFilename_slashes (segments_eq_nil_iff.mp hnil)] at hbase
    cases hbase
  · intro hne
    obtain ⟨dir, base, n, h⟩ := exists_split hne
    obtain ⟨parent, junk, hparent, hparent0, hsegs, -⟩ := h.parentPath h0
    obtain ⟨junk', hbase⟩ := h.baseFilename h0
    have hbase0 : 0 ∉ base := fun hin => h0 (by rw [h.path]; simp [hin])
    refine ⟨_, _, hparent, hbase, ?_, fun _ => ?_⟩
    · rw [cString_append hparent0, cString_append hbase0, segments_append_sep, hsegs, segments_of_not_mem h.base.2 h.base.1,
        h.segments_eq]
    · rw [cString_append hbase0, h.segments_eq]
      exact ⟨by simp, h.base.2⟩

/-- The path `a//b/` -/
theorem splitsRight_two_names : SplitsRight [97, 47, 47, 98, 47] :=
  (splitsRight_iff (by decide)).mpr (by decide)

/-- The path `/` -/
theorem not_splitsRight_root : 0 ∉ ([47] : List UInt8) ∧ ¬SplitsRight [47] := by
  refine ⟨by decide, ?_⟩
  rintro ⟨parent, base, -, hbase, -⟩
  have hnone : getBaseFilename ([47] ++ [0]) = none := by decide
  rw [hnone] at hbase
  cases hbase

end Split

end SomeOs.Vfs
