import SomeOs.Heap.Types

/-! # Free lists

What putting memory into a free list, taking memory out of it and giving pages back
do to the addresses that the list covers.
-/
namespace SomeOs.Heap
open Blocks

/-- The memory is in the list, as a part of one of its blocks. -/
structure Inserted (l : List Block) (m : Block) (r : List Block × Block × List Block) : Prop where
  ordered : Ordered (r.1 ++ r.2.1 :: r.2.2)
  inside : r.2.1.start ≤ m.start ∧ m.stop ≤ r.2.1.stop
  covers : ∀ x, Covers (r.1 ++ r.2.1 :: r.2.2) x ↔ Covers l x ∨ m.Has x
  large : ∀ k, Large k l → k ≤ m.size → Large k (r.1 ++ r.2.1 :: r.2.2)
  aligned : ∀ d, Aligned d l → d ∣ m.start → d ∣ m.size → Aligned d (r.1 ++ r.2.1 :: r.2.2)
  old : ∀ d ∈ r.1 ++ r.2.2, d ∈ l
  merged : ∀ d ∈ l, d ∈ r.1 ++ r.2.2 ∨ r.2.1.start ≤ d.start ∧ d.stop ≤ r.2.1.stop

section Insert
variable {l : List Block} {c m : Block}

/-- Memory that starts where a block ends becomes a part of the block. -/
theorem Inserted.merge {r : List Block × Block × List Block}
    (h : Inserted l ⟨c.start, c.size + m.size⟩ r) (heq : c.start + c.size = m.start) : Inserted (c :: l) m r where
  ordered := h.ordered
  inside := by
    have hin := h.inside
    simp only [Block.stop] at hin ⊢
    omega
  covers := by
    intro x
    rw [h.covers, covers_cons]
    have hx : (⟨c.start, c.size + m.size⟩ : Block).Has x ↔ c.Has x ∨ m.Has x := by
      simp only [Block.Has, Block.stop]
      omega
    rw [hx]
    tauto
  large := by
    intro k hk hm
    obtain ⟨hc, hl⟩ := large_cons.mp hk
    exact h.large k hl (by simp only; omega)
  aligned := by
    intro d hd hs hm
    obtain ⟨hc, hl⟩ := aligned_cons.mp hd
    exact h.aligned d hl hc.1 ((Nat.dvd_add_right hc.2).mpr hm)
  old := fun d hd => List.mem_cons_of_mem _ (h.old d hd)
  merged := by
    intro d hd
    rcases List.mem_cons.mp hd with rfl | hd
    · right
      have hin := h.inside
      simp only [Block.stop] at hin ⊢
      omega
    · exact h.merged d hd

theorem Inserted.skip {pre rest : List Block} {n : Block} (h : Inserted l m (pre, n, rest)) (hl : Large 1 l)
    (hm : 0 < m.size) (hc : ∀ d ∈ l, c.stop ≤ d.start) (hcm : c.stop ≤ m.start) :
    Inserted (c :: l) m (c :: pre, n, rest) where
  ordered := by
    have hlarge := h.large 1 hl hm
    refine ordered_cons.mpr ⟨fun b hb => ?_, h.ordered⟩
    rcases (h.covers _).mp (hlarge.start_covers hb) with ⟨d, hd, hx⟩ | hx
    · exact (hc d hd).trans hx.1
    · exact hcm.trans hx.1
  inside := h.inside
  covers := by
    intro x
    have hx := h.covers x
    simp only [List.cons_append, covers_cons] at hx ⊢
    rw [hx, or_assoc]
  large := by
    intro k hk hm
    obtain ⟨hck, hl⟩ := large_cons.mp hk
    exact large_cons.mpr ⟨hck, h.large k hl hm⟩
  aligned := by
    intro d hd hs hm
    obtain ⟨hcd, hl⟩ := aligned_cons.mp hd
    exact aligned_cons.mpr ⟨hcd, h.aligned d hl hs hm⟩
  old := by
    intro d hd
    rcases List.mem_cons.mp hd with rfl | hd
    · exact List.mem_cons_self
    · exact List.mem_cons_of_mem _ (h.old d hd)
  merged := by
    intro d hd
    rcases List.mem_cons.mp hd with rfl | hd
    · exact Or.inl List.mem_cons_self
    · exact (h.merged d hd).imp_left (List.mem_cons_of_mem _)

theorem insertFreeMemory_spec (ho : Ordered l) (hl : Large 1 l) (hm : 0 < m.size) (hclear : Clear l m) :
    Inserted l m (insertFreeMemory l m) := by
  induction l generalizing m with
  | nil => exact ⟨by simp [insertFreeMemory], by simp [insertFreeMemory], by simp [insertFreeMemory],
      by simp [insertFreeMemory], fun d _ hs hd => by simpa [insertFreeMemory] using ⟨hs, hd⟩,
      by simp [insertFreeMemory], by simp⟩
  | cons c l ih =>
    obtain ⟨hbehind, ho'⟩ := ordered_cons.mp ho
    obtain ⟨hc, hl'⟩ := large_cons.mp hl
    have hclear' : Clear l m := fun x hx hcov => hclear x hx (covers_cons.mpr (Or.inr hcov))
    have hapart := (hclear.apart List.mem_cons_self).before_or_after hm hc
    simp only [insertFreeMemory]
    split_ifs with hlt heq hend
    · -- the memory continues the block
      refine Inserted.merge (ih ho' hl' (by simp only; omega) (fun x hx hcov => ?_)) heq
      obtain ⟨d, hd, hdx⟩ := hcov
      have h1 := hbehind d hd
      by_cases hmx : m.Has x
      · exact hclear' x hmx ⟨d, hd, hdx⟩
      · simp only [Block.Has, Block.stop] at *
        omega
    · have hcm : c.stop ≤ m.start := by
        simp only [Block.stop] at hapart ⊢
        omega
      exact (ih ho' hl' hm hclear').skip hl' hm hbehind hcm
    · refine ⟨?_, ?_, fun x => ?_, fun k hk hmk => ?_, fun d hd hs hmd => ?_,
        fun d hd => List.mem_cons_of_mem _ hd, fun d hd => ?_⟩
      · refine ordered_cons.mpr ⟨fun d hd => ?_, ho'⟩
        have h1 := hbehind d hd
        simp only [Block.stop] at *
        omega
      · simp only [Block.stop]
        omega
      · have hx : (⟨m.start, m.size + c.size⟩ : Block).Has x ↔ m.Has x ∨ c.Has x := by
          simp only [Block.Has, Block.stop]
          omega
        simp only [List.nil_append, covers_cons, hx]
        tauto
      · obtain ⟨hck, hlk⟩ := large_cons.mp hk
        exact large_cons.mpr ⟨by simp only; omega, hlk⟩
      · obtain ⟨hcd, hld⟩ := aligned_cons.mp hd
        exact aligned_cons.mpr ⟨⟨hs, (Nat.dvd_add_right hmd).mpr hcd.2⟩, hld⟩
      · rcases List.mem_cons.mp hd with rfl | hd
        · right
          simp only [Block.stop]
          omega
        · exact Or.inl hd
    · refine ⟨?_, ⟨le_refl _, le_refl _⟩, fun x => ?_, fun k hk hmk => ?_, fun d hd hs hmd => ?_,
        fun d hd => hd, fun d hd => Or.inl hd⟩
      · refine ordered_cons.mpr ⟨fun d hd => ?_, ho⟩
        have hmc : m.stop ≤ c.start := by
          simp only [Block.stop] at hapart ⊢
          omega
        rcases List.mem_cons.mp hd with rfl | hd
        · exact hmc
        · have h1 := hbehind d hd
          simp only [Block.stop] at *
          omega
      · simp only [List.nil_append, covers_cons]
        tauto
      · exact large_cons.mpr ⟨hmk, hk⟩
      · exact aligned_cons.mpr ⟨⟨hs, hmd⟩, hd⟩

theorem findFreeMemoryThatFits_spec {size : ℕ} {pre rest : List Block} {f : Block}
    (h : findFreeMemoryThatFits l size = some (pre, f, rest)) : l = pre ++ f :: rest ∧ size ≤ f.size := by
  induction l generalizing pre with
  | nil => cases h
  | cons c l ih =>
    simp only [findFreeMemoryThatFits] at h
    split_ifs at h with hfit
    · cases h
      exact ⟨rfl, hfit⟩
    · obtain ⟨⟨pre', f', rest'⟩, hfind, heq⟩ := Option.map_eq_some_iff.mp h
      cases heq
      obtain ⟨rfl, hsize⟩ := ih hfind
      exact ⟨rfl, hsize⟩

end Insert

section Take
variable {alloc : Allocator} {size : ℕ} {pre rest : List Block} {f : Block} {x : ℕ}

def remainder (block_size size : ℕ) (free : Block) : List Block :=
  if roundUp (size + minimumFree) block_size ≤ free.size then [⟨free.start + size, free.size - size⟩] else []

theorem takeMemory_eq (h : size ≤ f.size) : takeMemory alloc size (pre, f, rest) =
    (some f.start, { alloc with first_free := pre ++ remainder alloc.block_size size f ++ rest }) := by
  unfold takeMemory remainder
  by_cases hroom : roundUp (size + minimumFree) alloc.block_size ≤ f.size
  · simp only [hroom, if_true, List.append_assoc, List.singleton_append]
  · simp only [hroom, if_false, h, if_true, List.append_nil]

theorem le_roundUp {n b : ℕ} (hb : 0 < b) : n ≤ roundUp n b := by
  have := Nat.mod_lt (n + b - 1) hb
  simp only [roundUp]
  omega

theorem dvd_roundUp (n b : ℕ) : b ∣ roundUp n b := Nat.dvd_sub_mod _

theorem roundUp_le {n b k : ℕ} (hb : 0 < b) (hn : n ≤ k) (hk : b ∣ k) : roundUp n b ≤ k := by
  obtain ⟨j, rfl⟩ := hk
  obtain ⟨i, hi⟩ := dvd_roundUp n b
  have hlt : roundUp n b < n + b := by
    simp only [roundUp]
    omega
  rw [hi] at hlt ⊢
  have hij : b * i < b * (j + 1) := by
    rw [Nat.mul_add, Nat.mul_one]
    omega
  exact Nat.mul_le_mul_left b (Nat.lt_succ_iff.mp (Nat.lt_of_mul_lt_mul_left hij))

theorem remainder_covers (hb : 0 < alloc.block_size) (h : Covers (remainder alloc.block_size size f) x) :
    f.Has x ∧ ¬(⟨f.start, size⟩ : Block).Has x := by
  have hle := le_roundUp (n := size + minimumFree) hb
  unfold remainder at h
  split_ifs at h
  · simp only [covers_cons, covers_nil, or_false] at h
    simp only [Block.Has, Block.stop] at *
    omega
  · exact absurd h covers_nil

variable (size f) in
theorem remainder_inside (hb : 0 < alloc.block_size) :
    ∀ p ∈ remainder alloc.block_size size f, f.start ≤ p.start ∧ p.stop ≤ f.stop := by
  have hle := le_roundUp (n := size + minimumFree) hb
  intro p hp
  unfold remainder at hp
  split_ifs at hp
  · obtain rfl := List.mem_singleton.mp hp
    simp only [Block.stop]
    omega
  · cases hp

variable (size f) in
theorem remainder_large (hb : 0 < alloc.block_size) : Large minimumFree (remainder alloc.block_size size f) := by
  have hle := le_roundUp (n := size + minimumFree) hb
  intro p hp
  unfold remainder at hp
  split_ifs at hp
  · obtain rfl := List.mem_singleton.mp hp
    simp only
    omega
  · cases hp

theorem remainder_ordered (block_size : ℕ) : Ordered (remainder block_size size f) := by
  unfold remainder
  split_ifs
  · exact ordered_cons.mpr ⟨by simp, ordered_nil⟩
  · exact ordered_nil

theorem remainder_whole (hsize : size ≤ f.size)
    (hfit : f.size = size ∨ roundUp (size + minimumFree) alloc.block_size ≤ f.size) (hx : f.Has x) :
    Covers (remainder alloc.block_size size f) x ∨ (⟨f.start, size⟩ : Block).Has x := by
  unfold remainder
  split_ifs with hroom
  · simp only [covers_cons, covers_nil, or_false, Block.Has, Block.stop] at *
    omega
  · right
    have heq := hfit.resolve_right hroom
    simp only [Block.Has, Block.stop] at *
    omega

end Take

/-- What a block of free memory is divided into when pages are given back. -/
structure Freed (alloc : Allocator) (m : Block) (kept : List Block) (pages : Block) : Prop where
  ordered : Ordered kept
  inside : ∀ p ∈ kept, m.start ≤ p.start ∧ p.stop ≤ m.stop
  large : Large minimumFree kept
  pages_inside : ∀ x, pages.Has x → m.Has x
  apart : ∀ x, Covers kept x → ¬pages.Has x
  special : ∀ x, pages.Has x → ¬alloc.Special x
  aligned : pageSize ∣ pages.start ∧ pageSize ∣ pages.size
  whole : pageSize ∣ m.stop → ∀ x, m.Has x → Covers kept x ∨ pages.Has x

structure Cuts (m : Block) (mem_end page_start page_end : ℕ) : Prop where
  stop : mem_end ≤ m.stop ∧ (pageSize ∣ m.stop → mem_end = m.stop)
  first : m.start = page_start ∨ m.start + minimumFree ≤ page_start
  last : mem_end = page_end ∨ page_end + minimumFree ≤ mem_end
  aligned : pageSize ∣ page_start ∧ pageSize ∣ page_end

theorem Cuts.freed {alloc : Allocator} {m : Block} {mem_end page_start page_end : ℕ}
    (h : Cuts m mem_end page_start page_end) (hle : page_start ≤ page_end)
    (hspecial : mem_end ≤ alloc.special_range_start ∨ alloc.special_range_end ≤ m.start) :
    Freed alloc m (if page_start = m.start ∧ page_end = mem_end then []
      else if mem_end = page_end then [⟨m.start, page_start - m.start⟩]
      else if m.start = page_start then [⟨page_end, mem_end - page_end⟩]
      else [⟨m.start, page_start - m.start⟩, ⟨page_end, mem_end - page_end⟩])
      ⟨page_start, page_end - page_start⟩ := by
  obtain ⟨⟨hend, hwhole⟩, hstart, hpe, hdvd, hdvd'⟩ := h
  refine ⟨?_, ?_, ?_, ?_, ?_, ?_, ⟨hdvd, Nat.dvd_sub hdvd' hdvd⟩, ?_⟩
  · split_ifs <;> simp [Block.stop]
    omega
  · intro p hp
    simp only [Block.stop] at *
    split_ifs at hp <;> simp only [List.mem_cons, List.not_mem_nil, or_false] at hp
    · subst hp
      simp only
      omega
    · subst hp
      simp only
      omega
    · rcases hp with rfl | rfl <;> simp only <;> omega
  · intro p hp
    split_ifs at hp <;> simp only [List.mem_cons, List.not_mem_nil, or_false] at hp
    · subst hp
      simp only
      omega
    · subst hp
      simp only
      omega
    · rcases hp with rfl | rfl <;> simp only <;> omega
  · intro x hx
    simp only [Block.Has, Block.stop] at *
    omega
  · intro x hx hpx
    split_ifs at hx <;>
      simp only [covers_cons, covers_nil, or_false, Block.Has, Block.stop] at hx hpx <;> omega
  · intro x hx hs
    simp only [Block.Has, Block.stop, Allocator.Special] at *
    omega
  · intro hd x hx
    have heq := hwhole hd
    simp only [Block.Has, Block.stop] at *
    split_ifs <;> simp only [covers_cons, covers_nil, or_false, Block.Has, Block.stop] <;> omega

theorem pageStart_spec (n : ℕ) {page_start : ℕ}
    (h : (if roundDown n pageSize ≠ n then roundUp (n + minimumFree) pageSize else roundDown n pageSize) =
      page_start) : pageSize ∣ page_start ∧ (n = page_start ∨ n + minimumFree ≤ page_start) := by
  by_cases heq : roundDown n pageSize = n
  · rw [if_neg (not_not.mpr heq)] at h
    exact ⟨h ▸ Nat.dvd_sub_mod n, Or.inl (heq.symm.trans h)⟩
  · rw [if_pos heq] at h
    exact ⟨h ▸ dvd_roundUp _ _, Or.inr (h ▸ le_roundUp (by decide))⟩

theorem pageEnd_spec {stop mem_end page_end : ℕ} (hend : roundDown stop pageSize = mem_end)
    (h : (if stop ≠ mem_end then roundDown (mem_end - minimumFree) pageSize else stop) = page_end) :
    pageSize ∣ page_end ∧ (mem_end = page_end ∨ page_end + minimumFree ≤ mem_end) := by
  have hdvd : pageSize ∣ mem_end := hend ▸ Nat.dvd_sub_mod stop
  by_cases heq : stop = mem_end
  · rw [if_neg (not_not.mpr heq)] at h
    rw [← h, heq]
    exact ⟨hdvd, Or.inl rfl⟩
  · rw [if_pos heq] at h
    refine ⟨h ▸ Nat.dvd_sub_mod _, ?_⟩
    simp only [roundDown, pageSize, minimumFree] at h hdvd ⊢
    omega

theorem tryFreeingOldMemory_spec {alloc : Allocator} {m : Block} {kept : List Block} {pages : Block}
    (h : tryFreeingOldMemory alloc pageSize m = some (kept, pages)) : Freed alloc m kept pages := by
  simp only [tryFreeingOldMemory] at h
  generalize hme : roundDown (m.start + m.size) pageSize = mem_end at h
  generalize hps : (if roundDown m.start pageSize ≠ m.start then roundUp (m.start + minimumFree) pageSize
    else roundDown m.start pageSize) = page_start at h
  generalize hpe : (if m.start + m.size ≠ mem_end then roundDown (mem_end - minimumFree) pageSize
    else m.start + m.size) = page_end at h
  by_cases hcond : (mem_end ≤ alloc.special_range_start ∨ alloc.special_range_end ≤ m.start) ∧
      (m.start = page_start ∧ mem_end = page_end ∨ page_start + alloc.min_backing_free ≤ page_end)
  · rw [if_pos hcond] at h
    obtain ⟨rfl, rfl⟩ := Prod.mk.inj (Option.some.inj h)
    have hcuts : Cuts m mem_end page_start page_end := by
      obtain ⟨hstart, hfirst⟩ := pageStart_spec m.start hps
      obtain ⟨hlast, hend⟩ := pageEnd_spec hme hpe
      refine ⟨?_, hfirst, hend, hstart, hlast⟩
      rw [← hme]
      simp only [roundDown, pageSize, Block.stop]
      omega
    refine hcuts.freed ?_ hcond.1
    rcases hcond.2 with ⟨h1, h2⟩ | hle
    · rw [← h1, ← h2, ← hme]
      have hal := hcuts.aligned.1
      simp only [roundDown, pageSize] at hal ⊢
      omega
    · omega
  · rw [if_neg hcond] at h
    cases h

end SomeOs.Heap
