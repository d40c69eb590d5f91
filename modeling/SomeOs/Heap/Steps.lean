import SomeOs.Heap.Lists

/-! # The calls of the allocators

What an allocation and a release do to the free lists of an allocator and of the page
allocator behind it.
-/
namespace SomeOs.Heap
open Blocks

structure PageList (b : Allocator) : Prop where
  block_size : b.block_size = pageSize
  ordered : Ordered b.first_free
  aligned : Aligned pageSize b.first_free
  large : Large 1 b.first_free

structure FreeList (a : Allocator) : Prop where
  block_size : 0 < a.block_size
  ordered : Ordered a.first_free
  large : Large minimumFree a.first_free

def SameBut (a a' : Allocator) : Prop := a' = { a with first_free := a'.first_free }

section Pages
variable {b : Allocator} {ptr size x : ℕ}

theorem PageList.remainder {pre rest : List Block} {f : Block} (h : PageList b) (hb : b.first_free = pre ++ f :: rest)
    (hd : pageSize ∣ size) (hsize : size ≤ f.size) :
    PageList { b with first_free := pre ++ remainder b.block_size size f ++ rest } ∧
      ∀ x, Covers (pre ++ Heap.remainder b.block_size size f ++ rest) x ↔
        Covers b.first_free x ∧ ¬(⟨f.start, size⟩ : Block).Has x := by
  have hbs : 0 < b.block_size := by
    rw [h.block_size]
    decide
  have ho := h.ordered
  have hal := h.aligned
  have hlarge := h.large
  rw [hb] at ho hal hlarge
  obtain ⟨halp, half⟩ := aligned_append.mp hal
  obtain ⟨hf, halr⟩ := aligned_cons.mp half
  have hin := remainder_inside size f hbs
  have hcov : ∀ x, Covers (Heap.remainder b.block_size size f) x → f.Has x := fun x hx =>
    (remainder_covers hbs hx).1
  -- a rest of whole pages has room for a header
  have hfit : f.size = size ∨ roundUp (size + minimumFree) b.block_size ≤ f.size := by
    by_cases heq : f.size = size
    · exact Or.inl heq
    · right
      rw [h.block_size]
      apply roundUp_le (by decide) _ hf.2
      simp only [pageSize, minimumFree] at *
      omega
  refine ⟨⟨h.block_size, ho.replace (remainder_ordered _) hin, ?_, ?_⟩, fun x => ?_⟩
  · refine aligned_append.mpr ⟨aligned_append.mpr ⟨halp, fun p hp => ?_⟩, halr⟩
    unfold Heap.remainder at hp
    split_ifs at hp
    · obtain rfl := List.mem_singleton.mp hp
      exact ⟨(Nat.dvd_add_right hf.1).mpr hd, Nat.dvd_sub hf.2 hd⟩
    · cases hp
  · have hmin := remainder_large size f hbs
    obtain ⟨hlp, hlf⟩ := large_append.mp hlarge
    exact large_append.mpr ⟨large_append.mpr ⟨hlp, hmin.mono (by decide)⟩, (large_cons.mp hlf).2⟩
  · rw [ho.covers_replace hcov, ← hb]
    constructor
    · rintro ⟨hx, hrem⟩
      refine ⟨hx, fun hblock => ?_⟩
      have hfx : f.Has x := by
        simp only [Block.Has, Block.stop] at *
        omega
      exact (remainder_covers hbs (hrem hfx)).2 hblock
    · rintro ⟨hx, hblock⟩
      exact ⟨hx, fun hfx => (remainder_whole hsize hfit hfx).resolve_right hblock⟩

theorem allocPages_spec (h : PageList b) (hd : pageSize ∣ size) :
    basicAllocMemory [b] size = (none, [b]) ∨
    ∃ ptr b', basicAllocMemory [b] size = (some ptr, [b']) ∧ PageList b' ∧
      (∀ x, (⟨ptr, size⟩ : Block).Has x → Covers b.first_free x) ∧
      ∀ x, Covers b'.first_free x ↔ Covers b.first_free x ∧ ¬(⟨ptr, size⟩ : Block).Has x := by
  unfold basicAllocMemory
  cases hfind : findFreeMemoryThatFits b.first_free size with
  | none => exact Or.inl rfl
  | some r =>
    obtain ⟨pre, f, rest⟩ := r
    obtain ⟨hb, hsize⟩ := findFreeMemoryThatFits_spec hfind
    obtain ⟨hpages, hcov⟩ := h.remainder hb hd hsize
    right
    refine ⟨f.start, _, ?_, hpages, fun x hx => ?_, hcov⟩
    · simp only [takeMemory_eq hsize]
    · rw [hb, covers_append, covers_cons]
      right
      left
      simp only [Block.Has, Block.stop] at *
      omega

theorem deallocPages_spec (h : PageList b) (hptr : pageSize ∣ ptr) (hd : pageSize ∣ size)
    (hclear : Clear b.first_free ⟨ptr, size⟩) :
    ∃ b', deallocMemory [b] ptr size = [b'] ∧ PageList b' ∧
      ∀ x, Covers b'.first_free x ↔ Covers b.first_free x ∨ (⟨ptr, size⟩ : Block).Has x := by
  by_cases h0 : size = 0
  · refine ⟨b, by simp [deallocMemory, h0], h, fun x => ?_⟩
    have hno : ¬(⟨ptr, size⟩ : Block).Has x := by
      simp only [Block.Has, Block.stop]
      omega
    simp only [hno, or_false]
  · have hspec := insertFreeMemory_spec h.ordered h.large (Nat.pos_of_ne_zero h0) hclear
    generalize hr : insertFreeMemory b.first_free ⟨ptr, size⟩ = r at hspec
    obtain ⟨pre, m, rest⟩ := r
    refine ⟨{ b with first_free := pre ++ m :: rest }, ?_, ⟨h.block_size, hspec.ordered, ?_, ?_⟩, hspec.covers⟩
    · simp only [deallocMemory, if_neg h0, hr, List.head?_nil, Option.bind_none]
    · exact hspec.aligned _ h.aligned hptr hd
    · exact hspec.large 1 h.large (Nat.pos_of_ne_zero h0)

end Pages

def takenFrom (a b : Allocator) (size : ℕ) : Option Block :=
  match findFreeMemoryThatFits a.first_free size with
  | some (_, f, _) => some f
  | none =>
    (basicAllocMemory [b] (roundUp size b.block_size)).1.map fun new_free =>
      (insertFreeMemory a.first_free ⟨new_free, roundUp size b.block_size⟩).2.1

def NoRest (block_size size : ℕ) (f : Block) : Prop :=
  f.size = size ∨ roundUp (size + minimumFree) block_size ≤ f.size

/-- A block was taken, after new pages were added to the free list if they were needed. -/
structure Taken (a b a' b' : Allocator) (ptr size : ℕ) (new : ℕ → Prop) : Prop where
  same : SameBut a a'
  list : FreeList a'
  pages : PageList b'
  new_free : ∀ x, new x → Covers b.first_free x
  backing : ∀ x, Covers b'.first_free x ↔ Covers b.first_free x ∧ ¬new x
  pool : ∀ x, (⟨ptr, size⟩ : Block).Has x ∨ Covers a'.first_free x → Covers a.first_free x ∨ new x
  apart : ∀ x, (⟨ptr, size⟩ : Block).Has x → ¬Covers a'.first_free x
  whole : (∀ f, takenFrom a b size = some f → NoRest a.block_size size f) →
    ∀ x, Covers a.first_free x ∨ new x → (⟨ptr, size⟩ : Block).Has x ∨ Covers a'.first_free x

/-- The free list, with new pages if they are needed, has a block to take the memory from. -/
structure Pool (a b b' : Allocator) (size : ℕ) (pre : List Block) (f : Block) (rest : List Block)
    (new : ℕ → Prop) : Prop where
  ordered : Ordered (pre ++ f :: rest)
  large : Large minimumFree (pre ++ f :: rest)
  fits : size ≤ f.size
  taken : takenFrom a b size = some f
  covers : ∀ x, Covers (pre ++ f :: rest) x ↔ Covers a.first_free x ∨ new x
  old : ∀ d ∈ pre ++ rest, d ∈ a.first_free
  merged : ∀ d ∈ a.first_free, d ∈ pre ++ rest ∨ f.start ≤ d.start ∧ d.stop ≤ f.stop
  pages : PageList b'
  new_free : ∀ x, new x → Covers b.first_free x
  backing : ∀ x, Covers b'.first_free x ↔ Covers b.first_free x ∧ ¬new x

/-- Parts of a block of free memory stay, and pages of it were given back. -/
structure Parted (a b b' : Allocator) (m : Block) (kept : List Block) (given : ℕ → Prop) : Prop where
  ordered : Ordered kept
  inside : ∀ p ∈ kept, m.start ≤ p.start ∧ p.stop ≤ m.stop
  large : Large minimumFree kept
  pages : PageList b'
  given_inside : ∀ x, given x → m.Has x
  special : ∀ x, given x → ¬a.Special x
  apart : ∀ x, Covers kept x → ¬given x
  backing : ∀ x, Covers b'.first_free x ↔ Covers b.first_free x ∨ given x

/-- A block of free memory was divided into parts that stay and pages that were given back. -/
structure Divided (a b b' : Allocator) (m : Block) (kept : List Block) (given : ℕ → Prop) : Prop extends
    Parted a b b' m kept given where
  whole : (∀ r, tryFreeingOldMemory a pageSize m = some r → pageSize ∣ m.stop) →
    ∀ x, m.Has x → Covers kept x ∨ given x

/-- Pages were given back, if there are enough of them. -/
structure Given (a b a' b' : Allocator) (block : Block) (given : ℕ → Prop) : Prop where
  same : SameBut a a'
  list : FreeList a'
  pages : PageList b'
  special : ∀ x, given x → ¬a.Special x
  backing : ∀ x, Covers b'.first_free x ↔ Covers b.first_free x ∨ given x
  pool : ∀ x, Covers a'.first_free x ∨ given x → Covers a.first_free x ∨ block.Has x
  apart : ∀ x, given x → ¬Covers a'.first_free x
  whole : (∀ r, tryFreeingOldMemory a pageSize (insertFreeMemory a.first_free block).2.1 = some r →
      pageSize ∣ (insertFreeMemory a.first_free block).2.1.stop) →
    ∀ x, Covers a.first_free x ∨ block.Has x → Covers a'.first_free x ∨ given x

section Calls
variable {a b : Allocator} {block : Block} {size : ℕ}

/-- Memory is taken out of a list that has a block for it. -/
theorem Pool.taken_of {b' : Allocator} {pre rest : List Block} {f : Block} {new : ℕ → Prop}
    (hp : Pool a b b' size pre f rest new) (ha : FreeList a) :
    Taken a b { a with first_free := pre ++ remainder a.block_size size f ++ rest } b' f.start size new := by
  have hbs := ha.block_size
  have ho := hp.ordered
  have hin := remainder_inside size f hbs
  have hcov : ∀ x, Covers (remainder a.block_size size f) x → f.Has x := fun x hx =>
    (remainder_covers hbs hx).1
  have hblock : ∀ x, (⟨f.start, size⟩ : Block).Has x → f.Has x := by
    intro x hx
    have hfits := hp.fits
    simp only [Block.Has, Block.stop] at *
    omega
  refine ⟨rfl, ⟨hbs, ho.replace (remainder_ordered _) hin, ?_⟩, hp.pages, hp.new_free, hp.backing, ?_, ?_, ?_⟩
  · obtain ⟨hlp, hlf⟩ := large_append.mp hp.large
    exact large_append.mpr ⟨large_append.mpr ⟨hlp, remainder_large _ _ hbs⟩, (large_cons.mp hlf).2⟩
  · rintro x (hx | hx)
    · refine (hp.covers x).mp ?_
      rw [covers_append, covers_cons]
      exact Or.inr (Or.inl (hblock x hx))
    · exact (hp.covers x).mp ((ho.covers_replace hcov).mp hx).1
  · intro x hx hx'
    have hrem := ((ho.covers_replace hcov).mp hx').2 (hblock x hx)
    exact (remainder_covers hbs hrem).2 hx
  · intro hfit x hx
    have hx' := (hp.covers x).mpr hx
    by_cases hfx : f.Has x
    · rcases remainder_whole hp.fits (hfit f hp.taken) hfx with hrem | hblk
      · exact Or.inr ((ho.covers_replace hcov).mpr ⟨hx', fun _ => hrem⟩)
      · exact Or.inl hblk
    · exact Or.inr ((ho.covers_replace hcov).mpr ⟨hx', fun h => absurd h hfx⟩)

/-- An allocation takes memory from a block of the free list, where new pages may have been
added, or changes nothing. -/
theorem basicAllocMemory_spec (ha : FreeList a) (hb : PageList b) (hpos : 0 < size)
    (hapart : ∀ x, Covers b.first_free x → ¬Covers a.first_free x) :
    (basicAllocMemory [a, b] size = (none, [a, b]) ∧ takenFrom a b size = none) ∨
    ∃ pre f rest b' new, basicAllocMemory [a, b] size =
        (some f.start, [{ a with first_free := pre ++ remainder a.block_size size f ++ rest }, b']) ∧
      Pool a b b' size pre f rest new := by
  unfold basicAllocMemory
  cases hfind : findFreeMemoryThatFits a.first_free size with
  | some r =>
    obtain ⟨pre, f, rest⟩ := r
    obtain ⟨heq, hsize⟩ := findFreeMemoryThatFits_spec hfind
    have ho := ha.ordered
    have hl := ha.large
    rw [heq] at ho hl
    have htaken : takenFrom a b size = some f := by
      unfold takenFrom
      rw [hfind]
    right
    refine ⟨pre, f, rest, b, fun _ => False, by simp only [takeMemory_eq hsize], ho, hl, hsize, htaken,
      by simp [heq], fun d hd => ?_, fun d hd => ?_, hb, fun x h => h.elim, by simp⟩
    · rw [heq]
      simp only [List.mem_append, List.mem_cons] at hd ⊢
      tauto
    · rw [heq] at hd
      simp only [List.mem_append, List.mem_cons] at hd ⊢
      rcases hd with hd | rfl | hd
      · exact Or.inl (Or.inl hd)
      · exact Or.inr ⟨le_refl _, le_refl _⟩
      · exact Or.inl (Or.inr hd)
  | none =>
    have hbs : 0 < b.block_size := by
      rw [hb.block_size]
      decide
    have hle := le_roundUp (n := size) hbs
    have hround : 0 < roundUp size b.block_size := by omega
    have hdvd : pageSize ∣ roundUp size b.block_size := hb.block_size ▸ dvd_roundUp size b.block_size
    simp only [List.head?_cons, if_neg (Nat.ne_of_gt hround)]
    rcases allocPages_spec hb hdvd with hnone | ⟨p, b', hsome, hb', hnew, hback⟩
    · left
      refine ⟨by simp only [hnone], ?_⟩
      unfold takenFrom
      rw [hfind, hnone]
      rfl
    · right
      have hclear : Clear a.first_free ⟨p, roundUp size b.block_size⟩ := fun x hx => hapart x (hnew x hx)
      have hspec := insertFreeMemory_spec ha.ordered (ha.large.mono (by decide)) hround hclear
      have htaken : takenFrom a b size =
          some (insertFreeMemory a.first_free ⟨p, roundUp size b.block_size⟩).2.1 := by
        unfold takenFrom
        rw [hfind, hsome]
        rfl
      generalize hins : insertFreeMemory a.first_free ⟨p, roundUp size b.block_size⟩ = r at hspec htaken
      obtain ⟨pre, f, rest⟩ := r
      have hsize : size ≤ f.size := by
        have hin := hspec.inside
        simp only [Block.stop] at hin
        omega
      have hlarge : minimumFree ≤ roundUp size b.block_size := by
        obtain ⟨k, hk⟩ := hdvd
        simp only [pageSize, minimumFree] at *
        omega
      refine ⟨pre, f, rest, b', (⟨p, roundUp size b.block_size⟩ : Block).Has, ?_, hspec.ordered,
        hspec.large _ ha.large hlarge, hsize, htaken, hspec.covers, hspec.old, hspec.merged, hb', hnew, hback⟩
      simp only [hsome, hins, takeMemory_eq hsize]

variable (size) in
theorem allocMemory_spec (ha : FreeList a) (hb : PageList b)
    (hapart : ∀ x, Covers b.first_free x → ¬Covers a.first_free x) :
    allocMemory [a, b] size = (none, [a, b]) ∨
    ∃ ptr a' b' new, allocMemory [a, b] size = (some ptr, [a', b']) ∧ 0 < size ∧ Taken a b a' b' ptr size new := by
  unfold allocMemory
  by_cases h0 : size = 0
  · exact Or.inl (if_pos h0)
  rw [if_neg h0]
  rcases basicAllocMemory_spec ha hb (Nat.pos_of_ne_zero h0) hapart with ⟨hnone, -⟩ |
    ⟨pre, f, rest, b', new, hsome, hp⟩
  · exact Or.inl hnone
  · exact Or.inr ⟨_, _, _, new, hsome, Nat.pos_of_ne_zero h0, hp.taken_of ha⟩

theorem giveBack_spec {m : Block} (hb : PageList b) (hsize : minimumFree ≤ m.size)
    (hapart : ∀ x, Covers b.first_free x → ¬m.Has x) :
    ∃ kept b' given, giveBack a [b] m = (kept, [b']) ∧ Divided a b b' m kept given := by
  unfold giveBack
  simp only [List.head?_cons, Option.bind_some, hb.block_size]
  cases htry : tryFreeingOldMemory a pageSize m with
  | none =>
    exact ⟨[m], b, fun _ => False, rfl, ⟨by simp, by simp, by simpa using hsize, hb, fun x h => h.elim,
      fun x h => h.elim, fun x _ h => h, by simp⟩, fun _ x hx => Or.inl (by simpa using hx)⟩
  | some kp =>
    obtain ⟨kept, pages⟩ := kp
    have hfreed := tryFreeingOldMemory_spec htry
    have hclear : Clear b.first_free pages := fun x hx hbx => hapart x hbx (hfreed.pages_inside x hx)
    obtain ⟨b', hb', hpb', hcov'⟩ := deallocPages_spec hb hfreed.aligned.1 hfreed.aligned.2 hclear
    exact ⟨kept, b', pages.Has, by simp only [hb'], ⟨hfreed.ordered, hfreed.inside, hfreed.large, hpb',
      hfreed.pages_inside, hfreed.special, hfreed.apart, hcov'⟩, fun hend => hfreed.whole (hend _ htry)⟩

theorem Parted.kept_inside {b' : Allocator} {m : Block} {kept : List Block} {given : ℕ → Prop}
    (h : Parted a b b' m kept given) {x : ℕ} (hx : Covers kept x) : m.Has x := by
  obtain ⟨p, hp, hpx⟩ := hx
  have hin := h.inside p hp
  simp only [Block.Has] at *
  omega

theorem deallocMemory_cons {backing : List Allocator} {ptr : ℕ} {pre rest : List Block} {m : Block} (h0 : size ≠ 0)
    (hr : insertFreeMemory a.first_free ⟨ptr, size⟩ = (pre, m, rest)) :
    deallocMemory (a :: backing) ptr size =
      { a with first_free := pre ++ (giveBack a backing m).1 ++ rest } :: (giveBack a backing m).2 := by
  unfold giveBack
  rw [deallocMemory, if_neg h0, hr]
  cases htry : backing.head?.bind fun next => tryFreeingOldMemory a next.block_size m with
  | none => simp only [htry, List.append_assoc, List.singleton_append]
  | some kp => simp only [htry]

theorem deallocMemory_spec (ha : FreeList a) (hb : PageList b) (hsize : minimumFree ≤ block.size)
    (hclear : Clear a.first_free block)
    (hapart : ∀ x, Covers b.first_free x → ¬Covers a.first_free x ∧ ¬block.Has x) :
    ∃ a' b' given, deallocMemory [a, b] block.start block.size = [a', b'] ∧ Given a b a' b' block given := by
  have hpos : 0 < block.size := Nat.lt_of_lt_of_le (by decide) hsize
  have hspec := insertFreeMemory_spec ha.ordered (ha.large.mono (by decide)) hpos hclear
  have hlist := hspec.large _ ha.large hsize
  generalize hr : insertFreeMemory a.first_free block = r at hspec hlist
  obtain ⟨pre, m, rest⟩ := r
  have hm : ∀ x, m.Has x → Covers a.first_free x ∨ block.Has x := by
    intro x hx
    refine (hspec.covers x).mp ?_
    rw [covers_append, covers_cons]
    exact Or.inr (Or.inl hx)
  obtain ⟨hlp, hlm⟩ := large_append.mp hlist
  obtain ⟨hmsize, hlr⟩ := large_cons.mp hlm
  obtain ⟨kept, b', given, hgive, hd⟩ := giveBack_spec (a := a) hb hmsize
    (fun x hbx hx => (hm x hx).elim (hapart x hbx).1 (hapart x hbx).2)
  have hcov := fun x => hspec.ordered.covers_replace (x := x) (fun x hx => hd.kept_inside hx)
  refine ⟨{ a with first_free := pre ++ kept ++ rest }, b', given, ?_, rfl, ⟨ha.block_size, ?_, ?_⟩, hd.pages,
    hd.special, hd.backing, ?_, ?_, ?_⟩
  · rw [deallocMemory_cons (Nat.ne_of_gt hpos) hr, hgive]
  · exact hspec.ordered.replace hd.ordered hd.inside
  · exact large_append.mpr ⟨large_append.mpr ⟨hlp, hd.large⟩, hlr⟩
  · rintro x (hx | hx)
    · exact (hspec.covers x).mp ((hcov x).mp hx).1
    · exact hm x (hd.given_inside x hx)
  · intro x hx hx'
    exact hd.apart x (((hcov x).mp hx').2 (hd.given_inside x hx)) hx
  · intro hend x hx
    by_cases hmx : m.Has x
    · rw [hr] at hend
      rcases hd.whole hend x hmx with hk | hp
      · exact Or.inl ((hcov x).mpr ⟨(hspec.covers x).mpr hx, fun _ => hk⟩)
      · exact Or.inr hp
    · exact Or.inl ((hcov x).mpr ⟨(hspec.covers x).mpr hx, fun h => absurd h hmx⟩)

end Calls

end SomeOs.Heap
