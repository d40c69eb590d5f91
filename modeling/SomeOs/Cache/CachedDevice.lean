import SomeOs.Cache.Table
import SomeOs.Devices.BlockFile

/-! # Reads and writes through the block cache

The calls of a single task on a cached block device. The buffers of cached blocks come from an allocator of
the cache, the buffer of the caller is in a memory of its own. The device and the allocator do not fail.
-/
namespace SomeOs.Cache
open BlockFile RobinHood
variable {B H : Type}

/-- An allocator, with the addresses that are allocated. -/
structure BlockAllocator (H : Type) where
  allocMemory : H → ℕ → ℕ × H
  deallocMemory : H → ℕ → ℕ → H
  used : H → Finset ℕ
  alloc_fresh : ∀ h size, Disjoint (Finset.Ico (allocMemory h size).1 ((allocMemory h size).1 + size)) (used h)
  alloc_used : ∀ h size, used (allocMemory h size).2 = Finset.Ico (allocMemory h size).1 ((allocMemory h size).1 + size) ∪ used h
  dealloc_used : ∀ h bytes size, Finset.Ico bytes (bytes + size) ⊆ used h →
    used (deallocMemory h bytes size) = used h \ Finset.Ico bytes (bytes + size)

/-- The device behind the cache has bytes of its own, as has the memory of the kernel. -/
structure CachedBlockDevice (B H : Type) where
  block_size : ℕ
  uncached : ℕ → B
  table : CachedBlockTable
  memory : ℕ → B
  alloc : H

variable (A : BlockAllocator H)

/-- `cached->bytes` -/
def bytesAt (table : CachedBlockTable) (idx : ℕ) : ℕ :=
  match table.blocks idx with
  | some cached => cached.bytes
  | none => 0

/-- The loop of `readUncached` that gives the blocks of a buffer to the table, or back to the allocator. -/
def keepBlocks : ℕ → CachedBlockDevice B H → (bytes offset size : ℕ) → Option (CachedBlockDevice B H)
  | 0, _, _, _, _ => none
  | fuel + 1, dev, bytes, offset, size =>
    if 0 < size then
      (getFromTable dev.table offset).bind fun cached =>
      (match cached with
        | none => (insertIntoTable dev.table offset bytes).map fun table => { dev with table := table }
        | some idx => some
          { dev with table := lowerPriority dev.table idx, alloc := A.deallocMemory dev.alloc bytes dev.block_size }).bind
            fun dev =>
      keepBlocks fuel dev (bytes + dev.block_size) (offset + dev.block_size) (size - dev.block_size)
    else some dev

def readUncached (dev : CachedBlockDevice B H) (user : ℕ → B) (buff offset size : ℕ) : Option ((ℕ → B) × CachedBlockDevice B H) :=
  let r := A.allocMemory dev.alloc size
  let memory := copyTo dev.memory r.1 size fun k => dev.uncached (offset + k)
  let user := copyTo user buff size fun k => memory (r.1 + k)
  (keepBlocks A (size + 1) { dev with memory := memory, alloc := r.2 } r.1 offset size).map fun dev => (user, dev)

/-- The loop of `readFunction`, and the blocks that are left after it. -/
def readLoop : ℕ → CachedBlockDevice B H → (ℕ → B) → (buff offset uncached size : ℕ) → Option ((ℕ → B) × CachedBlockDevice B H)
  | 0, _, _, _, _, _, _ => none
  | fuel + 1, dev, user, buff, offset, uncached, size =>
    if 0 < size then
      (getFromTable dev.table (offset + uncached)).bind fun
      | some idx =>
        let dev := { dev with table := lowerPriority dev.table idx }
        let user := copyTo user (buff + uncached) dev.block_size fun k => dev.memory (bytesAt dev.table idx + k)
        (if uncached ≠ 0 then readUncached A dev user buff offset uncached else some (user, dev)).bind fun r =>
        readLoop fuel r.2 r.1 (buff + (uncached + dev.block_size)) (offset + (uncached + dev.block_size)) 0
          (size - dev.block_size)
      | none => readLoop fuel dev user buff offset (uncached + dev.block_size) (size - dev.block_size)
    else if uncached ≠ 0 then readUncached A dev user buff offset uncached
    else some (user, dev)

def readFunction (dev : CachedBlockDevice B H) (user : ℕ → B) (buff offset size : ℕ) : Option ((ℕ → B) × CachedBlockDevice B H) :=
  if size % dev.block_size = 0 ∧ offset % dev.block_size = 0 then readLoop A (size + 1) dev user buff offset 0 size else none

/-- The loop of `writeFunction`. -/
def writeLoop (user : ℕ → B) : ℕ → CachedBlockDevice B H → (buff offset size : ℕ) → Option (CachedBlockDevice B H)
  | 0, _, _, _, _ => none
  | fuel + 1, dev, buff, offset, size =>
    if 0 < size then
      (getFromTable dev.table offset).bind fun cached =>
      (match cached with
        | none =>
          let r := A.allocMemory dev.alloc dev.block_size
          (insertIntoTable dev.table offset r.1).map fun table =>
            { dev with table := table, memory := copyTo dev.memory r.1 dev.block_size fun k => user (buff + k), alloc := r.2 }
        | some idx => some
          { dev with memory := copyTo dev.memory (bytesAt dev.table idx) dev.block_size fun k => user (buff + k) }).bind
            fun dev =>
      writeLoop user fuel dev (buff + dev.block_size) (offset + dev.block_size) (size - dev.block_size)
    else some dev

def writeFunction (dev : CachedBlockDevice B H) (user : ℕ → B) (buff offset size : ℕ) : Option (CachedBlockDevice B H) :=
  if size % dev.block_size = 0 ∧ offset % dev.block_size = 0 then
    writeLoop A user (size + 1) { dev with uncached := copyTo dev.uncached offset size fun k => user (buff + k) } buff offset size
  else none

def buffer (dev : CachedBlockDevice B H) (b : CachedBlock) : Finset ℕ := Finset.Ico b.bytes (b.bytes + dev.block_size)

/-- The cached blocks have what the device has, up to the blocks that are stale. What is allocated are their buffers, which have
nothing in common, and the buffers of blocks that are not in the table yet. -/
structure Keeps (dev : CachedBlockDevice B H) (m : ℕ → Option CachedBlock) (pending : Finset ℕ) (stale : ℕ → Prop) : Prop where
  inv : ∃ K, TableInv dev.table m K
  aligned : ∀ o b, m o = some b → dev.block_size ∣ o
  contents : ∀ o b, m o = some b → ¬stale o → ∀ k < dev.block_size, dev.memory (b.bytes + k) = dev.uncached (o + k)
  used : ∀ x, x ∈ A.used dev.alloc ↔ x ∈ pending ∨ ∃ o b, m o = some b ∧ x ∈ buffer dev b
  owner : ∀ o o' b b' x, m o = some b → m o' = some b' → x ∈ buffer dev b → x ∈ buffer dev b' → o = o'
  apart : ∀ o b x, m o = some b → x ∈ buffer dev b → x ∉ pending

def Consistent (dev : CachedBlockDevice B H) (m : ℕ → Option CachedBlock) : Prop := Keeps A dev m ∅ fun _ => False

section Keeping
variable {A} {dev : CachedBlockDevice B H} {m m' : ℕ → Option CachedBlock} {pending : Finset ℕ} {stale stale' : ℕ → Prop}
  {offset bytes : ℕ}

theorem mem_buffer {b : CachedBlock} {x : ℕ} : x ∈ buffer dev b ↔ b.bytes ≤ x ∧ x < b.bytes + dev.block_size := Finset.mem_Ico

/-- The priorities of the blocks may change. -/
theorem Keeps.remap (h : Keeps A dev m pending stale) {table : CachedBlockTable} (hinv : ∃ K, TableInv table m' K)
    (hsame : ∀ o, (m' o).map CachedBlock.bytes = (m o).map CachedBlock.bytes) :
    Keeps A { dev with table := table } m' pending stale := by
  have hfrom : ∀ {o b}, m' o = some b → ∃ b', m o = some b' ∧ b'.bytes = b.bytes := by
    intro o b hb
    have := hsame o
    rw [hb, Option.map_some, eq_comm, Option.map_eq_some_iff] at this
    exact this
  have hto : ∀ {o b}, m o = some b → ∃ b', m' o = some b' ∧ b'.bytes = b.bytes := by
    intro o b hb
    have := hsame o
    rw [hb, Option.map_some, Option.map_eq_some_iff] at this
    exact this
  have hbuffer : ∀ {b b' : CachedBlock} {x}, b'.bytes = b.bytes → x ∈ buffer { dev with table := table } b →
    x ∈ buffer dev b' := by
    intro b b' x he hx
    rw [mem_buffer] at hx ⊢
    rwa [he]
  refine ⟨hinv, fun o b hb => ?_, fun o b hb hst k hk => ?_, fun x => ?_, fun o o' b b' x hb hb' hx hx' => ?_,
    fun o b x hb hx => ?_⟩
  · obtain ⟨b', hb', -⟩ := hfrom hb
    exact h.aligned o b' hb'
  · obtain ⟨b', hb', he⟩ := hfrom hb
    rw [← he]
    exact h.contents o b' hb' hst k hk
  · rw [h.used]
    refine or_congr_right ⟨?_, ?_⟩
    · rintro ⟨o, b, hb, hx⟩
      obtain ⟨b', hb', he⟩ := hto hb
      refine ⟨o, b', hb', ?_⟩
      rw [mem_buffer] at hx ⊢
      rwa [he]
    · rintro ⟨o, b, hb, hx⟩
      obtain ⟨b', hb', he⟩ := hfrom hb
      exact ⟨o, b', hb', hbuffer he hx⟩
  · obtain ⟨c, hc, he⟩ := hfrom hb
    obtain ⟨c', hc', he'⟩ := hfrom hb'
    exact h.owner o o' c c' x hc hc' (hbuffer he hx) (hbuffer he' hx')
  · obtain ⟨c, hc, he⟩ := hfrom hb
    exact h.apart o c x hc (hbuffer he hx)

theorem lowered_bytes (b : CachedBlock) : b.lowered.bytes = b.bytes := by
  unfold CachedBlock.lowered
  split <;> rfl

theorem lowered_offset (b : CachedBlock) : b.lowered.offset = b.offset := by
  unfold CachedBlock.lowered
  split <;> rfl

theorem Keeps.lower (h : Keeps A dev m pending stale) {i : ℕ} {b : CachedBlock} (hi : i < dev.table.capacity)
    (hb : dev.table.blocks i = some b) (hm : m offset = some b) :
    Keeps A { dev with table := lowerPriority dev.table i } (Function.update m offset (some b.lowered)) pending stale := by
  obtain ⟨K, hK⟩ := h.inv
  have hinv := hK.replaced hi hb (lowered_offset b)
  rw [hK.offset offset b hm] at hinv
  refine h.remap ⟨K, ?_⟩ fun o => ?_
  · rw [lowerPriority, hb]
    exact hinv
  · by_cases ho : o = offset
    · rw [ho, Function.update_self, hm, Option.map_some, Option.map_some, lowered_bytes]
    · rw [Function.update_of_ne ho]

/-- A pending buffer becomes that of a cached block, which is not stale then. -/
theorem Keeps.insert (h : Keeps A dev m pending stale) (habsent : m offset = none) (haligned : dev.block_size ∣ offset)
    (hpending : Finset.Ico bytes (bytes + dev.block_size) ⊆ pending) (hstale : ∀ o, stale o → stale' o ∨ o = offset)
    (hcontents : ∀ k < dev.block_size, dev.memory (bytes + k) = dev.uncached (offset + k)) :
    ∃ table, insertIntoTable dev.table offset bytes = some table ∧
      Keeps A { dev with table := table } (Function.update m offset (some ⟨offset, defaultPriority, bytes⟩))
        (pending \ Finset.Ico bytes (bytes + dev.block_size)) stale' := by
  obtain ⟨K, hK⟩ := h.inv
  obtain ⟨table, hins, hinv⟩ := insertIntoTable_spec hK habsent bytes
  have hcases : ∀ {o b}, Function.update m offset (some ⟨offset, defaultPriority, bytes⟩) o = some b →
      o = offset ∧ b.bytes = bytes ∨ o ≠ offset ∧ m o = some b := by
    intro o b hb
    by_cases ho : o = offset
    · rw [ho, Function.update_self] at hb
      cases hb
      exact Or.inl ⟨ho, rfl⟩
    · rw [Function.update_of_ne ho] at hb
      exact Or.inr ⟨ho, hb⟩
  have hnew : ∀ {b : CachedBlock} {x}, b.bytes = bytes → x ∈ buffer { dev with table := table } b →
      x ∈ Finset.Ico bytes (bytes + dev.block_size) := by
    intro b x he hx
    rw [← he]
    exact hx
  refine ⟨table, hins, ⟨_, hinv⟩, fun o b hb => ?_, fun o b hb hst k hk => ?_, fun x => ?_, fun o o' b b' x hb hb' hx hx' => ?_,
    fun o b x hb hx => ?_⟩
  · rcases hcases hb with ⟨rfl, -⟩ | ⟨-, hb⟩
    · exact haligned
    · exact h.aligned o b hb
  · rcases hcases hb with ⟨rfl, he⟩ | ⟨hne, hb⟩
    · rw [he]
      exact hcontents k hk
    · exact h.contents o b hb (fun hst' => (hstale o hst').elim hst hne) k hk
  · rw [h.used, Finset.mem_sdiff]
    constructor
    · rintro (hx | ⟨o, b, hb, hx⟩)
      · by_cases hx' : x ∈ Finset.Ico bytes (bytes + dev.block_size)
        · exact Or.inr ⟨offset, _, Function.update_self .., hx'⟩
        · exact Or.inl ⟨hx, hx'⟩
      · refine Or.inr ⟨o, b, ?_, hx⟩
        rw [Function.update_of_ne]
        · exact hb
        · rintro rfl
          rw [habsent] at hb
          cases hb
    · rintro (⟨hx, -⟩ | ⟨o, b, hb, hx⟩)
      · exact Or.inl hx
      · rcases hcases hb with ⟨-, he⟩ | ⟨-, hb⟩
        · exact Or.inl (hpending (hnew he hx))
        · exact Or.inr ⟨o, b, hb, hx⟩
  · rcases hcases hb with ⟨ho, he⟩ | ⟨-, hold⟩ <;> rcases hcases hb' with ⟨ho', he'⟩ | ⟨-, hold'⟩
    · rw [ho, ho']
    · exact absurd (hpending (hnew he hx)) (h.apart o' b' x hold' hx')
    · exact absurd (hpending (hnew he' hx')) (h.apart o b x hold hx)
    · exact h.owner o o' b b' x hold hold' hx hx'
  · rw [Finset.mem_sdiff, not_and, not_not]
    intro hx'
    rcases hcases hb with ⟨-, he⟩ | ⟨-, hb⟩
    · exact hnew he hx
    · exact absurd hx' (h.apart o b x hb hx)

theorem Keeps.release (h : Keeps A dev m pending stale) (hpending : Finset.Ico bytes (bytes + dev.block_size) ⊆ pending) :
    Keeps A { dev with alloc := A.deallocMemory dev.alloc bytes dev.block_size } m
      (pending \ Finset.Ico bytes (bytes + dev.block_size)) stale := by
  refine ⟨h.inv, h.aligned, h.contents, fun x => ?_, h.owner, fun o b x hb hx hx' => ?_⟩
  · rw [A.dealloc_used _ _ _ fun x hx => (h.used x).mpr (Or.inl (hpending hx)), Finset.mem_sdiff, Finset.mem_sdiff, h.used]
    constructor
    · rintro ⟨hx | hx, hne⟩
      · exact Or.inl ⟨hx, hne⟩
      · exact Or.inr hx
    · rintro (⟨hx, hne⟩ | ⟨o, b, hb, hx⟩)
      · exact ⟨Or.inl hx, hne⟩
      · exact ⟨Or.inr ⟨o, b, hb, hx⟩, fun hne => h.apart o b x hb hx (hpending hne)⟩
  · exact h.apart o b x hb hx (Finset.mem_sdiff.mp hx').1

theorem Keeps.allocated (h : Keeps A dev m ∅ stale) (size : ℕ) (src : ℕ → B) :
    Keeps A { dev with memory := copyTo dev.memory (A.allocMemory dev.alloc size).1 size src, alloc :=
      (A.allocMemory dev.alloc size).2 } m
      (Finset.Ico (A.allocMemory dev.alloc size).1 ((A.allocMemory dev.alloc size).1 + size)) stale := by
  have hapart : ∀ o b x, m o = some b → x ∈ buffer dev b →
      x ∉ Finset.Ico (A.allocMemory dev.alloc size).1 ((A.allocMemory dev.alloc size).1 + size) := by
    intro o b x hb hx hnew
    exact Finset.disjoint_left.mp (A.alloc_fresh dev.alloc size) hnew ((h.used x).mpr (Or.inr ⟨o, b, hb, hx⟩))
  refine ⟨h.inv, h.aligned, fun o b hb hst k hk => ?_, fun x => ?_, h.owner, hapart⟩
  · have hout := hapart o b (b.bytes + k) hb (mem_buffer.mpr ⟨Nat.le_add_right _ _, Nat.add_lt_add_left hk _⟩)
    rw [Finset.mem_Ico] at hout
    rw [← h.contents o b hb hst k hk]
    exact copyTo_outside hout
  · rw [A.alloc_used, Finset.mem_union, h.used]
    simp only [Finset.notMem_empty, false_or]
    rfl

theorem Keeps.rewrite (h : Keeps A dev m pending stale) {b : CachedBlock} {src : ℕ → B} (hm : m offset = some b)
    (hstale : ∀ o, stale o → stale' o ∨ o = offset) (hcontents : ∀ k < dev.block_size, src k = dev.uncached (offset + k)) :
    Keeps A { dev with memory := copyTo dev.memory b.bytes dev.block_size src } m pending stale' := by
  refine ⟨h.inv, h.aligned, fun o c hc hst k hk => ?_, h.used, h.owner, h.apart⟩
  have hk' : k < dev.block_size := hk
  by_cases ho : o = offset
  · subst ho
    rw [hm] at hc
    cases hc
    rw [← hcontents k hk]
    dsimp only
    rw [copyTo_inside (by omega) (by omega), Nat.add_sub_cancel_left]
  · rw [← h.contents o c hc (fun hst' => (hstale o hst').elim hst ho) k hk]
    refine copyTo_outside fun hx => ho ?_
    exact h.owner o offset c b (c.bytes + k) hc hm (mem_buffer.mpr (by omega)) (mem_buffer.mpr hx)

end Keeping

section Read
variable {A} {dev dev₁ dev₂ : CachedBlockDevice B H} {m m₁ m₂ : ℕ → Option CachedBlock} {bytes buff offset uncached size : ℕ}

structure Grown (dev dev' : CachedBlockDevice B H) (m m' : ℕ → Option CachedBlock) (lo hi : ℕ) : Prop where
  block_size : dev'.block_size = dev.block_size
  uncached : dev'.uncached = dev.uncached
  kept : ∀ o, m o ≠ none → m' o ≠ none
  added : ∀ o, dev.block_size ∣ o → lo ≤ o → o < hi → m' o ≠ none

theorem eq_of_dvd {d x y : ℕ} (hx : d ∣ x) (hy : d ∣ y) (hxy : x ≤ y) (hlt : y < x + d) : y = x := by
  have := Nat.eq_zero_of_dvd_of_lt (Nat.dvd_sub hy hx) (show y - x < d by omega)
  omega

theorem le_of_dvd_lt {d x y : ℕ} (hx : d ∣ x) (hy : d ∣ y) (hxy : x < y) : x + d ≤ y := by
  have := Nat.le_of_dvd (by omega) (Nat.dvd_sub hy hx)
  omega

theorem Grown.refl (dev : CachedBlockDevice B H) (m : ℕ → Option CachedBlock) (offset : ℕ) : Grown dev dev m m offset offset :=
  ⟨rfl, rfl, fun _ h => h, fun _ _ _ _ => by omega⟩

theorem Grown.trans {lo mid hi : ℕ} (h₁ : Grown dev dev₁ m m₁ lo mid) (h₂ : Grown dev₁ dev₂ m₁ m₂ mid hi) :
    Grown dev dev₂ m m₂ lo hi := by
  refine ⟨h₂.block_size.trans h₁.block_size, h₂.uncached.trans h₁.uncached, fun o ho => h₂.kept o (h₁.kept o ho),
    fun o hd hlo hhi => ?_⟩
  rcases Nat.lt_or_ge o mid with hlt | hge
  · exact h₂.kept o (h₁.added o hd hlo hlt)
  · exact h₂.added o (h₁.block_size ▸ hd) hge hhi

theorem Grown.before {lo mid hi : ℕ} (h₁ : Grown dev dev₁ m m₁ mid hi) (h₂ : Grown dev₁ dev₂ m₁ m₂ lo mid) :
    Grown dev dev₂ m m₂ lo hi := by
  refine ⟨h₂.block_size.trans h₁.block_size, h₂.uncached.trans h₁.uncached, fun o ho => h₂.kept o (h₁.kept o ho),
    fun o hd hlo hhi => ?_⟩
  rcases Nat.lt_or_ge o mid with hlt | hge
  · exact h₂.added o (h₁.block_size ▸ hd) hlo hlt
  · exact h₂.kept o (h₁.added o hd hge hhi)

theorem Grown.block (hsize : dev₁.block_size = dev.block_size) (huncached : dev₁.uncached = dev.uncached)
    (haligned : dev.block_size ∣ offset)
    (b : CachedBlock) : Grown dev dev₁ m (Function.update m offset (some b)) offset (offset + dev.block_size) := by
  refine ⟨hsize, huncached, fun o ho => ?_, fun o hd hlo hhi => ?_⟩
  · by_cases he : o = offset
    · simp [he]
    · rwa [Function.update_of_ne he]
  · rw [eq_of_dvd haligned hd hlo hhi, Function.update_self]
    exact Option.some_ne_none b

theorem Ico_sdiff_block {n : ℕ} (h : n ≤ size) :
    Finset.Ico bytes (bytes + size) \ Finset.Ico bytes (bytes + n) = Finset.Ico (bytes + n) (bytes + n + (size - n)) := by
  ext x
  simp only [Finset.mem_sdiff, Finset.mem_Ico]
  omega

theorem keepBlocks_spec {fuel : ℕ} (hpos : 0 < dev.block_size) (hoffset : dev.block_size ∣ offset) (hsize : dev.block_size ∣ size)
    (hfuel : size < fuel) (h : Keeps A dev m (Finset.Ico bytes (bytes + size)) fun _ => False)
    (hcontents : ∀ k < size, dev.memory (bytes + k) = dev.uncached (offset + k)) :
    ∃ dev' m', keepBlocks A fuel dev bytes offset size = some dev' ∧ Consistent A dev' m' ∧
      Grown dev dev' m m' offset (offset + size) := by
  induction fuel generalizing dev m bytes offset size with
  | zero => omega
  | succ fuel ih =>
    unfold keepBlocks
    split
    · next hmore =>
      have hle : dev.block_size ≤ size := Nat.le_of_dvd hmore hsize
      have hsub : Finset.Ico bytes (bytes + dev.block_size) ⊆ Finset.Ico bytes (bytes + size) :=
        Finset.Ico_subset_Ico_right (by omega)
      -- what is left after a step that has dealt with the first block
      have hnext : ∀ {dev₁ : CachedBlockDevice B H} {b}, dev₁.block_size = dev.block_size → dev₁.uncached = dev.uncached →
          dev₁.memory = dev.memory →
          Keeps A dev₁ (Function.update m offset (some b))
            (Finset.Ico bytes (bytes + size) \ Finset.Ico bytes (bytes + dev.block_size))
            (fun _ => False) →
          ∃ dev' m', keepBlocks A fuel dev₁ (bytes + dev₁.block_size) (offset + dev₁.block_size) (size - dev₁.block_size) =
            some dev' ∧ Consistent A dev' m' ∧ Grown dev dev' m m' offset (offset + size) := by
        intro dev₁ b hbs hdev hmem hkeeps
        rw [Ico_sdiff_block hle, ← hbs] at hkeeps
        obtain ⟨dev', m', hloop, hcons, hgrown⟩ := ih (hbs ▸ hpos) (hbs ▸ Dvd.dvd.add hoffset (dvd_refl _))
          (hbs ▸ Nat.dvd_sub hsize (dvd_refl _)) (by omega) hkeeps (fun k hk => by
            rw [hmem, hdev, Nat.add_assoc, Nat.add_assoc]
            exact hcontents _ (by omega))
        refine ⟨dev', m', hloop, hcons, ?_⟩
        rw [hbs, Nat.add_assoc, Nat.add_sub_cancel' hle] at hgrown
        exact (Grown.block hbs hdev hoffset b).trans hgrown
      obtain ⟨K, hK⟩ := h.inv
      rcases getFromTable_spec hK offset with ⟨i, b, hi, hb, hm, hget⟩ | ⟨hm, hget⟩
      · rw [hget, Option.bind_some]
        exact hnext rfl rfl rfl ((h.lower hi hb hm).release hsub)
      · obtain ⟨table, hins, hkeeps⟩ := h.insert hm hoffset hsub (fun _ => Or.inl) fun k hk => hcontents k (by omega)
        rw [hget, Option.bind_some]
        simp only [hins, Option.map_some, Option.bind_some]
        exact hnext rfl rfl rfl hkeeps
    · next hdone =>
      obtain rfl : size = 0 := by omega
      rw [Nat.add_zero, Finset.Ico_self] at h
      exact ⟨dev, m, rfl, h, Grown.refl dev m offset⟩

theorem readUncached_spec (user : ℕ → B) (hpos : 0 < dev.block_size) (hoffset : dev.block_size ∣ offset)
    (hsize : dev.block_size ∣ size) (h : Consistent A dev m) :
    ∃ dev' m', readUncached A dev user buff offset size = some (copyTo user buff size fun k => dev.uncached (offset + k), dev') ∧
      Consistent A dev' m' ∧ Grown dev dev' m m' offset (offset + size) := by
  have hmem : ∀ k < size, copyTo dev.memory (A.allocMemory dev.alloc size).1 size (fun k => dev.uncached (offset + k))
      ((A.allocMemory dev.alloc size).1 + k) = dev.uncached (offset + k) := by
    intro k hk
    rw [copyTo_inside (by omega) (by omega), Nat.add_sub_cancel_left]
  obtain ⟨dev', m', hloop, hcons, hgrown⟩ := @keepBlocks_spec B H A
    { dev with
      memory := copyTo dev.memory (A.allocMemory dev.alloc size).1 size fun k => dev.uncached (offset + k)
      alloc := (A.allocMemory dev.alloc size).2 }
    m (A.allocMemory dev.alloc size).1 offset size (size + 1) hpos hoffset hsize (Nat.lt_succ_self size)
      (Keeps.allocated h size _) hmem
  refine ⟨dev', m', ?_, hcons, hgrown.block_size, hgrown.uncached, hgrown.kept, hgrown.added⟩
  have huser : (copyTo user buff size fun k => copyTo dev.memory (A.allocMemory dev.alloc size).1 size
    (fun k => dev.uncached (offset + k))
      ((A.allocMemory dev.alloc size).1 + k)) = copyTo user buff size fun k => dev.uncached (offset + k) := by
    exact copyTo_congr hmem
  unfold readUncached
  simp only [hloop, Option.map_some, huser]

/-- The blocks that are left to read, those before that were not cached among them. -/
theorem readLoop_spec {fuel : ℕ} (user : ℕ → B) (hpos : 0 < dev.block_size) (hoffset : dev.block_size ∣ offset)
    (huncached : dev.block_size ∣ uncached) (hsize : dev.block_size ∣ size) (hfuel : size < fuel) (h : Consistent A dev m) :
    ∃ dev' m', readLoop A fuel dev user buff offset uncached size =
        some (copyTo user buff (uncached + size) fun k => dev.uncached (offset + k), dev') ∧
      Consistent A dev' m' ∧ Grown dev dev' m m' offset (offset + (uncached + size)) := by
  induction fuel generalizing dev m user buff offset uncached size with
  | zero => omega
  | succ fuel ih =>
    unfold readLoop
    split
    · next hmore =>
      have hle : dev.block_size ≤ size := Nat.le_of_dvd hmore hsize
      have hrest : dev.block_size ∣ size - dev.block_size := Nat.dvd_sub hsize (dvd_refl _)
      obtain ⟨K, hK⟩ := h.inv
      rcases getFromTable_spec hK (offset + uncached) with ⟨i, b, hi, hb, hm, hget⟩ | ⟨hm, hget⟩
      · rw [hget, Option.bind_some]
        have hbytes : bytesAt (lowerPriority dev.table i) i = b.bytes := by
          rw [bytesAt, lowerPriority, hb]
          simp [lowered_bytes]
        have hcopied : (copyTo user (buff + uncached) dev.block_size fun k => dev.memory (b.bytes + k)) =
            copyTo user (buff + uncached) dev.block_size fun k => dev.uncached (offset + (uncached + k)) :=
          copyTo_congr fun k hk => by rw [h.contents _ b hm (fun hst => hst) k hk, Nat.add_assoc]
        have hlower := h.lower hi hb hm
        have hblock := @Grown.block B H dev { dev with table := lowerPriority dev.table i } m (offset + uncached) rfl rfl
          (Dvd.dvd.add hoffset huncached) b.lowered
        -- the blocks before that are not cached are read after the cached one
        have hbefore : ∃ dev₂ m₂, (if uncached ≠ 0 then readUncached A { dev with table := lowerPriority dev.table i }
              (copyTo user (buff + uncached) dev.block_size fun k => dev.uncached (offset + (uncached + k))) buff offset uncached
            else some (copyTo user (buff + uncached) dev.block_size fun k => dev.uncached (offset + (uncached + k)),
              { dev with table := lowerPriority dev.table i })) =
              some (copyTo user buff (uncached + dev.block_size) fun k => dev.uncached (offset + k), dev₂) ∧
            Consistent A dev₂ m₂ ∧ Grown dev dev₂ m m₂ offset (offset + uncached + dev.block_size) := by
          split
          · obtain ⟨dev₂, m₂, hread, hcons, hgrown⟩ :=
              @readUncached_spec B H A { dev with table := lowerPriority dev.table i } _ buff offset
              uncached (copyTo user (buff + uncached) dev.block_size fun k => dev.uncached (offset + (uncached + k))) hpos hoffset
              huncached hlower
            refine ⟨dev₂, m₂, ?_, hcons, hblock.before hgrown⟩
            rw [hread]
            exact congrArg (fun u => some (u, dev₂))
              (@copyTo_before B uncached dev.block_size buff user fun k => dev.uncached (offset + k))
          · next hzero =>
            obtain rfl : uncached = 0 := by omega
            refine ⟨_, _, ?_, hlower, hblock⟩
            simp only [Nat.add_zero, Nat.zero_add]
        obtain ⟨dev₂, m₂, hread, hcons, hgrown⟩ := hbefore
        simp only [hbytes, hcopied, hread, Option.bind_some]
        have hbs := hgrown.block_size
        have hdvd : dev.block_size ∣ offset + (uncached + dev.block_size) :=
          Dvd.dvd.add hoffset (Dvd.dvd.add huncached (dvd_refl _))
        obtain ⟨dev', m', hloop, hcons', hgrown'⟩ :=
          @ih dev₂ m₂ (buff + (uncached + dev.block_size)) (offset + (uncached + dev.block_size)) 0
          (size - dev.block_size) (copyTo user buff (uncached + dev.block_size) fun k => dev.uncached (offset + k))
          (hbs ▸ hpos) (hbs ▸ hdvd) (dvd_zero _) (hbs ▸ hrest) (by omega) hcons
        refine ⟨dev', m', ?_, hcons', ?_⟩
        · rw [hloop, hgrown.uncached, Nat.zero_add]
          simp only [Nat.add_assoc offset]
          rw [@copyTo_append B _ _ _ user fun k => dev.uncached (offset + k)]
          rw [show uncached + dev.block_size + (size - dev.block_size) = uncached + size by omega]
        · rw [Nat.add_assoc offset] at hgrown
          rw [Nat.zero_add, show offset + (uncached + dev.block_size) + (size - dev.block_size) =
            offset + (uncached + size) by omega]
            at hgrown'
          exact hgrown.trans hgrown'
      · rw [hget, Option.bind_some]
        have hnext := @ih dev m buff offset (uncached + dev.block_size) (size - dev.block_size) user hpos hoffset
          (Dvd.dvd.add huncached (dvd_refl _)) hrest (by omega) h
        rwa [show uncached + dev.block_size + (size - dev.block_size) = uncached + size by omega] at hnext
    · next hdone =>
      obtain rfl : size = 0 := by omega
      rw [Nat.add_zero]
      split
      · exact readUncached_spec user hpos hoffset huncached h
      · next hzero =>
        obtain rfl : uncached = 0 := by omega
        exact ⟨dev, m, by rw [copyTo_zero], h, Grown.refl dev m offset⟩

end Read

section Write
variable {A} {dev : CachedBlockDevice B H} {m : ℕ → Option CachedBlock} {buff offset size : ℕ} {user : ℕ → B}

/-- The blocks from an offset on that are still to be written to the cache. -/
def StaleFrom (offset size o : ℕ) : Prop := offset ≤ o ∧ o < offset + size

theorem staleFrom_next {n o : ℕ} (hoffset : n ∣ offset) (hn : n ≤ size) (ho : n ∣ o) (h : StaleFrom offset size o) :
    StaleFrom (offset + n) (size - n) o ∨ o = offset := by
  unfold StaleFrom at *
  rcases Nat.lt_or_ge o (offset + n) with hlt | hge
  · exact Or.inr (eq_of_dvd hoffset ho h.1 hlt)
  · left
    omega

theorem writeLoop_spec {fuel : ℕ} (hpos : 0 < dev.block_size) (hoffset : dev.block_size ∣ offset) (hsize : dev.block_size ∣ size)
    (hfuel : size < fuel) (h : Keeps A dev m ∅ fun o => dev.block_size ∣ o ∧ StaleFrom offset size o)
    (hcontents : ∀ k < size, user (buff + k) = dev.uncached (offset + k)) :
    ∃ dev' m', writeLoop A user fuel dev buff offset size = some dev' ∧ Consistent A dev' m' ∧
      Grown dev dev' m m' offset (offset + size) := by
  induction fuel generalizing dev m buff offset size with
  | zero => omega
  | succ fuel ih =>
    unfold writeLoop
    split
    · next hmore =>
      have hle : dev.block_size ≤ size := Nat.le_of_dvd hmore hsize
      have hstale : ∀ o, dev.block_size ∣ o ∧ StaleFrom offset size o →
          dev.block_size ∣ o ∧ StaleFrom (offset + dev.block_size) (size - dev.block_size) o ∨ o = offset := by
        rintro o ⟨hd, hst⟩
        exact (staleFrom_next hoffset hle hd hst).imp_left fun hst => ⟨hd, hst⟩
      have hblock : ∀ k < dev.block_size, user (buff + k) = dev.uncached (offset + k) := fun k hk => hcontents k (by omega)
      -- what is left after the first block has been written
      have hnext : ∀ {dev₁ : CachedBlockDevice B H} {b}, dev₁.block_size = dev.block_size → dev₁.uncached = dev.uncached →
          Keeps A dev₁ (Function.update m offset (some b)) ∅
            (fun o => dev.block_size ∣ o ∧ StaleFrom (offset + dev.block_size) (size - dev.block_size) o) →
          ∃ dev' m', writeLoop A user fuel dev₁ (buff + dev₁.block_size) (offset + dev₁.block_size) (size - dev₁.block_size) =
            some dev' ∧ Consistent A dev' m' ∧ Grown dev dev' m m' offset (offset + size) := by
        intro dev₁ b hbs hdev hkeeps
        rw [← hbs] at hkeeps
        obtain ⟨dev', m', hloop, hcons, hgrown⟩ := @ih dev₁ _ (buff + dev₁.block_size) _ _ (hbs ▸ hpos)
          (hbs ▸ Dvd.dvd.add hoffset (dvd_refl _)) (hbs ▸ Nat.dvd_sub hsize (dvd_refl _)) (by omega) hkeeps (fun k hk => by
            rw [hdev, Nat.add_assoc, Nat.add_assoc]
            exact hcontents _ (by omega))
        refine ⟨dev', m', hloop, hcons, ?_⟩
        rw [hbs, Nat.add_assoc, Nat.add_sub_cancel' hle] at hgrown
        exact (Grown.block hbs hdev hoffset b).trans hgrown
      obtain ⟨K, hK⟩ := h.inv
      rcases getFromTable_spec hK offset with ⟨i, b, hi, hb, hm, hget⟩ | ⟨hm, hget⟩
      · rw [hget, Option.bind_some]
        have hbytes : bytesAt dev.table i = b.bytes := by
          rw [bytesAt, hb]
        have hkeeps := h.rewrite hm hstale hblock
        rw [← Function.update_eq_self offset m, hm] at hkeeps
        simp only [hbytes, Option.bind_some]
        exact hnext rfl rfl hkeeps
      · have halloc := h.allocated dev.block_size fun k => user (buff + k)
        obtain ⟨table, hins, hkeeps⟩ := halloc.insert hm hoffset (Finset.Subset.refl _) hstale (fun k hk => by
          dsimp only at hk ⊢
          rw [copyTo_inside (by omega) (by omega), Nat.add_sub_cancel_left, hblock k hk])
        rw [Finset.sdiff_self] at hkeeps
        rw [hget, Option.bind_some]
        simp only at hins
        simp only [hins, Option.map_some, Option.bind_some]
        exact hnext rfl rfl hkeeps
    · next hdone =>
      obtain rfl : size = 0 := by omega
      refine ⟨dev, m, rfl, ⟨h.inv, h.aligned, fun o b hb _ => h.contents o b hb ?_, h.used, h.owner, h.apart⟩,
        Grown.refl dev m offset⟩
      rintro ⟨-, hlo, hhi⟩
      omega

def Cached (dev : CachedBlockDevice B H) (o : ℕ) : Prop :=
  ∃! i, i < dev.table.capacity ∧ ∃ b, dev.table.blocks i = some b ∧ b.offset = o ∧
    ∀ k < dev.block_size, dev.memory (b.bytes + k) = dev.uncached (o + k)

theorem Consistent.cached (h : Consistent A dev m) {o : ℕ} (ho : m o ≠ none) : Cached dev o := by
  obtain ⟨K, hK⟩ := h.inv
  obtain ⟨b, hb⟩ := Option.ne_none_iff_exists'.mp ho
  have hoffset := hK.offset o b hb
  obtain ⟨i, hi, hslot⟩ := (hK.holds b).mpr (by rw [hoffset, hb])
  refine ⟨i, ⟨hi, b, hslot, hoffset, h.contents o b hb fun hst => hst⟩, ?_⟩
  rintro j ⟨hj, c, hc, hoffset', -⟩
  exact hK.wf.unique j i c b hj hi hc hslot (hoffset'.trans hoffset.symm)

/-- A read copies the range of the device to the buffer and leaves all of its blocks cached. A write changes the range of the
device to what is in the buffer, and its blocks are cached as well. -/
theorem cached_transfers (A : BlockAllocator H) (dev : CachedBlockDevice B H) (m : ℕ → Option CachedBlock) (user : ℕ → B)
    (buff offset size : ℕ) (hpos : 0 < dev.block_size) (hoffset : dev.block_size ∣ offset) (hsize : dev.block_size ∣ size)
    (h : Consistent A dev m) :
    (∃ dev' m', readFunction A dev user buff offset size = some (copyTo user buff size fun k => dev.uncached (offset + k), dev') ∧
      dev'.block_size = dev.block_size ∧ dev'.uncached = dev.uncached ∧ Consistent A dev' m' ∧
      ∀ o, dev.block_size ∣ o → offset ≤ o → o < offset + size → Cached dev' o) ∧
    ∃ dev' m', writeFunction A dev user buff offset size = some dev' ∧ dev'.block_size = dev.block_size ∧
      (dev'.uncached = copyTo dev.uncached offset size fun k => user (buff + k)) ∧ Consistent A dev' m' ∧
      ∀ o, dev.block_size ∣ o → offset ≤ o → o < offset + size → Cached dev' o := by
  have hassert : size % dev.block_size = 0 ∧ offset % dev.block_size = 0 :=
    ⟨Nat.mod_eq_zero_of_dvd hsize, Nat.mod_eq_zero_of_dvd hoffset⟩
  constructor
  · obtain ⟨dev', m', hread, hcons, hgrown⟩ := @readLoop_spec B H A dev m buff offset 0 size (size + 1) user hpos hoffset
      (dvd_zero _) hsize (Nat.lt_succ_self size) h
    rw [Nat.zero_add] at hread hgrown
    refine ⟨dev', m', ?_, hgrown.block_size, hgrown.uncached, hcons, fun o hd hlo hhi => hcons.cached (hgrown.added o hd hlo hhi)⟩
    rw [readFunction, if_pos hassert, hread]
  · have hstart : Keeps A { dev with uncached := copyTo dev.uncached offset size fun k => user (buff + k) } m ∅
        fun o => dev.block_size ∣ o ∧ StaleFrom offset size o := by
      refine ⟨h.inv, h.aligned, fun o b hb hst k hk => ?_, h.used, h.owner, h.apart⟩
      have hk' : k < dev.block_size := hk
      have hd := h.aligned o b hb
      rw [h.contents o b hb (fun hst => hst) k hk]
      dsimp only
      rw [copyTo_outside fun hx => hst ⟨hd, ?_⟩]
      -- a block that has a byte in the range starts in it
      unfold StaleFrom
      rcases Nat.lt_or_ge o offset with hlt | hge
      · have := le_of_dvd_lt hd hoffset hlt
        omega
      · omega
    obtain ⟨dev', m', hwrite, hcons, hgrown⟩ := @writeLoop_spec B H A
      { dev with uncached := copyTo dev.uncached offset size fun k => user (buff + k) } m buff offset size user
      (size + 1) hpos hoffset hsize
      (Nat.lt_succ_self size) hstart (fun k hk => by
        dsimp only
        rw [copyTo_inside (by omega) (by omega), Nat.add_sub_cancel_left])
    refine ⟨dev', m', ?_, hgrown.block_size, hgrown.uncached, hcons, fun o hd hlo hhi => hcons.cached (hgrown.added o hd hlo hhi)⟩
    rw [writeFunction, if_pos hassert, hwrite]

end Write

/-- An allocator that always takes the memory behind all that is allocated. -/
def bumpAllocator : BlockAllocator (Finset ℕ) where
  allocMemory used size := (used.sup id + 1, Finset.Ico (used.sup id + 1) (used.sup id + 1 + size) ∪ used)
  deallocMemory used bytes size := used \ Finset.Ico bytes (bytes + size)
  used := id
  alloc_fresh used size := by
    rw [Finset.disjoint_left]
    intro x hx hused
    have hle := Finset.le_sup (f := id) hused
    have hlt := (Finset.mem_Ico.mp hx).1
    simp only [id] at hle hlt hused
    omega
  alloc_used _ _ := rfl
  dealloc_used _ _ _ _ := rfl

def unused : CachedBlockDevice ℕ (Finset ℕ) := ⟨512, fun x => x % 256, emptyTable, fun _ => 0, ∅⟩

theorem unused_consistent : Consistent bumpAllocator unused fun _ => none :=
  ⟨⟨∅, emptyTable_inv⟩, by simp, by simp, by simp [unused, bumpAllocator], by simp, by simp⟩

/-- Two blocks are read to a buffer. -/
theorem cached_transfers_unused : ∃ dev' m', readFunction bumpAllocator unused (fun _ => 0) 4096 512 1024 =
      some (copyTo (fun _ => 0) 4096 1024 fun k => (512 + k) % 256, dev') ∧ dev'.uncached = unused.uncached ∧
      Consistent bumpAllocator dev' m' ∧ Cached dev' 512 ∧ Cached dev' 1024 := by
  obtain ⟨⟨dev', m', hread, -, huncached, hcons, hcached⟩, -⟩ :=
    cached_transfers bumpAllocator unused _ (fun _ => 0) 4096 512 1024
    (by decide) (by decide) (by decide) unused_consistent
  exact ⟨dev', m', hread, huncached, hcons, hcached 512 (by decide) (by decide) (by decide),
    hcached 1024 (by decide) (by decide) (by decide)⟩

end SomeOs.Cache
