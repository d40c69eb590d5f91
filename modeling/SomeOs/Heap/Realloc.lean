import SomeOs.Base.ByteStore
import SomeOs.Heap.Conservation

/-! # Changing the size of a block

A block may grow over the free memory around it. Otherwise its contents move to a new
block, which is taken from the free list while a pointer to one of the links of the list
is kept; afterwards the old block is put in the list at that link.
-/
namespace SomeOs.Heap
open Blocks ByteStore Transition

/-- The free blocks before a block, it together with the free memory next to it, and the
free blocks after it. -/
def gatherFree (old_ptr : ℕ) : List Block → Block → List Block × Block × List Block
  | [], free_mem => ([], free_mem, [])
  | current :: next, free_mem =>
    if current.start < free_mem.start then
      if current.start + current.size = old_ptr then
        gatherFree old_ptr next ⟨current.start, free_mem.size + current.size⟩
      else
        let (before, free_mem, rest) := gatherFree old_ptr next free_mem
        (current :: before, free_mem, rest)
    else if free_mem.start + free_mem.size = current.start then
      ([], ⟨free_mem.start, free_mem.size + current.size⟩, next)
    else ([], free_mem, current :: next)

/-- The blocks before and after a link: the head of the list, or the next field of the block
at an address. -/
def atLink : Option ℕ → List Block → Option (List Block × List Block)
  | none, l => some ([], l)
  | some _, [] => none
  | some p, c :: l =>
    if c.start = p then some ([c], l)
    else (atLink (some p) l).map fun (before, rest) => (c :: before, rest)

/-- A store to a link that is not in the list any more goes to the memory where it was. -/
def storeLink (bytes : Store) (link : Option ℕ) (kept : List Block) : Store :=
  match link, kept with
  | some p, k :: _ => write bytes (p + 8) (longBytes k.start)
  | _, _ => bytes

/-- The last case of `reallocMemory`. -/
def moveMemory (alloc : Allocator) (backing : List Allocator) (bytes : Store) (old : Block) (new_size : ℕ) :
    List Block × Block × List Block → Option ℕ × List Allocator × Store
  | (before, free_mem, rest) =>
    match basicAllocMemory ({ alloc with first_free := before ++ rest } :: backing) new_size with
    | (new_ptr, []) => (new_ptr, [], bytes)
    | (new_ptr, alloc :: backing) =>
      let bytes := memmove bytes (new_ptr.getD 0) old.start (min new_size old.size)
      let (kept, backing) := giveBack alloc backing free_mem
      let link := before.getLast?.map Block.start
      match atLink link alloc.first_free with
      | some (before, rest) => (new_ptr, { alloc with first_free := before ++ kept ++ rest } :: backing, bytes)
      | none => (new_ptr, alloc :: backing, storeLink bytes link kept)

def reallocMemory : List Allocator → Store → Block → ℕ → Option ℕ × List Allocator × Store
  | [], bytes, _, _ => (none, [], bytes)
  | alloc :: backing, bytes, old, new_size =>
    if old.size = 0 then
      let (ret, allocs) := allocMemory (alloc :: backing) new_size
      (ret, allocs, bytes)
    else if new_size = 0 then (none, deallocMemory (alloc :: backing) old.start old.size, bytes)
    else
      let (before, free_mem, rest) := gatherFree old.start alloc.first_free old
      if new_size ≤ free_mem.size then
        let bytes := if free_mem.start ≠ old.start then
            memmove bytes free_mem.start old.start (min new_size old.size) else bytes
        if roundUp (new_size + minimumFree) alloc.block_size ≤ free_mem.size then
          let (kept, backing) :=
            giveBack alloc backing ⟨free_mem.start + new_size, free_mem.size - new_size⟩
          (some free_mem.start, { alloc with first_free := before ++ kept ++ rest } :: backing, bytes)
        else (some free_mem.start, { alloc with first_free := before ++ rest } :: backing, bytes)
      else moveMemory alloc backing bytes old new_size (before, free_mem, rest)

def liveAfter (live : List Block) (old : Block) (new_size : ℕ) : Option ℕ → List Block
  | some ptr => live.erase old ++ [⟨ptr, new_size⟩]
  | none => if new_size = 0 then live.erase old else live

structure Memory where
  heap : HeapState
  bytes : Store

inductive MemoryAction where
  | call (act : HeapAction)
  | store (a : ℕ) (v : UInt8)
  | realloc (old : Block) (new_size : ℕ)

def memoryStep (m : Memory) : MemoryAction → Option Memory
  | .call act => (heapStep m.heap act).map fun heap => { m with heap := heap }
  | .store a v => some { m with bytes := Function.update m.bytes a v }
  | .realloc old new_size =>
    match reallocMemory [m.heap.alloc, m.heap.backing] m.bytes old new_size with
    | (ret, [alloc, backing], bytes) => some {
        heap := { m.heap with
          alloc := alloc, backing := backing, owned := obtained m.heap.owned m.heap.backing backing
          live := liveAfter m.heap.live old new_size ret }
        bytes := bytes }
    | _ => none

/-- What a call does for a live block: the contents are in the new block, or the old one
stays. Free lists are in order and apart from the live blocks, no free memory is lost, and
the other blocks keep their contents. -/
structure Reallocated (h : HeapState) (bytes : Store) (old : Block) (new_size : ℕ) (ret : Option ℕ)
    (a' b' : Allocator) (bytes' : Store) : Prop where
  moved : ∀ ptr, ret = some ptr →
    (∀ i < min old.size new_size, bytes' (ptr + i) = bytes (old.start + i)) ∧
      ∀ c ∈ h.live.erase old, Apart c ⟨ptr, new_size⟩
  stays : ret = none → new_size ≠ 0 → ∀ x, old.Has x → bytes' x = bytes x
  sorted : Ordered a'.first_free ∧ Ordered b'.first_free
  large : Large minimumFree a'.first_free
  apart : ∀ x, Covers (liveAfter h.live old new_size ret) x → ¬Covers a'.first_free x ∧ ¬Covers b'.first_free x
  accounted : ∀ x, Covers h.alloc.first_free x →
    Covers a'.first_free x ∨ Covers b'.first_free x ∨ ∃ ptr, ret = some ptr ∧ (⟨ptr, new_size⟩ : Block).Has x
  others : ∀ c ∈ h.live.erase old, ∀ x, c.Has x → bytes' x = bytes x

/-- When pages are given back from the memory, it ends at the end of a page. -/
def EvenEnd (alloc : Allocator) (m : Block) : Prop :=
  ∀ r, tryFreeingOldMemory alloc pageSize m = some r → pageSize ∣ m.stop

/-- The block that holds the link is still in the list after memory was taken from `f`, and
what is left of `f` is not between the link and the old block. -/
def LinkHolds (holder : Option Block) (free f : Block) (left : List Block) : Prop :=
  (∀ c ∈ holder, (c.stop ≤ f.start ∨ f.stop ≤ c.start) ∨ ∃ r ∈ left, r.start = c.start) ∧
    ∀ r ∈ left, free.stop ≤ r.start ∨ ∃ c ∈ holder, r.start ≤ c.start

/-- What is left behind the new size was a part of the old block. -/
def DropsOld (old : Block) (new_size : ℕ) (free : Block) : Prop := old.start ≤ free.start + new_size ∧ free.stop ≤ old.stop

/-- No free bytes are lost, a new block can be allocated if one is needed, and the link to put the
old block at holds. -/
def SteadyAt (h : HeapState) (old : Block) (new_size : ℕ) : List Block × Block × List Block → Prop
  | (before, free, rest) =>
    if new_size = 0 then EvenEnd h.alloc free
    else if new_size ≤ free.size then
      (NoRest h.alloc.block_size new_size free ∨ DropsOld old new_size free) ∧
        (roundUp (new_size + minimumFree) h.alloc.block_size ≤ free.size →
          EvenEnd h.alloc ⟨free.start + new_size, free.size - new_size⟩)
    else ∃ f ∈ takenFrom { h.alloc with first_free := before ++ rest } h.backing new_size,
      NoRest h.alloc.block_size new_size f ∧ EvenEnd h.alloc free ∧
      LinkHolds before.getLast? free f (remainder h.alloc.block_size new_size f)

def Steady (h : HeapState) (old : Block) (new_size : ℕ) : Prop :=
  minimumFree ≤ old.size ∧ SteadyAt h old new_size (gatherFree old.start h.alloc.first_free old)

section Lists
variable {l : List Block} {m : Block} {p : ℕ}

theorem gatherFree_eq (ho : Ordered l) (h : m.start = p ∨ ∀ c ∈ l, m.start ≤ c.start) :
    gatherFree p l m = insertFreeMemory l m := by
  induction l generalizing m with
  | nil => rfl
  | cons c l ih =>
    obtain ⟨hbehind, ho'⟩ := ordered_cons.mp ho
    simp only [gatherFree, insertFreeMemory]
    rcases h with rfl | hall
    · split_ifs with hlt heq
      · rw [Nat.add_comm m.size c.size]
        refine ih ho' (Or.inr fun d hd => ?_)
        have hd := hbehind d hd
        simp only [Block.stop] at hd ⊢
        omega
      · rw [ih ho' (Or.inl rfl)]
      all_goals rfl
    · rw [if_neg (Nat.not_lt.mpr (hall c List.mem_cons_self)), if_neg (Nat.not_lt.mpr (hall c List.mem_cons_self))]

theorem atLink_spec (h : ∃ c ∈ l, c.start = p) :
    ∃ bef c aft, atLink (some p) l = some (bef ++ [c], aft) ∧ l = bef ++ c :: aft ∧ c.start = p := by
  induction l with
  | nil =>
    obtain ⟨c, hc, -⟩ := h
    cases hc
  | cons d l ih =>
    by_cases hd : d.start = p
    · exact ⟨[], d, l, by simp [atLink, hd], rfl, hd⟩
    · obtain ⟨c, hc, hcp⟩ := h
      rcases List.mem_cons.mp hc with rfl | hc
      · exact absurd hcp hd
      · obtain ⟨bef, c', aft, hat, rfl, hc'⟩ := ih ⟨c, hc, hcp⟩
        exact ⟨d :: bef, c', aft, by simp [atLink, hd, hat], rfl, hc'⟩

end Lists

/-- The memory of a block and the free memory are distributed anew. -/
structure Resized (a b a' b' : Allocator) (old nb : Block) (new given : ℕ → Prop) : Prop where
  same : SameBut a a'
  list : FreeList a'
  pages : PageList b'
  new_free : ∀ x, new x → Covers b.first_free x
  special : ∀ x, given x → ¬a.Special x
  backing : ∀ x, Covers b'.first_free x ↔ (Covers b.first_free x ∧ ¬new x) ∨ given x
  pool : ∀ x, nb.Has x ∨ Covers a'.first_free x ∨ given x → Covers a.first_free x ∨ old.Has x ∨ new x
  apart : ∀ x, nb.Has x → ¬Covers a'.first_free x ∧ ¬given x
  apart_given : ∀ x, given x → ¬Covers a'.first_free x
  whole : ∀ x, Covers a.first_free x ∨ new x → nb.Has x ∨ Covers a'.first_free x ∨ given x

section Resized
variable {h : HeapState} {a' b' : Allocator} {old nb : Block} {new given : ℕ → Prop}

theorem HeapInv.old_used (hi : HeapInv h) (hold : old ∈ h.live) {x : ℕ}
    (hx : Covers h.alloc.first_free x ∨ old.Has x) : h.owned x = true ∨ h.alloc.Special x := by
  rcases hx with hx | hx
  · exact hi.used x (Or.inr hx)
  · exact hi.used x (Or.inl ⟨old, hold, hx⟩)

theorem HeapInv.not_pages (hi : HeapInv h) {x : ℕ} (hx : Covers h.backing.first_free x) :
    ¬(h.owned x = true ∨ h.alloc.Special x) := by
  obtain ⟨h1, -, h2⟩ := hi.pages_apart x hx
  exact fun h => h.elim h1 h2

theorem HeapInv.resized_apart (hi : HeapInv h) (hold : old ∈ h.live)
    (hr : Resized h.alloc h.backing a' b' old nb new given) {x : ℕ} (hx : Covers (h.live.erase old) x) :
    ¬nb.Has x ∧ ¬Covers a'.first_free x ∧ ¬given x := by
  obtain ⟨hlive, hnot⟩ := (covers_erase hi.live_apart hold).mp hx
  have hno : ¬(Covers h.alloc.first_free x ∨ old.Has x ∨ new x) := by
    rintro (hfree | hox | hnew)
    · exact hi.live_free x hlive hfree
    · exact hnot hox
    · exact hi.not_pages (hr.new_free x hnew) (hi.used x (Or.inl hlive))
  have hall := fun h => hno (hr.pool x h)
  exact ⟨fun h => hall (Or.inl h), fun h => hall (Or.inr (Or.inl h)), fun h => hall (Or.inr (Or.inr h))⟩

theorem obtained_resized (hi : HeapInv h)
    (hr : Resized h.alloc h.backing a' b' old nb new given) (x : ℕ) :
    obtained h.owned h.backing b' x = true ↔ (h.owned x = true ∨ new x) ∧ ¬given x := by
  have hback := hr.backing x
  have hnew := hr.new_free x
  simp only [obtained]
  by_cases hbx : Covers h.backing.first_free x
  · have howned := (hi.pages_apart x hbx).1
    by_cases hnx : new x
    · by_cases hgx : given x <;> simp [hback, hbx, hnx, hgx]
    · simp [hback, hbx, hnx, howned]
  · have hnx : ¬new x := fun h => hbx (hnew h)
    by_cases hgx : given x <;> simp [hback, hbx, hnx, hgx]

theorem HeapInv.resized (hi : HeapInv h) (hold : old ∈ h.live)
    (hr : Resized h.alloc h.backing a' b' old nb new given) (live : List Block)
    (hlive : live = h.live.erase old ++ [nb] ∨ live = h.live.erase old) :
    HeapInv { h with alloc := a', backing := b', owned := obtained h.owned h.backing b', live := live } := by
  have hown := obtained_resized hi hr
  have hspecial := hr.same.special
  have hcov : ∀ x, Covers live x → Covers (h.live.erase old) x ∨ nb.Has x := by
    intro x hx
    rcases hlive with rfl | rfl
    · simpa using hx
    · exact Or.inl hx
  have hpool : ∀ x, Covers h.alloc.first_free x ∨ old.Has x ∨ new x →
      (h.owned x = true ∨ new x) ∨ h.alloc.Special x := by
    rintro x (hx | hx | hx)
    · exact (hi.old_used hold (Or.inl hx)).imp_left Or.inl
    · exact (hi.old_used hold (Or.inr hx)).imp_left Or.inl
    · exact Or.inl (Or.inr hx)
  refine ⟨hr.list, hr.pages, ?_, fun x hx => ?_, fun x hx => ?_, fun x hx => ?_, fun x hx => ?_⟩
  · have herase : (h.live.erase old).Pairwise Apart := hi.live_apart.sublist List.erase_sublist
    rcases hlive with rfl | rfl
    · refine List.pairwise_append.mpr ⟨herase, List.pairwise_singleton _ _, fun c hc d hd x hx => ?_⟩
      obtain rfl := List.mem_singleton.mp hd
      exact (hi.resized_apart hold hr ⟨c, hc, hx.1⟩).1 hx.2
    · exact herase
  · rcases hcov x hx with hx | hx
    · exact (hi.resized_apart hold hr hx).2.1
    · exact (hr.apart x hx).1
  · simp only [hown, hspecial]
    have hng : ¬given x := by
      rcases hx with hx | hx
      · rcases hcov x hx with hx | hx
        · exact (hi.resized_apart hold hr hx).2.2
        · exact (hr.apart x hx).2
      · exact fun hg => hr.apart_given x hg hx
    have hall : (h.owned x = true ∨ new x) ∨ h.alloc.Special x := by
      rcases hx with hx | hx
      · rcases hcov x hx with hx | hx
        · exact (hi.used x (Or.inl ((covers_erase hi.live_apart hold).mp hx).1)).imp_left Or.inl
        · exact hpool x (hr.pool x (Or.inl hx))
      · exact hpool x (hr.pool x (Or.inr (Or.inl hx)))
    exact hall.imp_left fun h => ⟨h, hng⟩
  · rw [ne_eq, hown, hspecial]
    rcases (hr.backing x).mp hx with ⟨hbx, hnx⟩ | hgx
    · obtain ⟨h1, h2, h3⟩ := hi.pages_apart x hbx
      exact ⟨fun h => h.1.elim h1 hnx, h2, h3⟩
    · refine ⟨fun h => h.2 hgx, fun hheld => ?_, hr.special x hgx⟩
      rcases hr.pool x (Or.inr (Or.inr hgx)) with hfree | hox | hnew
      · exact (hi.old_used hold (Or.inl hfree)).elim (hi.held x hheld).1 (hi.held x hheld).2
      · exact (hi.old_used hold (Or.inr hox)).elim (hi.held x hheld).1 (hi.held x hheld).2
      · exact (hi.pages_apart x (hr.new_free x hnew)).2.1 hheld
  · obtain ⟨h1, h2⟩ := hi.held x hx
    rw [ne_eq, hown, hspecial]
    refine ⟨fun h => h.1.elim h1 fun hnew => ?_, h2⟩
    exact (hi.pages_apart x (hr.new_free x hnew)).2.1 hx

end Resized

section Cases
variable {a b b' : Allocator} {old free : Block} {before rest kept : List Block} {new_size : ℕ}
  {given : ℕ → Prop}

theorem Given.resized {a' : Allocator} (hg : Given a b a' b' old given)
    (heven : EvenEnd a (insertFreeMemory a.first_free old).2.1) :
    Resized a b a' b' old ⟨0, 0⟩ (fun _ => False) given := by
  have hempty : ∀ x, ¬(⟨0, 0⟩ : Block).Has x := by
    intro x hx
    simp [Block.Has, Block.stop] at hx
  refine ⟨hg.same, hg.list, hg.pages, fun x h => h.elim, hg.special, fun x => ?_, fun x hx => ?_,
    fun x hx => absurd hx (hempty x), hg.apart, fun x hx => ?_⟩
  · simp [hg.backing x]
  · have := hg.pool x (hx.resolve_left (hempty x))
    exact this.imp_right Or.inl
  · exact Or.inr (hg.whole heven x (Or.inl (hx.resolve_right fun h => h)))

/-- The block grows over the free memory around it, or shrinks. -/
theorem Parted.resized (hd : Parted a b b' ⟨free.start + new_size, free.size - new_size⟩ kept given)
    (ha : FreeList a) (hspec : Inserted a.first_free old (before, free, rest))
    (hlarge : Large minimumFree (before ++ free :: rest)) (hclear : Clear a.first_free old) (hfit : new_size ≤ free.size)
    (hwhole : ∀ x, (⟨free.start + new_size, free.size - new_size⟩ : Block).Has x → Covers kept x ∨ given x ∨ old.Has x) :
    Resized a b { a with first_free := before ++ kept ++ rest } b' old ⟨free.start, new_size⟩ (fun _ => False)
      given := by
  have hstill : ∀ x, (⟨free.start + new_size, free.size - new_size⟩ : Block).Has x →
      free.Has x ∧ ¬(⟨free.start, new_size⟩ : Block).Has x := by
    intro x hx
    simp only [Block.Has, Block.stop] at *
    omega
  have hnb : ∀ x, (⟨free.start, new_size⟩ : Block).Has x → free.Has x := by
    intro x hx
    simp only [Block.Has, Block.stop] at *
    omega
  have hkept : ∀ x, Covers kept x → free.Has x := fun x hx => (hstill x (hd.kept_inside hx)).1
  have hfree : ∀ x, free.Has x → Covers a.first_free x ∨ old.Has x := by
    intro x hx
    refine (hspec.covers x).mp ?_
    rw [covers_append, covers_cons]
    exact Or.inr (Or.inl hx)
  have hcov := fun x => hspec.ordered.covers_replace (x := x) hkept
  obtain ⟨hlp, hlm⟩ := large_append.mp hlarge
  refine ⟨rfl, ⟨ha.block_size, hspec.ordered.replace hd.ordered fun p hp => ?_, ?_⟩, hd.pages, fun x h => h.elim,
    hd.special, fun x => by simp [hd.backing x], fun x hx => ?_, fun x hx => ⟨fun hx' => ?_, fun hg => ?_⟩,
    fun x hg hx' => ?_, fun x hx => ?_⟩
  · have hin := hd.inside p hp
    simp only [Block.stop] at hin ⊢
    omega
  · exact large_append.mpr ⟨large_append.mpr ⟨hlp, hd.large⟩, (large_cons.mp hlm).2⟩
  · rw [or_false]
    rcases hx with hx | hx | hx
    · exact hfree x (hnb x hx)
    · exact (hspec.covers x).mp ((hcov x).mp hx).1
    · exact hfree x (hstill x (hd.given_inside x hx)).1
  · have hk := ((hcov x).mp hx').2 (hnb x hx)
    exact (hstill x (hd.kept_inside hk)).2 hx
  · exact (hstill x (hd.given_inside x hg)).2 hx
  · have hk := ((hcov x).mp hx').2 (hstill x (hd.given_inside x hg)).1
    exact hd.apart x hk hg
  · rw [or_false] at hx
    have hx' := (hspec.covers x).mpr (Or.inl hx)
    by_cases hfx : free.Has x
    · by_cases hnx : (⟨free.start, new_size⟩ : Block).Has x
      · exact Or.inl hnx
      · have hsx : (⟨free.start + new_size, free.size - new_size⟩ : Block).Has x := by
          simp only [Block.Has, Block.stop] at *
          omega
        rcases hwhole x hsx with hk | hg | hold
        · exact Or.inr (Or.inl ((hcov x).mpr ⟨hx', fun _ => hk⟩))
        · exact Or.inr (Or.inr hg)
        · exact absurd hx (hclear x hold)
    · exact Or.inr (Or.inl ((hcov x).mpr ⟨hx', fun h => absurd h hfx⟩))

end Cases

section Move
variable {a b b' : Allocator} {free f : Block} {before rest pre rest' : List Block} {new_size : ℕ}
  {new : ℕ → Prop}

/-- The list after an allocation is in order around the link. -/
theorem link_order {l : List Block} {holder : Option Block} (ho : Ordered l) (hl : Large 1 l)
    (hfree : 0 < free.size) (hclear : Clear l free)
    (hholder : ∀ c ∈ holder, c.start < free.start ∧ ∃ c' ∈ l, c'.start = c.start)
    (hbehind : ∀ d ∈ l, free.stop ≤ d.start ∨ ∃ c ∈ holder, d.start ≤ c.start) :
    ∃ bef aft, atLink (holder.map Block.start) l = some (bef, aft) ∧ l = bef ++ aft ∧
      Ordered (bef ++ free :: aft) := by
  cases holder with
  | none =>
    refine ⟨[], l, by simp [atLink], rfl, ordered_cons.mpr ⟨fun d hd => ?_, ho⟩⟩
    rcases hbehind d hd with h | ⟨c, hc, -⟩
    · exact h
    · cases hc
  | some c =>
    obtain ⟨hlt, hmem⟩ := hholder c rfl
    obtain ⟨bef, c', aft, hat, rfl, hc'⟩ := atLink_spec hmem
    refine ⟨bef ++ [c'], aft, hat, by simp, ?_⟩
    obtain ⟨hob, hoc, hacross⟩ := ordered_append.mp ho
    obtain ⟨hca, hoa⟩ := ordered_cons.mp hoc
    have hposc : 0 < c'.size := hl c' (by simp)
    have hfirst : ∀ d ∈ bef ++ [c'], d.stop ≤ free.start := by
      intro d hd
      have hdl : d ∈ bef ++ c' :: aft := by
        simp only [List.mem_append, List.mem_cons] at hd ⊢
        tauto
      have hdstart : d.start ≤ c.start := by
        rcases List.mem_append.mp hd with hd | hd
        · have := hacross d hd c' List.mem_cons_self
          simp only [Block.stop] at this
          omega
        · obtain rfl := List.mem_singleton.mp hd
          exact le_of_eq hc'
      have hcases := (hclear.apart hdl).before_or_after hfree (hl d hdl)
      simp only [Block.stop] at hcases ⊢
      omega
    have hlast : ∀ d ∈ aft, free.stop ≤ d.start := by
      intro d hd
      have hcd := hca d hd
      rcases hbehind d (by simp [hd]) with h | ⟨e, he, hde⟩
      · exact h
      · obtain rfl : c = e := Option.some.inj he
        simp only [Block.stop] at hcd
        omega
    rw [ordered_append]
    refine ⟨?_, ordered_cons.mpr ⟨hlast, hoa⟩, fun d hd e he => ?_⟩
    · rw [ordered_append]
      exact ⟨hob, ordered_cons.mpr ⟨by simp, ordered_nil⟩, fun d hd e he => by
        obtain rfl := List.mem_singleton.mp he
        exact hacross d hd e List.mem_cons_self⟩
    · rcases List.mem_cons.mp he with rfl | he
      · exact hfirst d hd
      · have h1 := hfirst d hd
        have h2 := hlast e he
        simp only [Block.stop] at h1 h2 ⊢
        omega

/-- The list that memory was taken from is in order around the link. -/
theorem Pool.link_order {a₀ : Allocator} (hp : Pool a₀ b b' new_size pre f rest' new) (ha : FreeList a₀)
    (hlist : a₀.first_free = before ++ rest) (ho : Ordered (before ++ free :: rest)) (hsize : 0 < free.size)
    (hclear : Clear (pre ++ remainder a₀.block_size new_size f ++ rest') free)
    (hlink : LinkHolds before.getLast? free f (remainder a₀.block_size new_size f)) :
    ∃ bef aft, atLink (before.getLast?.map Block.start) (pre ++ remainder a₀.block_size new_size f ++ rest') =
        some (bef, aft) ∧ pre ++ remainder a₀.block_size new_size f ++ rest' = bef ++ aft ∧
      Ordered (bef ++ free :: aft) := by
  have ht := hp.taken_of ha
  have hl1 : Large 1 (pre ++ remainder a₀.block_size new_size f ++ rest') := ht.list.large.mono (by decide)
  obtain ⟨hob, hor, hacross⟩ := ordered_append.mp ho
  obtain ⟨hrest, -⟩ := ordered_cons.mp hor
  have hold : ∀ d ∈ before ++ rest, 0 < d.size := by
    intro d hd
    have := ha.large d (hlist ▸ hd)
    simp only [minimumFree] at this
    omega
  refine Heap.link_order ht.list.ordered hl1 hsize hclear (fun c hc => ?_) fun d hd => ?_
  · have hcb : c ∈ before := List.mem_of_getLast? hc
    have hcs : 0 < c.size := hold c (List.mem_append_left _ hcb)
    constructor
    · have := hacross c hcb free List.mem_cons_self
      simp only [Block.stop] at this
      omega
    · rcases hlink.1 c hc with hout | ⟨r, hr, hrc⟩
      · refine ⟨c, ?_, rfl⟩
        rcases hp.merged c (hlist ▸ List.mem_append_left _ hcb) with hmem | hin
        · simp only [List.mem_append] at hmem ⊢
          tauto
        · simp only [Block.stop] at hout hin
          omega
      · exact ⟨r, by simp [hr], hrc⟩
  · have hcases : d ∈ pre ++ rest' ∨ d ∈ remainder a₀.block_size new_size f := by
      simp only [List.mem_append] at hd ⊢
      tauto
    rcases hcases with hd | hd
    · have hd := hp.old d hd
      rw [hlist] at hd
      rcases List.mem_append.mp hd with hd | hd
      · -- a block before the link starts at the last of them or before it
        right
        obtain ⟨c, hc⟩ : ∃ c, before.getLast? = some c := by
          cases hlast : before.getLast? with
          | none =>
            rw [List.getLast?_eq_none_iff.mp hlast] at hd
            cases hd
          | some c => exact ⟨c, rfl⟩
        refine ⟨c, hc, ?_⟩
        obtain ⟨init, rfl⟩ := List.getLast?_eq_some_iff.mp hc
        rcases List.mem_append.mp hd with hd | hd
        · have := (ordered_append.mp hob).2.2 d hd c List.mem_cons_self
          simp only [Block.stop] at this
          omega
        · obtain rfl := List.mem_singleton.mp hd
          exact le_refl _
      · exact Or.inl (hrest d hd)
    · exact hlink.2 d hd

variable {h : HeapState} {old : Block} {bytes : Store}

variable (bytes) in
/-- The contents move to a new block, and the old one is put in the list. -/
theorem moveMemory_spec (hi : HeapInv h) (hold : old ∈ h.live)
    (hspec : Inserted h.alloc.first_free old (before, free, rest))
    (hlarge : Large minimumFree (before ++ free :: rest)) (hpos : 0 < new_size)
    (htaken : takenFrom { h.alloc with first_free := before ++ rest } h.backing new_size = some f)
    (hrest : NoRest h.alloc.block_size new_size f) (heven : EvenEnd h.alloc free)
    (hlink : LinkHolds before.getLast? free f (remainder h.alloc.block_size new_size f)) :
    ∃ ptr a' b' new given, moveMemory h.alloc [h.backing] bytes old new_size (before, free, rest) =
        (some ptr, [a', b'], memmove bytes ptr old.start (min new_size old.size)) ∧
      Resized h.alloc h.backing a' b' old ⟨ptr, new_size⟩ new given := by
  obtain ⟨hlb, hlf⟩ := large_append.mp hlarge
  obtain ⟨hfsize, hlr⟩ := large_cons.mp hlf
  have hcovers : ∀ x, Covers (before ++ rest) x ∨ free.Has x ↔ Covers h.alloc.first_free x ∨ old.Has x := by
    intro x
    rw [← hspec.covers x]
    simp only [covers_append, covers_cons]
    tauto
  have hused : ∀ x, Covers (before ++ rest) x ∨ free.Has x → h.owned x = true ∨ h.alloc.Special x := fun x hx =>
    hi.old_used hold ((hcovers x).mp hx)
  have ha : FreeList { h.alloc with first_free := before ++ rest } := by
    refine ⟨hi.list.block_size, ?_, large_append.mpr ⟨hlb, hlr⟩⟩
    simpa using hspec.ordered.replace ordered_nil (by simp)
  rcases basicAllocMemory_spec ha hi.pages hpos (fun x hbx hx => hi.not_pages hbx (hused x (Or.inl hx))) with
    ⟨-, hnone⟩ | ⟨pre, f', rest', b₁, new, hsome, hp⟩
  · rw [htaken] at hnone
    cases hnone
  obtain rfl : f = f' := Option.some.inj (htaken.symm.trans hp.taken)
  have ht := hp.taken_of ha
  -- the old block is apart from what was taken and from what is left
  have hfree : ∀ x, free.Has x → ¬(Covers (before ++ rest) x ∨ new x) := by
    rintro x hx (hcov | hnew)
    · obtain ⟨h1, h2⟩ := hspec.ordered.not_covers hx
      exact (covers_append.mp hcov).elim h1 h2
    · exact hi.not_pages (ht.new_free x hnew) (hused x (Or.inr hx))
  have hclear : Clear (pre ++ remainder h.alloc.block_size new_size f ++ rest') free := fun x hx hcov =>
    hfree x hx (ht.pool x (Or.inr hcov))
  obtain ⟨bef, aft, hat, hsplit, horder⟩ := hp.link_order ha rfl hspec.ordered
    (Nat.lt_of_lt_of_le (by decide) hfsize) hclear hlink
  obtain ⟨kept, b', given, hgive, hd⟩ := giveBack_spec
    (a := { h.alloc with first_free := pre ++ remainder h.alloc.block_size new_size f ++ rest' }) hp.pages hfsize
    (fun x hbx hx => hi.not_pages ((hp.backing x).mp hbx).1 (hused x (Or.inr hx)))
  have hcov' : ∀ x, Covers (bef ++ kept ++ aft) x ↔
      Covers (pre ++ remainder h.alloc.block_size new_size f ++ rest') x ∨ Covers kept x := by
    intro x
    rw [hsplit]
    simp only [covers_append]
    tauto
  refine ⟨f.start, { h.alloc with first_free := bef ++ kept ++ aft }, b', new, given, ?_, rfl,
    ⟨hi.list.block_size, horder.replace hd.ordered hd.inside, ?_⟩, hd.pages, ht.new_free, hd.special, fun x => ?_,
    fun x hx => ?_, fun x hx => ⟨fun hx' => ?_, fun hg => ?_⟩, fun x hg hx' => ?_, fun x hx => ?_⟩
  · simp only [moveMemory, hsome, hgive, hat, Option.getD_some]
  · have hl1 := ht.list.large
    simp only [hsplit] at hl1
    obtain ⟨h1, h2⟩ := large_append.mp hl1
    exact large_append.mpr ⟨large_append.mpr ⟨h1, hd.large⟩, h2⟩
  · rw [hd.backing, hp.backing]
  · have hpool : (Covers (before ++ rest) x ∨ new x) ∨ free.Has x := by
      rcases hx with hx | hx | hx
      · exact Or.inl (ht.pool x (Or.inl hx))
      · rcases (hcov' x).mp hx with hx | hx
        · exact Or.inl (ht.pool x (Or.inr hx))
        · exact Or.inr (hd.kept_inside hx)
      · exact Or.inr (hd.given_inside x hx)
    have := hcovers x
    tauto
  · rcases (hcov' x).mp hx' with hx' | hx'
    · exact ht.apart x hx hx'
    · exact hfree x (hd.kept_inside hx') (ht.pool x (Or.inl hx))
  · exact hfree x (hd.given_inside x hg) (ht.pool x (Or.inl hx))
  · rcases (hcov' x).mp hx' with hx' | hx'
    · exact hclear x (hd.given_inside x hg) hx'
    · exact hd.apart x hx' hg
  · have hnorest : ∀ g, takenFrom { h.alloc with first_free := before ++ rest } h.backing new_size = some g →
        NoRest h.alloc.block_size new_size g := by
      intro g hg
      obtain rfl : f = g := Option.some.inj (htaken.symm.trans hg)
      exact hrest
    have hcases : (Covers (before ++ rest) x ∨ new x) ∨ free.Has x := by
      have := hcovers x
      tauto
    rcases hcases with hx | hx
    · rcases ht.whole hnorest x hx with hx | hx
      · exact Or.inl hx
      · exact Or.inr (Or.inl ((hcov' x).mpr (Or.inl hx)))
    · rcases hd.whole heven x hx with hx | hx
      · exact Or.inr (Or.inl ((hcov' x).mpr (Or.inr hx)))
      · exact Or.inr (Or.inr hx)

variable (bytes) in
/-- A call for a live block, in a state and with a size that meet the condition. -/
theorem reallocMemory_spec (hi : HeapInv h) (hold : old ∈ h.live) (hs : Steady h old new_size) :
    ∃ ret a' b' bytes' ptr new given,
      reallocMemory [h.alloc, h.backing] bytes old new_size = (ret, [a', b'], bytes') ∧
      Resized h.alloc h.backing a' b' old ⟨ptr, new_size⟩ new given ∧
      ((ret = none ∧ new_size = 0 ∧ bytes' = bytes) ∨
        ret = some ptr ∧ new_size ≠ 0 ∧ (∀ i < min old.size new_size, bytes' (ptr + i) = bytes (old.start + i)) ∧
        ∀ x, ¬(⟨ptr, new_size⟩ : Block).Has x → bytes' x = bytes x) := by
  obtain ⟨hsize, hcond⟩ := hs
  have hpos : 0 < old.size := Nat.lt_of_lt_of_le (by decide) hsize
  have hclear : Clear h.alloc.first_free old := fun x hx => hi.live_free x ⟨old, hold, hx⟩
  have hgather := gatherFree_eq (p := old.start) hi.list.ordered (Or.inl rfl)
  have hspec := insertFreeMemory_spec hi.list.ordered (hi.list.large.mono (by decide)) hpos hclear
  have hlarge := hspec.large _ hi.list.large hsize
  rw [hgather] at hcond
  generalize hr : insertFreeMemory h.alloc.first_free old = r at hcond hgather hspec hlarge
  obtain ⟨before, free, rest⟩ := r
  have hfused : ∀ x, Covers h.backing.first_free x → ¬free.Has x := by
    intro x hbx hx
    refine hi.not_pages hbx (hi.old_used hold ((hspec.covers x).mp ?_))
    rw [covers_append, covers_cons]
    exact Or.inr (Or.inl hx)
  have hmove : ∀ {ptr x : ℕ}, ¬(⟨ptr, new_size⟩ : Block).Has x →
      memmove bytes ptr old.start (min new_size old.size) x = bytes x := by
    intro ptr x hx
    apply memmove_outside
    simp only [Block.Has, Block.stop] at hx
    omega
  have hcopy : ∀ {ptr i : ℕ}, i < min old.size new_size →
      memmove bytes ptr old.start (min new_size old.size) (ptr + i) = bytes (old.start + i) := by
    intro ptr i hlt
    exact memmove_inside (by rwa [Nat.min_comm])
  simp only [SteadyAt] at hcond
  by_cases h0 : new_size = 0
  · rw [if_pos h0] at hcond
    obtain ⟨a', b', given, hde, hg⟩ := deallocMemory_spec hi.list hi.pages hsize hclear (fun x hbx =>
      ⟨fun hx => hi.not_pages hbx (hi.used x (Or.inr hx)),
        fun hx => hi.not_pages hbx (hi.used x (Or.inl ⟨old, hold, hx⟩))⟩)
    refine ⟨none, a', b', bytes, 0, fun _ => False, given, ?_, ?_, Or.inl ⟨rfl, h0, rfl⟩⟩
    · simp only [reallocMemory, if_neg (Nat.ne_of_gt hpos), if_pos h0, hde]
    · rw [h0]
      exact hg.resized (by rw [hr]; exact hcond)
  rw [if_neg h0] at hcond
  by_cases hfit : new_size ≤ free.size
  · rw [if_pos hfit] at hcond
    obtain ⟨hrest, heven⟩ := hcond
    -- the contents are where the block starts now
    have hbytes : ∀ bytes', bytes' = (if free.start ≠ old.start then
        memmove bytes free.start old.start (min new_size old.size) else bytes) →
        (∀ i < min old.size new_size, bytes' (free.start + i) = bytes (old.start + i)) ∧
          ∀ x, ¬(⟨free.start, new_size⟩ : Block).Has x → bytes' x = bytes x := by
      intro bytes' hb
      by_cases heq : free.start = old.start
      · rw [if_neg (not_not.mpr heq)] at hb
        rw [hb, heq]
        exact ⟨fun i _ => rfl, fun x _ => rfl⟩
      · rw [if_pos heq] at hb
        rw [hb]
        exact ⟨fun i hlt => hcopy hlt, fun x hx => hmove hx⟩
    by_cases hroom : roundUp (new_size + minimumFree) h.alloc.block_size ≤ free.size
    · have hround := le_roundUp (n := new_size + minimumFree) hi.list.block_size
      obtain ⟨kept, b', given, hgive, hd⟩ := giveBack_spec (a := h.alloc)
        (m := ⟨free.start + new_size, free.size - new_size⟩) hi.pages (by simp only; omega) (fun x hbx hx => by
          refine hfused x hbx ?_
          simp only [Block.Has, Block.stop] at hx ⊢
          omega)
      have hres := hd.resized hi.list hspec hlarge hclear hfit fun x hx => (hd.whole (heven hroom) x hx).imp_right Or.inl
      refine ⟨some free.start, _, b', _, free.start, _, given, ?_, hres, Or.inr ⟨rfl, h0, hbytes _ rfl⟩⟩
      simp only [reallocMemory, if_neg (Nat.ne_of_gt hpos), if_neg h0, hgather, if_pos hfit, if_pos hroom, hgive]
    · have hdropped : ∀ x, (⟨free.start + new_size, free.size - new_size⟩ : Block).Has x → old.Has x := by
        intro x hx
        simp only [NoRest, DropsOld, Block.Has, Block.stop] at hrest hx ⊢
        omega
      have hd : Parted h.alloc h.backing h.backing ⟨free.start + new_size, free.size - new_size⟩ []
          (fun _ => False) :=
        ⟨ordered_nil, by simp, large_nil, hi.pages, fun x h => h.elim, fun x h => h.elim, fun x _ h => h, by simp⟩
      have hres := hd.resized hi.list hspec hlarge hclear hfit fun x hx => Or.inr (Or.inr (hdropped x hx))
      rw [List.append_nil] at hres
      refine ⟨some free.start, _, h.backing, _, free.start, _, _, ?_, hres, Or.inr ⟨rfl, h0, hbytes _ rfl⟩⟩
      simp only [reallocMemory, if_neg (Nat.ne_of_gt hpos), if_neg h0, hgather, if_pos hfit, if_neg hroom]
  · rw [if_neg hfit] at hcond
    obtain ⟨f, htaken, hrest, heven, hlink⟩ := hcond
    obtain ⟨ptr, a', b', new, given, hmv, hres⟩ := moveMemory_spec bytes hi hold hspec hlarge
      (Nat.pos_of_ne_zero h0) htaken hrest heven hlink
    refine ⟨some ptr, a', b', _, ptr, new, given, ?_, hres,
      Or.inr ⟨rfl, h0, fun i hlt => hcopy hlt, fun x hx => hmove hx⟩⟩
    simp only [reallocMemory, if_neg (Nat.ne_of_gt hpos), if_neg h0, hgather, if_neg hfit, hmv]

end Move

def MemoryEnabled (m : Memory) : MemoryAction → Prop
  | .call act => Enabled m.heap act
  | .store a _ => Covers m.heap.live a
  | .realloc old new_size => old ∈ m.heap.live ∧ new_size % m.heap.alloc.block_size = 0

def Careful (m : Memory) (act : MemoryAction) : Prop :=
  MemoryEnabled m act ∧
    match act with
    | .realloc old new_size => Steady m.heap old new_size
    | _ => True

def kallocActualSizeFor (user_size : ℕ) : ℕ :=
  max (roundDown ((user_size + 8 + 8 - 1) % 2 ^ 64) 8) minimumFree

def kalloc (allocs : List Allocator) (bytes : Store) (size : ℕ) : Option ℕ × List Allocator × Store :=
  if size = 0 then (none, allocs, bytes)
  else
    match allocMemory allocs (kallocActualSizeFor size) with
    | (some res, allocs) => (some (res + 8), allocs, write bytes res (longBytes (kallocActualSizeFor size)))
    | (none, allocs) => (none, allocs, bytes)

def dealloc (allocs : List Allocator) (bytes : Store) : Option ℕ → List Allocator
  | some ptr => deallocMemory allocs (ptr - 8) (readLong bytes (ptr - 8))
  | none => allocs

def krealloc (allocs : List Allocator) (bytes : Store) (ptr : Option ℕ) (size : ℕ) :
    Option ℕ × List Allocator × Store :=
  if size = 0 then (none, dealloc allocs bytes ptr, bytes)
  else
    match ptr with
    | none => kalloc allocs bytes size
    | some ptr =>
      match reallocMemory allocs bytes ⟨ptr - 8, readLong bytes (ptr - 8)⟩ (kallocActualSizeFor size) with
      | (some res, allocs, bytes) =>
        (some (res + 8), allocs, write bytes res (longBytes (kallocActualSizeFor size)))
      | (none, allocs, bytes) => (none, allocs, bytes)

section Runs
variable {s h : HeapState} {m m' : Memory} {old : Block} {new_size size : ℕ} {bytes : Store} {act : MemoryAction}
  {acts : List MemoryAction}

variable (bytes) in
theorem reallocMemory_reallocated (hi : HeapInv h) (hold : old ∈ h.live) (hs : Steady h old new_size) :
    ∃ ret a' b' bytes', reallocMemory [h.alloc, h.backing] bytes old new_size = (ret, [a', b'], bytes') ∧
      Reallocated h bytes old new_size ret a' b' bytes' ∧
      (new_size ≠ 0 → ret ≠ none) ∧
      HeapInv { h with alloc := a', backing := b', owned := obtained h.owned h.backing b'
                       live := liveAfter h.live old new_size ret } := by
  obtain ⟨ret, a', b', bytes', ptr, new, given, heq, hres, hout⟩ := reallocMemory_spec bytes hi hold hs
  have hlive : liveAfter h.live old new_size ret = h.live.erase old ++ [⟨ptr, new_size⟩] ∨
      liveAfter h.live old new_size ret = h.live.erase old := by
    rcases hout with ⟨rfl, h0, -⟩ | ⟨rfl, -⟩
    · exact Or.inr (if_pos h0)
    · exact Or.inl rfl
  have hinv := hi.resized hold hres _ hlive
  refine ⟨ret, a', b', bytes', heq, ⟨?_, ?_, ⟨hres.list.ordered, hres.pages.ordered⟩, hres.list.large, ?_, ?_, ?_⟩,
    ?_, hinv⟩
  · rintro p rfl
    rcases hout with ⟨hnone, -⟩ | ⟨hsome, -, hcopy, -⟩
    · cases hnone
    · obtain rfl := Option.some.inj hsome
      exact ⟨hcopy, fun c hc x hx => (hi.resized_apart hold hres ⟨c, hc, hx.1⟩).1 hx.2⟩
  · rintro rfl hne
    rcases hout with ⟨-, h0, -⟩ | ⟨hsome, -⟩
    · exact absurd h0 hne
    · cases hsome
  · intro x hx
    exact ⟨hinv.live_free x hx, fun hb => hinv.not_pages hb (hinv.used x (Or.inl hx))⟩
  · intro x hx
    rcases hres.whole x (Or.inl hx) with hnb | ha | hg
    · rcases hout with ⟨-, h0, -⟩ | ⟨hsome, -⟩
      · simp only [Block.Has, Block.stop, h0] at hnb
        omega
      · exact Or.inr (Or.inr ⟨ptr, hsome, hnb⟩)
    · exact Or.inl ha
    · exact Or.inr (Or.inl ((hres.backing x).mpr (Or.inr hg)))
  · intro c hc x hx
    rcases hout with ⟨-, -, hsame⟩ | ⟨-, -, -, hframe⟩
    · rw [hsame]
    · exact hframe x (hi.resized_apart hold hres ⟨c, hc, hx⟩).1
  · rintro hne rfl
    rcases hout with ⟨-, h0, -⟩ | ⟨hsome, -⟩
    · exact hne h0
    · cases hsome

theorem memoryStep_inv (hi : HeapInv m.heap) (hc : Careful m act) (hstep : memoryStep m act = some m') :
    HeapInv m'.heap := by
  cases act with
  | call act =>
    obtain ⟨heap, hheap, rfl⟩ := Option.map_eq_some_iff.mp hstep
    exact (heapStep_inv hi hc.1 hheap).2
  | store a v =>
    cases hstep
    exact hi
  | realloc old new_size =>
    obtain ⟨ret, a', b', bytes', heq, -, -, hinv⟩ := reallocMemory_reallocated m.bytes hi hc.1.1 hc.2
    simp only [memoryStep, heq, Option.some.injEq] at hstep
    subst hstep
    exact hinv

theorem kallocActualSizeFor_spec (hsize : size + 15 < 2 ^ 64) :
    size + 8 ≤ kallocActualSizeFor size ∧ kallocActualSizeFor size < 2 ^ 64 ∧ kallocActualSizeFor size ≠ 0 := by
  simp only [kallocActualSizeFor, roundDown, minimumFree]
  omega

/-- What a call for memory of the kernel does for the bytes behind the size of the block. -/
structure Krealloced (h : HeapState) (bytes : Store) (old : Block) (size ptr : ℕ) (a' b' : Allocator)
    (bytes' : Store) : Prop where
  room : size + 8 ≤ kallocActualSizeFor size
  header : readLong bytes' ptr = kallocActualSizeFor size
  contents : ∀ i < min (old.size - 8) size, bytes' (ptr + 8 + i) = bytes (old.start + 8 + i)
  others : ∀ c ∈ h.live.erase old, Apart c ⟨ptr, kallocActualSizeFor size⟩ ∧ ∀ x, c.Has x → bytes' x = bytes x
  sorted : Ordered a'.first_free ∧ Ordered b'.first_free
  apart : ∀ x, Covers (h.live.erase old ++ [⟨ptr, kallocActualSizeFor size⟩]) x →
    ¬Covers a'.first_free x ∧ ¬Covers b'.first_free x
  accounted : ∀ x, Covers h.alloc.first_free x → Covers a'.first_free x ∨ Covers b'.first_free x ∨
    (⟨ptr, kallocActualSizeFor size⟩ : Block).Has x

theorem krealloc_spec (hi : HeapInv h) (hold : old ∈ h.live) (hheader : readLong bytes old.start = old.size)
    (hpos : size ≠ 0) (hsize : size + 15 < 2 ^ 64) (hs : Steady h old (kallocActualSizeFor size)) :
    ∃ ptr a' b' bytes', krealloc [h.alloc, h.backing] bytes (some (old.start + 8)) size =
        (some (ptr + 8), [a', b'], bytes') ∧ Krealloced h bytes old size ptr a' b' bytes' := by
  obtain ⟨hroom, hlt, hne⟩ := kallocActualSizeFor_spec hsize
  obtain ⟨ret, a', b', bytes', heq, hr, hsome, -⟩ := reallocMemory_reallocated bytes hi hold hs
  obtain ⟨ptr, rfl⟩ := Option.ne_none_iff_exists'.mp (hsome hne)
  obtain ⟨hcopy, hapart⟩ := hr.moved ptr rfl
  refine ⟨ptr, a', b', write bytes' ptr (longBytes (kallocActualSizeFor size)), ?_, hroom, readLong_write hlt,
    fun i hlt => ?_, fun c hc => ⟨hapart c hc, fun x hx => ?_⟩, hr.sorted, hr.apart, fun x hx => ?_⟩
  · simp only [krealloc, if_neg hpos, Nat.add_sub_cancel, hheader, heq]
  · rw [write_outside (Or.inr (by rw [longBytes_length]; omega)), Nat.add_assoc, Nat.add_assoc]
    exact hcopy (8 + i) (by omega)
  · have hnot : ¬(⟨ptr, kallocActualSizeFor size⟩ : Block).Has x := fun h => hapart c hc x ⟨hx, h⟩
    rw [write_outside, hr.others c hc x hx]
    simp only [Block.Has, Block.stop] at hnot
    rw [longBytes_length]
    omega
  · rcases hr.accounted x hx with h | h | ⟨p, hp, h⟩
    · exact Or.inl h
    · exact Or.inr (Or.inl h)
    · obtain rfl := Option.some.inj hp
      exact Or.inr (Or.inr h)

/-- In every state that is reached by calls that meet the condition, such a call does what
it should for every live block and every size. -/
theorem runs_realloc_safe (hs : Start s) (hr : Runs memoryStep Careful ⟨s, bytes⟩ acts m) :
    (∀ old new_size, Careful m (.realloc old new_size) →
      ∃ ret a' b' bytes', reallocMemory [m.heap.alloc, m.heap.backing] m.bytes old new_size =
          (ret, [a', b'], bytes') ∧ Reallocated m.heap m.bytes old new_size ret a' b' bytes') ∧
    ∀ old size, old ∈ m.heap.live → readLong m.bytes old.start = old.size → size ≠ 0 → size + 15 < 2 ^ 64 →
      Steady m.heap old (kallocActualSizeFor size) →
      ∃ ptr a' b' bytes', krealloc [m.heap.alloc, m.heap.backing] m.bytes (some (old.start + 8)) size =
          (some (ptr + 8), [a', b'], bytes') ∧ Krealloced m.heap m.bytes old size ptr a' b' bytes' := by
  have hi : HeapInv m.heap := hr.invariant (I := fun m : Memory => HeapInv m.heap)
    (fun m act m' hi hc hstep => memoryStep_inv hi hc hstep) hs.inv
  constructor
  · intro old new_size hc
    obtain ⟨ret, a', b', bytes', heq, hre, -⟩ := reallocMemory_reallocated m.bytes hi hc.1.1 hc.2
    exact ⟨ret, a', b', bytes', heq, hre⟩
  · intro old size hold hheader hpos hsize hst
    exact krealloc_spec hi hold hheader hpos hsize hst

end Runs

instance (alloc : Allocator) (m : Block) : Decidable (EvenEnd alloc m) :=
  inferInstanceAs (Decidable (∀ r ∈ tryFreeingOldMemory alloc pageSize m, pageSize ∣ m.stop))

instance (holder : Option Block) (free f : Block) (left : List Block) : Decidable (LinkHolds holder free f left) :=
  inferInstanceAs (Decidable (_ ∧ _))

instance (old : Block) (new_size : ℕ) (free : Block) : Decidable (DropsOld old new_size free) :=
  inferInstanceAs (Decidable (_ ∧ _))

instance decidableSteadyAt (h : HeapState) (old : Block) (new_size : ℕ) :
    (r : List Block × Block × List Block) → Decidable (SteadyAt h old new_size r)
  | (before, free, rest) => inferInstanceAs (Decidable (
    if new_size = 0 then EvenEnd h.alloc free
    else if new_size ≤ free.size then
      (NoRest h.alloc.block_size new_size free ∨ DropsOld old new_size free) ∧
        (roundUp (new_size + minimumFree) h.alloc.block_size ≤ free.size →
          EvenEnd h.alloc ⟨free.start + new_size, free.size - new_size⟩)
    else ∃ f ∈ takenFrom { h.alloc with first_free := before ++ rest } h.backing new_size,
      NoRest h.alloc.block_size new_size f ∧ EvenEnd h.alloc free ∧
      LinkHolds before.getLast? free f (remainder h.alloc.block_size new_size f)))

instance (h : HeapState) (old : Block) (new_size : ℕ) : Decidable (Steady h old new_size) :=
  inferInstanceAs (Decidable (_ ∧ _))

instance decidableMemoryEnabled (m : Memory) : (act : MemoryAction) → Decidable (MemoryEnabled m act)
  | .call act => inferInstanceAs (Decidable (Enabled m.heap act))
  | .store a _ => inferInstanceAs (Decidable (Covers m.heap.live a))
  | .realloc old new_size =>
    inferInstanceAs (Decidable (old ∈ m.heap.live ∧ new_size % m.heap.alloc.block_size = 0))

instance decidableCareful (m : Memory) : (act : MemoryAction) → Decidable (Careful m act)
  | .call act => inferInstanceAs (Decidable (MemoryEnabled m (.call act) ∧ True))
  | .store a v => inferInstanceAs (Decidable (MemoryEnabled m (.store a v) ∧ True))
  | .realloc old new_size =>
    inferInstanceAs (Decidable (MemoryEnabled m (.realloc old new_size) ∧ Steady m.heap old new_size))

def kernelMemory : Memory := ⟨kernelHeap, fun _ => 0⟩

/-- A block with another one behind it is cut to 16 bytes, which loses 8 of its bytes, and then has to move to grow. -/
theorem runs_realloc_safe_moves :
    ∃ m, execOk memoryStep Careful kernelMemory
      [.call (.alloc 24), .call (.alloc 16), .store 16390 7, .realloc ⟨16384, 24⟩ 16] = some m ∧
      ∃ ret a' b' bytes', reallocMemory [m.heap.alloc, m.heap.backing] m.bytes ⟨16384, 16⟩ 64 =
          (ret, [a', b'], bytes') ∧ Reallocated m.heap m.bytes ⟨16384, 16⟩ 64 ret a' b' bytes' := by
  have hsome : (execOk memoryStep Careful kernelMemory
      [.call (.alloc 24), .call (.alloc 16), .store 16390 7, .realloc ⟨16384, 24⟩ 16]).map
      (fun m => decide (Careful m (.realloc ⟨16384, 16⟩ 64))) = some true := by
    decide
  obtain ⟨m, hm, hc⟩ := Option.map_eq_some_iff.mp hsome
  exact ⟨m, hm, (runs_realloc_safe kernelHeap_start (.of_execOk hm)).1 _ _ (of_decide_eq_true hc)⟩

/-- A free block of 512 bytes, a live one, and then a block of 24 bytes with a live one
behind it. -/
def freeBlockBefore : List MemoryAction :=
  [.call (.alloc 512), .call (.alloc 16), .call (.alloc 24), .call (.alloc 16), .call (.dealloc ⟨16384, 512⟩)]

/-- When there is not enough memory the old block is released nevertheless, and when the new
block is taken from the one before the link the address of the old one is stored in it. -/
theorem realloc_not_safe :
    (∃ m, execOk memoryStep MemoryEnabled kernelMemory [.call (.alloc 24), .call (.alloc 16)] = some m ∧
      MemoryEnabled m (.realloc ⟨16384, 24⟩ (100 * pageSize)) ∧
      ∀ ret a' b' bytes', reallocMemory [m.heap.alloc, m.heap.backing] m.bytes ⟨16384, 24⟩ (100 * pageSize) =
        (ret, [a', b'], bytes') → ¬Reallocated m.heap m.bytes ⟨16384, 24⟩ (100 * pageSize) ret a' b' bytes') ∧
    ∃ m, execOk memoryStep MemoryEnabled kernelMemory freeBlockBefore = some m ∧
      MemoryEnabled m (.realloc ⟨16912, 24⟩ 256) ∧
      ∀ ret a' b' bytes', reallocMemory [m.heap.alloc, m.heap.backing] m.bytes ⟨16912, 24⟩ 256 =
        (ret, [a', b'], bytes') → ¬Reallocated m.heap m.bytes ⟨16912, 24⟩ 256 ret a' b' bytes' := by
  constructor
  · have hsome : (execOk memoryStep MemoryEnabled kernelMemory [.call (.alloc 24), .call (.alloc 16)]).map
        (fun m => (decide (MemoryEnabled m (.realloc ⟨16384, 24⟩ (100 * pageSize))),
          decide (Covers m.heap.live 16384),
          (reallocMemory [m.heap.alloc, m.heap.backing] m.bytes ⟨16384, 24⟩ (100 * pageSize)).1,
          ((reallocMemory [m.heap.alloc, m.heap.backing] m.bytes ⟨16384, 24⟩ (100 * pageSize)).2.1.head?.map
            fun a => decide (Covers a.first_free 16384)))) = some (true, true, none, some true) := by
      decide
    obtain ⟨m, hm, hfields⟩ := Option.map_eq_some_iff.mp hsome
    simp only [Prod.mk.injEq, decide_eq_true_eq] at hfields
    obtain ⟨henabled, hlive, hret, hfree⟩ := hfields
    refine ⟨m, hm, henabled, fun ret a' b' bytes' heq hr => ?_⟩
    rw [heq] at hret hfree
    simp only [List.head?_cons, Option.map_some, Option.some.injEq, decide_eq_true_eq] at hret hfree
    subst hret
    exact (hr.apart 16384 (by simpa [liveAfter] using hlive)).1 hfree
  · have hsome : (execOk memoryStep MemoryEnabled kernelMemory freeBlockBefore).map
        (fun m => (decide (MemoryEnabled m (.realloc ⟨16912, 24⟩ 256)), m.bytes (16912 + 8),
          (reallocMemory [m.heap.alloc, m.heap.backing] m.bytes ⟨16912, 24⟩ 256).1,
          (reallocMemory [m.heap.alloc, m.heap.backing] m.bytes ⟨16912, 24⟩ 256).2.2 (16384 + 8))) =
        some (true, 0, some 16384, 16) := by
      decide
    obtain ⟨m, hm, hfields⟩ := Option.map_eq_some_iff.mp hsome
    simp only [Prod.mk.injEq, decide_eq_true_eq] at hfields
    obtain ⟨henabled, hold, hret, hnew⟩ := hfields
    refine ⟨m, hm, henabled, fun ret a' b' bytes' heq hr => ?_⟩
    rw [heq] at hret hnew
    have hsame := (hr.moved 16384 hret).1 8 (by decide)
    simp only at hnew
    rw [hnew, hold] at hsame
    exact absurd hsame (by decide)

end SomeOs.Heap
