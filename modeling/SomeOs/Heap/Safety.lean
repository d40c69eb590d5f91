import SomeOs.Heap.Steps

/-! # Blocks do not overlap

Free memory, the blocks of callers and the free pages of the page allocator are apart
from each other in every state of every run.
-/
namespace SomeOs.Heap
open Blocks Transition

structure HeapInv (h : HeapState) : Prop where
  list : FreeList h.alloc
  pages : PageList h.backing
  live_apart : h.live.Pairwise Apart
  live_free : ∀ x, Covers h.live x → ¬Covers h.alloc.first_free x
  used : ∀ x, Covers h.live x ∨ Covers h.alloc.first_free x → h.owned x = true ∨ h.alloc.Special x
  pages_apart : ∀ x, Covers h.backing.first_free x → h.owned x ≠ true ∧ h.held x ≠ true ∧ ¬h.alloc.Special x
  held : ∀ x, h.held x = true → h.owned x ≠ true ∧ ¬h.alloc.Special x

section Obtained
variable {own : ℕ → Bool} {b b' : Allocator} {x : ℕ}

theorem obtained_take {new : ℕ → Prop} (hnew : ∀ x, new x → Covers b.first_free x)
    (hback : ∀ x, Covers b'.first_free x ↔ Covers b.first_free x ∧ ¬new x)
    (hown : ∀ x, Covers b.first_free x → own x ≠ true) :
    obtained own b b' x = true ↔ own x = true ∨ new x := by
  have hb := hback x
  have hn := hnew x
  have ho := hown x
  simp only [obtained]
  by_cases hbx : Covers b.first_free x
  · by_cases hnx : new x
    · simp [hb, hbx, hnx]
    · simp [hb, hbx, hnx, ho hbx]
  · have hnx : ¬new x := fun h => hbx (hn h)
    simp [hb, hbx, hnx]

theorem obtained_give {given : ℕ → Prop}
    (hback : ∀ x, Covers b'.first_free x ↔ Covers b.first_free x ∨ given x)
    (hown : ∀ x, Covers b.first_free x → own x ≠ true) :
    obtained own b b' x = true ↔ own x = true ∧ ¬given x := by
  have hb := hback x
  have ho := hown x
  simp only [obtained]
  by_cases hbx : Covers b.first_free x
  · simp [hb, hbx, ho hbx]
  · by_cases hgx : given x
    · simp [hb, hbx, hgx]
    · simp [hb, hbx, hgx]

end Obtained

section Live
variable {l : List Block} {b c : Block} {x : ℕ}

theorem apart_of_mem_erase (h : l.Pairwise Apart) (hb : b ∈ l) (hc : c ∈ l.erase b) : Apart b c := by
  have hperm := (List.perm_cons_erase hb).pairwise_iff (R := Apart) (fun h => h.symm)
  exact (List.pairwise_cons.mp (hperm.mp h)).1 c hc

theorem covers_erase (h : l.Pairwise Apart) (hb : b ∈ l) :
    Covers (l.erase b) x ↔ Covers l x ∧ ¬b.Has x := by
  constructor
  · rintro ⟨c, hc, hx⟩
    exact ⟨⟨c, List.mem_of_mem_erase hc, hx⟩, fun hbx => apart_of_mem_erase h hb hc x ⟨hbx, hx⟩⟩
  · rintro ⟨⟨c, hc, hx⟩, hbx⟩
    have hne : c ≠ b := by
      rintro rfl
      exact hbx hx
    exact ⟨c, (List.mem_erase_of_ne hne).mpr hc, hx⟩

end Live

section Steps
variable {h t : HeapState} {a' b' : Allocator} {ptr size pages : ℕ} {block : Block} {act : HeapAction}

theorem SameBut.special {a a' : Allocator} (hs : SameBut a a') : a'.Special = a.Special := by
  rw [hs]
  rfl

theorem HeapInv.fresh {new : ℕ → Prop} (hi : HeapInv h) (ht : Taken h.alloc h.backing a' b' ptr size new) :
    ∀ x, Covers h.live x → ¬(⟨ptr, size⟩ : Block).Has x ∧ ¬Covers a'.first_free x := by
  intro x hx
  have hno : ¬(Covers h.alloc.first_free x ∨ new x) := by
    rintro (hfree | hnew)
    · exact hi.live_free x hx hfree
    · obtain ⟨h1, -, h2⟩ := hi.pages_apart x (ht.new_free x hnew)
      exact (hi.used x (Or.inl hx)).elim h1 h2
  exact ⟨fun hb => hno (ht.pool x (Or.inl hb)), fun ha => hno (ht.pool x (Or.inr ha))⟩

theorem HeapInv.taken {new : ℕ → Prop} (hi : HeapInv h) (ht : Taken h.alloc h.backing a' b' ptr size new) :
    HeapInv { h with alloc := a', backing := b', owned := obtained h.owned h.backing b'
                     live := h.live ++ [⟨ptr, size⟩] } := by
  have hown : ∀ x, obtained h.owned h.backing b' x = true ↔ h.owned x = true ∨ new x := fun x =>
    obtained_take ht.new_free ht.backing (fun x hx => (hi.pages_apart x hx).1)
  have hfresh := hi.fresh ht
  have hspecial := ht.same.special
  refine ⟨ht.list, ht.pages, ?_, fun x hx => ?_, fun x hx => ?_, fun x hx => ?_, fun x hx => ?_⟩
  · refine List.pairwise_append.mpr ⟨hi.live_apart, List.pairwise_singleton _ _, fun c hc d hd x hx => ?_⟩
    obtain rfl := List.mem_singleton.mp hd
    exact (hfresh x ⟨c, hc, hx.1⟩).1 hx.2
  · rcases covers_append.mp hx with hx | hx
    · exact (hfresh x hx).2
    · exact ht.apart x (by simpa using hx)
  · simp only [hown, hspecial]
    have hpool : Covers h.live x ∨ Covers h.alloc.first_free x ∨ new x := by
      rcases hx with hx | hx
      · rcases covers_append.mp hx with hx | hx
        · exact Or.inl hx
        · exact Or.inr (ht.pool x (Or.inl (by simpa using hx)))
      · exact Or.inr (ht.pool x (Or.inr hx))
    rcases hpool with hx | hx | hx
    · exact (hi.used x (Or.inl hx)).imp_left Or.inl
    · exact (hi.used x (Or.inr hx)).imp_left Or.inl
    · exact Or.inl (Or.inr hx)
  · obtain ⟨hb, hn⟩ := (ht.backing x).mp hx
    obtain ⟨h1, h2, h3⟩ := hi.pages_apart x hb
    rw [ne_eq, hown, hspecial]
    exact ⟨fun h => h.elim h1 hn, h2, h3⟩
  · obtain ⟨h1, h2⟩ := hi.held x hx
    rw [ne_eq, hown, hspecial]
    exact ⟨fun h => h.elim h1 fun hn => (hi.pages_apart x (ht.new_free x hn)).2.1 hx, h2⟩

theorem HeapInv.given {given : ℕ → Prop} (hi : HeapInv h) (hb : block ∈ h.live)
    (hg : Given h.alloc h.backing a' b' block given) :
    HeapInv { h with alloc := a', backing := b', owned := obtained h.owned h.backing b'
                     live := h.live.erase block } := by
  have hown : ∀ x, obtained h.owned h.backing b' x = true ↔ h.owned x = true ∧ ¬given x := fun x =>
    obtained_give hg.backing (fun x hx => (hi.pages_apart x hx).1)
  have hspecial := hg.same.special
  have hlive : ∀ x, Covers (h.live.erase block) x ↔ Covers h.live x ∧ ¬block.Has x := fun x =>
    covers_erase hi.live_apart hb
  have hpool : ∀ x, Covers (h.live.erase block) x → ¬(Covers a'.first_free x ∨ given x) := by
    intro x hx hno
    obtain ⟨hx, hnb⟩ := (hlive x).mp hx
    exact (hg.pool x hno).elim (hi.live_free x hx) hnb
  have hused : ∀ x, Covers h.alloc.first_free x ∨ block.Has x → h.owned x = true ∨ h.alloc.Special x := by
    rintro x (hx | hx)
    · exact hi.used x (Or.inr hx)
    · exact hi.used x (Or.inl ⟨block, hb, hx⟩)
  refine ⟨hg.list, hg.pages, hi.live_apart.sublist List.erase_sublist, fun x hx ha => hpool x hx (Or.inl ha),
    fun x hx => ?_, fun x hx => ?_, fun x hx => ?_⟩
  · simp only [hown, hspecial]
    have hng : ¬given x := by
      rcases hx with hx | hx
      · exact fun hg => hpool x hx (Or.inr hg)
      · exact fun hgx => hg.apart x hgx hx
    have hold : h.owned x = true ∨ h.alloc.Special x := by
      rcases hx with hx | hx
      · exact hi.used x (Or.inl ((hlive x).mp hx).1)
      · exact hused x (hg.pool x (Or.inl hx))
    exact hold.imp_left fun h => ⟨h, hng⟩
  · rw [ne_eq, hown, hspecial]
    rcases (hg.backing x).mp hx with hx | hx
    · obtain ⟨h1, h2, h3⟩ := hi.pages_apart x hx
      exact ⟨fun h => h1 h.1, h2, h3⟩
    · refine ⟨fun h => h.2 hx, fun hheld => ?_, hg.special x hx⟩
      obtain ⟨h1, h2⟩ := hi.held x hheld
      exact (hused x (hg.pool x (Or.inr hx))).elim h1 h2
  · obtain ⟨h1, h2⟩ := hi.held x hx
    rw [ne_eq, hown, hspecial]
    exact ⟨fun h => h1 h.1, h2⟩

theorem HeapInv.pages_taken {new : ℕ → Prop} (hi : HeapInv h) (hp : PageList b')
    (hnew : ∀ x, new x → Covers h.backing.first_free x)
    (hback : ∀ x, Covers b'.first_free x ↔ Covers h.backing.first_free x ∧ ¬new x) :
    HeapInv { h with backing := b', held := obtained h.held h.backing b' } := by
  have hheld : ∀ x, obtained h.held h.backing b' x = true ↔ h.held x = true ∨ new x := fun x =>
    obtained_take hnew hback (fun x hx => (hi.pages_apart x hx).2.1)
  refine ⟨hi.list, hp, hi.live_apart, hi.live_free, hi.used, fun x hx => ?_, fun x hx => ?_⟩
  · obtain ⟨hb, hn⟩ := (hback x).mp hx
    obtain ⟨h1, h2, h3⟩ := hi.pages_apart x hb
    rw [ne_eq, ne_eq, hheld]
    exact ⟨h1, fun h => h.elim h2 hn, h3⟩
  · rcases (hheld x).mp hx with hx | hx
    · exact hi.held x hx
    · obtain ⟨h1, -, h3⟩ := hi.pages_apart x (hnew x hx)
      exact ⟨h1, h3⟩

theorem HeapInv.pages_given (hi : HeapInv h) (hp : PageList b') (hin : ∀ x, block.Has x → h.held x = true)
    (hback : ∀ x, Covers b'.first_free x ↔ Covers h.backing.first_free x ∨ block.Has x) :
    HeapInv { h with backing := b', held := obtained h.held h.backing b' } := by
  have hheld : ∀ x, obtained h.held h.backing b' x = true ↔ h.held x = true ∧ ¬block.Has x := fun x =>
    obtained_give hback (fun x hx => (hi.pages_apart x hx).2.1)
  refine ⟨hi.list, hp, hi.live_apart, hi.live_free, hi.used, fun x hx => ?_, fun x hx => ?_⟩
  · rw [ne_eq, ne_eq, hheld]
    rcases (hback x).mp hx with hx | hx
    · obtain ⟨h1, h2, h3⟩ := hi.pages_apart x hx
      exact ⟨h1, fun h => h2 h.1, h3⟩
    · obtain ⟨h1, h3⟩ := hi.held x (hin x hx)
      exact ⟨h1, fun h => h.2 hx, h3⟩
  · exact hi.held x ((hheld x).mp hx).1

theorem obtained_self {own : ℕ → Bool} {b : Allocator} (hown : ∀ x, Covers b.first_free x → own x ≠ true) :
    obtained own b b = own := by
  funext x
  have ho := hown x
  simp only [obtained]
  by_cases hbx : Covers b.first_free x
  · simp [hbx, ho hbx]
  · simp [hbx]

/-- Every step is a call that returns without memory, takes or gives back memory, or a call
of another user of the page allocator. -/
inductive HeapEffect (h : HeapState) : HeapAction → HeapState → Prop
  | fail (size : ℕ) : HeapEffect h (.alloc size) h
  | take {size ptr : ℕ} {a' b' : Allocator} {new : ℕ → Prop}
      (hret : (allocMemory [h.alloc, h.backing] size).1 = some ptr)
      (ht : Taken h.alloc h.backing a' b' ptr size new) :
      HeapEffect h (.alloc size) { h with
        alloc := a', backing := b', owned := obtained h.owned h.backing b', live := h.live ++ [⟨ptr, size⟩] }
  | give {block : Block} {a' b' : Allocator} {given : ℕ → Prop} (hb : block ∈ h.live)
      (hg : Given h.alloc h.backing a' b' block given) :
      HeapEffect h (.dealloc block) { h with
        alloc := a', backing := b', owned := obtained h.owned h.backing b', live := h.live.erase block }
  | pagesFail (pages : ℕ) : HeapEffect h (.allocPages pages) h
  | pagesTake {pages : ℕ} {b' : Allocator} {new : ℕ → Prop} (hp : PageList b')
      (hnew : ∀ x, new x → Covers h.backing.first_free x)
      (hback : ∀ x, Covers b'.first_free x ↔ Covers h.backing.first_free x ∧ ¬new x) :
      HeapEffect h (.allocPages pages) { h with backing := b', held := obtained h.held h.backing b' }
  | pagesGive {ptr pages : ℕ} {b' : Allocator} (hp : PageList b')
      (hin : ∀ x, (⟨ptr, pages * pageSize⟩ : Block).Has x → h.held x = true)
      (hback : ∀ x, Covers b'.first_free x ↔
        Covers h.backing.first_free x ∨ (⟨ptr, pages * pageSize⟩ : Block).Has x) :
      HeapEffect h (.deallocPages ptr pages) { h with backing := b', held := obtained h.held h.backing b' }

theorem heapStep_effect (hi : HeapInv h) (he : Enabled h act) :
    ∃ t, heapStep h act = some t ∧ HeapEffect h act t := by
  have hfree : ∀ x, Covers h.backing.first_free x → ¬Covers h.alloc.first_free x := by
    intro x hx ha
    obtain ⟨h1, -, h2⟩ := hi.pages_apart x hx
    exact (hi.used x (Or.inr ha)).elim h1 h2
  cases act with
  | alloc size =>
    rcases allocMemory_spec size hi.list hi.pages hfree with hnone |
      ⟨ptr, a', b', new, hsome, -, ht⟩
    · refine ⟨h, ?_, .fail size⟩
      simp only [heapStep, hnone, obtained_self (fun x hx => (hi.pages_apart x hx).1)]
    · refine ⟨_, ?_, .take (by rw [hsome]) ht⟩
      simp only [heapStep, hsome]
  | dealloc block =>
    obtain ⟨hb, hsize⟩ := he
    obtain ⟨a', b', given, hde, hg⟩ := deallocMemory_spec hi.list hi.pages hsize
      (fun x hx => hi.live_free x ⟨block, hb, hx⟩) (fun x hx => ⟨hfree x hx, fun hbx => by
        obtain ⟨h1, -, h2⟩ := hi.pages_apart x hx
        exact (hi.used x (Or.inl ⟨block, hb, hbx⟩)).elim h1 h2⟩)
    refine ⟨_, ?_, .give hb hg⟩
    simp only [heapStep, hde]
  | allocPages pages =>
    have hsame := obtained_self (fun x hx => (hi.pages_apart x hx).2.1)
    by_cases h0 : pages * pageSize = 0
    · refine ⟨h, ?_, .pagesFail pages⟩
      simp only [heapStep, allocMemory, if_pos h0, hsame]
    · rcases allocPages_spec hi.pages (Nat.dvd_mul_left pageSize pages) with hnone |
        ⟨ptr, b', hsome, hp, hnew, hback⟩
      · refine ⟨h, ?_, .pagesFail pages⟩
        simp only [heapStep, allocMemory, if_neg h0, hnone, hsame]
      · refine ⟨_, ?_, .pagesTake hp hnew hback⟩
        simp only [heapStep, allocMemory, if_neg h0, hsome]
  | deallocPages ptr pages =>
    obtain ⟨hptr, hall⟩ := he
    have hin : ∀ x, (⟨ptr, pages * pageSize⟩ : Block).Has x → h.held x = true := by
      intro x hx
      have hlt : x - ptr < pages * pageSize := by
        simp only [Block.Has, Block.stop] at hx
        omega
      have hheld := hall (x - ptr) hlt
      rwa [Nat.add_sub_cancel' hx.1] at hheld
    obtain ⟨b', hde, hp, hback⟩ := deallocPages_spec hi.pages (Nat.dvd_of_mod_eq_zero hptr)
      (Nat.dvd_mul_left pageSize pages) (fun x hx hbx => (hi.pages_apart x hbx).2.1 (hin x hx))
    refine ⟨_, ?_, .pagesGive hp hin hback⟩
    simp only [heapStep, hde]

theorem HeapInv.effect (hi : HeapInv h) (he : HeapEffect h act t) : HeapInv t := by
  cases he with
  | fail size => exact hi
  | take hret ht => exact hi.taken ht
  | give hb hg => exact hi.given hb hg
  | pagesFail pages => exact hi
  | pagesTake hp hnew hback => exact hi.pages_taken hp hnew hback
  | pagesGive hp hin hback => exact hi.pages_given hp hin hback

theorem heapStep_inv (hi : HeapInv h) (he : Enabled h act) (hstep : heapStep h act = some t) :
    HeapEffect h act t ∧ HeapInv t := by
  obtain ⟨u, hu, heff⟩ := heapStep_effect hi he
  obtain rfl := Option.some.inj (hu.symm.trans hstep)
  exact ⟨heff, hi.effect heff⟩

theorem Start.inv (hs : Start h) : HeapInv h where
  list := by
    refine ⟨hs.block_size.1, ?_, ?_⟩
    · rcases hs.first_free with ⟨-, hf⟩ | ⟨-, hf⟩ <;> simp [hf]
    · rcases hs.first_free with ⟨-, hf⟩ | ⟨hlarge, hf⟩
      · simp [hf]
      · simp only [hf, large_cons, large_nil, and_true]
        omega
  pages := by
    refine ⟨hs.page_size, hs.ordered, fun b hb => ?_, fun b hb => (hs.pages b hb).2.2⟩
    exact ⟨Nat.dvd_of_mod_eq_zero (hs.pages b hb).1, Nat.dvd_of_mod_eq_zero (hs.pages b hb).2.1⟩
  live_apart := by simp [hs.live]
  live_free := by simp [hs.live]
  used := by
    rintro x (hx | hx)
    · simp [hs.live] at hx
    · right
      rcases hs.first_free with ⟨-, hf⟩ | ⟨-, hf⟩
      · simp [hf] at hx
      · simp only [hf, covers_cons, covers_nil, or_false, Block.Has, Block.stop] at hx
        unfold Allocator.Special
        omega
  pages_apart := by
    intro x hx
    obtain ⟨h1, h2⟩ := hs.apart x hx
    exact ⟨by simp [hs.owned x], by simp [h1], h2⟩
  held := fun x hx => ⟨by simp [hs.owned x], hs.held x hx⟩

end Steps

/-- Free lists are sorted and their blocks are large enough for a header; no address is in
two of a free block, a live block and a free page; the special range stays. -/
structure HeapSafe (h : HeapState) : Prop where
  sorted : Ordered h.alloc.first_free ∧ Ordered h.backing.first_free
  strict : h.alloc.first_free.Pairwise (fun b c => b.start < c.start) ∧
    h.backing.first_free.Pairwise fun b c => b.start < c.start
  large : Large minimumFree h.alloc.first_free ∧ Large minimumFree h.backing.first_free
  live_apart : h.live.Pairwise Apart
  live_free : ∀ x, Covers h.live x → ¬Covers h.alloc.first_free x
  fresh : ∀ size ptr l, allocMemory [h.alloc, h.backing] size = (some ptr, l) →
    ∀ c ∈ h.live, Apart c ⟨ptr, size⟩
  pages : ∀ x, Covers h.live x ∨ Covers h.alloc.first_free x → ¬Covers h.backing.first_free x
  special : ∀ x, h.alloc.Special x → ¬Covers h.backing.first_free x

section Safe
variable {h t : HeapState} {acts : List HeapAction}

theorem strict_of_ordered {l : List Block} (ho : Ordered l) (hl : Large 1 l) :
    l.Pairwise fun b c => b.start < c.start := by
  refine ho.imp_of_mem fun {b c} hb _ hbc => ?_
  have hpos := hl b hb
  simp only [Block.stop] at hbc
  omega

theorem HeapInv.safe (hi : HeapInv h) : HeapSafe h := by
  have hpages : ∀ x, Covers h.live x ∨ Covers h.alloc.first_free x → ¬Covers h.backing.first_free x := by
    intro x hx hb
    obtain ⟨h1, -, h2⟩ := hi.pages_apart x hb
    exact (hi.used x hx).elim h1 h2
  have hlarge : Large minimumFree h.backing.first_free := by
    intro b hb
    have hpos := hi.pages.large b hb
    obtain ⟨k, hk⟩ := (hi.pages.aligned b hb).2
    simp only [pageSize, minimumFree] at *
    omega
  refine ⟨⟨hi.list.ordered, hi.pages.ordered⟩, ⟨?_, ?_⟩, ⟨hi.list.large, hlarge⟩, hi.live_apart, hi.live_free,
    fun size ptr l hsome c hc x hx => ?_, hpages, fun x hx hb => (hi.pages_apart x hb).2.2 hx⟩
  · exact strict_of_ordered hi.list.ordered (hi.list.large.mono (by decide))
  · exact strict_of_ordered hi.pages.ordered hi.pages.large
  · rcases allocMemory_spec size hi.list hi.pages (fun x hb ha => hpages x (Or.inr ha) hb) with hnone |
      ⟨ptr', a', b', new, hsome', -, ht⟩
    · rw [hnone] at hsome
      cases hsome
    · rw [hsome'] at hsome
      cases hsome
      exact (hi.fresh ht x ⟨c, hc, hx.1⟩).1 hx.2

/-- In every run of allocations and releases every state is safe, and every further call
returns in such a state. -/
theorem runs_heap_safe (hs : Start h) (hr : Runs heapStep Enabled h acts t) :
    HeapSafe t ∧ ∀ act, Enabled t act → ∃ u, heapStep t act = some u ∧ HeapSafe u := by
  have hi : HeapInv t :=
    hr.invariant (I := HeapInv) (fun h act t hi he hstep => (heapStep_inv hi he hstep).2) hs.inv
  refine ⟨hi.safe, fun act he => ?_⟩
  obtain ⟨u, hu, heff⟩ := heapStep_effect hi he
  exact ⟨u, hu, (hi.effect heff).safe⟩

end Safe

/-- The allocator of the kernel, with the special range in four pages and a heap of 64 pages. -/
def kernelHeap : HeapState where
  alloc := ⟨8, 32 * pageSize, [⟨16384, 16384⟩], 16384, 32768⟩
  backing := ⟨pageSize, 0, [⟨65536, 64 * pageSize⟩], 0, 0⟩
  live := []
  owned := fun _ => false
  held := fun _ => false

theorem kernelHeap_start : Start kernelHeap where
  block_size := by decide
  page_size := rfl
  first_free := Or.inr ⟨by decide, rfl⟩
  live := rfl
  owned := fun _ => rfl
  ordered := by simp [kernelHeap]
  pages := by simp [kernelHeap, pageSize]
  apart := by
    intro x hx
    refine ⟨rfl, ?_⟩
    simp only [kernelHeap, covers_cons, covers_nil, or_false, Block.Has, Block.stop] at hx
    simp only [kernelHeap, Allocator.Special]
    omega
  held := by
    intro x hx
    cases hx
  nonnull := by
    intro x hx
    simp only [kernelHeap, covers_cons, covers_nil, or_false, Block.Has, Block.stop, Allocator.Special,
      Bool.false_eq_true, false_or, pageSize] at hx ⊢
    omega

/-- Two blocks are allocated, one of them with pages of the page allocator, and released. -/
def allocAndRelease : List HeapAction :=
  [.alloc 24, .alloc 20000, .dealloc ⟨16384, 24⟩, .alloc 16, .dealloc ⟨65536, 20000⟩]

theorem runs_heap_safe_kernel :
    ∃ t, execOk heapStep Enabled kernelHeap allocAndRelease = some t ∧
      t.live = [⟨16384, 16⟩] ∧ HeapSafe t := by
  have hsome : (execOk heapStep Enabled kernelHeap allocAndRelease).map HeapState.live = some [⟨16384, 16⟩] := by
    decide
  obtain ⟨t, ht, hlive⟩ := Option.map_eq_some_iff.mp hsome
  exact ⟨t, ht, hlive, (runs_heap_safe kernelHeap_start (.of_execOk ht)).1⟩

end SomeOs.Heap
