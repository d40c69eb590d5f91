import SomeOs.Heap.Safety

/-! # No byte is lost

The memory that an allocator has obtained is what its callers have and what is free,
as long as no rest of a free block is too small for a header and no pages are given back
from memory that ends inside of a page.
-/
namespace SomeOs.Heap
open Blocks Transition

/-- An allocation leaves nothing of the free block it takes memory from, or enough for a
header. Memory from which pages are given back ends at the end of a page. -/
def Tight (h : HeapState) (act : HeapAction) : Prop :=
  Enabled h act ∧
    match act with
    | .alloc size => size = 0 ∨
      ∀ f, takenFrom h.alloc h.backing size = some f → NoRest h.alloc.block_size size f
    | .dealloc block =>
      ∀ r, tryFreeingOldMemory h.alloc pageSize (insertFreeMemory h.alloc.first_free block).2.1 = some r →
        pageSize ∣ (insertFreeMemory h.alloc.first_free block).2.1.stop
    | _ => True

/-- The memory of an allocator that was set up in the state `s`. -/
structure Conserved (s h : HeapState) : Prop where
  exact : ∀ x, h.owned x = true ∨ h.alloc.Special x ↔ Covers h.live x ∨ Covers h.alloc.first_free x
  total : ∀ x, Covers h.backing.first_free x ∨ h.held x = true ∨ h.owned x = true ↔
    Covers s.backing.first_free x ∨ s.held x = true
  released : h.live = [] → ∀ x, Covers s.backing.first_free x ∨ s.held x = true ∨ h.alloc.Special x →
    Covers h.alloc.first_free x ∨ Covers h.backing.first_free x ∨ h.held x = true

section Steps
variable {s h t : HeapState} {act : HeapAction} {acts : List HeapAction} {x : ℕ}

/-- What is obtained from the page allocator, by whomever, is all there is. -/
def Total (h : HeapState) (x : ℕ) : Prop :=
  Covers h.backing.first_free x ∨ h.held x = true ∨ h.owned x = true

theorem HeapEffect.total (hi : HeapInv h) (he : HeapEffect h act t) : Total t x ↔ Total h x := by
  have howned := fun x hx => (hi.pages_apart x hx).1
  have hheld := fun x hx => (hi.pages_apart x hx).2.1
  unfold Total
  cases he with
  | fail size => exact Iff.rfl
  | take hret ht =>
    simp only [obtained_take ht.new_free ht.backing howned, ht.backing x]
    have := ht.new_free x
    tauto
  | @give block a' b' given hb hg =>
    simp only [obtained_give hg.backing howned, hg.backing x]
    by_cases hgx : given x
    · have hused : h.owned x = true ∨ h.alloc.Special x := by
        rcases hg.pool x (Or.inr hgx) with hfree | hbx
        · exact hi.used x (Or.inr hfree)
        · exact hi.used x (Or.inl ⟨block, hb, hbx⟩)
      simp only [hgx, hused.resolve_right (hg.special x hgx), or_true, true_or]
    · simp only [hgx, or_false, not_false_eq_true, and_true]
  | pagesFail pages => exact Iff.rfl
  | pagesTake hp hnew hback =>
    simp only [obtained_take hnew hback hheld, hback x]
    have := hnew x
    tauto
  | pagesGive hp hin hback =>
    simp only [obtained_give hback hheld, hback x]
    have := hin x
    tauto

theorem HeapEffect.exact (hi : HeapInv h) (htight : Tight h act) (he : HeapEffect h act t)
    (hx : h.owned x = true ∨ h.alloc.Special x ↔ Covers h.live x ∨ Covers h.alloc.first_free x) :
    t.owned x = true ∨ t.alloc.Special x ↔ Covers t.live x ∨ Covers t.alloc.first_free x := by
  have howned := fun x hx => (hi.pages_apart x hx).1
  cases he with
  | fail size => exact hx
  | @take size ptr a' b' new hret ht =>
    have hfit : ∀ f, takenFrom h.alloc h.backing size = some f → NoRest h.alloc.block_size size f := by
      rcases htight.2 with rfl | hfit
      · simp [allocMemory] at hret
      · exact hfit
    have hpool : Covers h.alloc.first_free x ∨ new x ↔ (⟨ptr, size⟩ : Block).Has x ∨ Covers a'.first_free x :=
      ⟨ht.whole hfit x, ht.pool x⟩
    simp only [obtained_take ht.new_free ht.backing howned, ht.same.special, covers_append, covers_cons,
      covers_nil, or_false]
    rw [or_right_comm, hx, or_assoc, hpool, or_assoc]
  | @give block a' b' given hb hg =>
    have hlive : block.Has x → Covers h.live x := fun hx => ⟨block, hb, hx⟩
    simp only [obtained_give hg.backing howned, hg.same.special, covers_erase hi.live_apart hb]
    by_cases hgx : given x
    · -- what was given back is in none of them
      have hnot : ¬(Covers h.live x ∧ ¬block.Has x) := by
        rintro ⟨hl, hnb⟩
        exact (hg.pool x (Or.inr hgx)).elim (hi.live_free x hl) hnb
      simp only [hgx, not_true_eq_false, and_false, hg.special x hgx, or_self, hnot, hg.apart x hgx]
    · have hpool : Covers h.alloc.first_free x ∨ block.Has x ↔ Covers a'.first_free x :=
        ⟨fun hx => (hg.whole htight.2 x hx).resolve_right hgx, fun hx => hg.pool x (Or.inl hx)⟩
      simp only [hgx, not_false_eq_true, and_true]
      rw [hx, ← hpool]
      by_cases hbx : block.Has x
      · simp only [hbx, hlive hbx, true_or, or_true]
      · simp only [hbx, not_false_eq_true, and_true, or_false]
  | pagesFail pages => exact hx
  | pagesTake hp hnew hback => exact hx
  | pagesGive hp hin hback => exact hx

theorem Start.exact (hs : Start h) :
    h.owned x = true ∨ h.alloc.Special x ↔ Covers h.live x ∨ Covers h.alloc.first_free x := by
  simp only [hs.owned, hs.live, covers_nil, Bool.false_eq_true, false_or]
  rcases hs.first_free with ⟨hnone, hf⟩ | ⟨hlarge, hf⟩
  · simp only [hf, covers_nil, iff_false, Allocator.Special]
    omega
  · simp only [hf, covers_cons, covers_nil, or_false, Allocator.Special, Block.Has, Block.stop]
    omega

/-- In every run of tight steps all memory is free, live, or back in the page allocator. -/
theorem runs_heap_conserved (hs : Start s) (hr : Runs heapStep Tight s acts t) : Conserved s t := by
  have hinv : HeapInv t ∧ (∀ x, Total t x ↔ Total s x) ∧
      ∀ x, t.owned x = true ∨ t.alloc.Special x ↔ Covers t.live x ∨ Covers t.alloc.first_free x := by
    refine hr.invariant (I := fun h => HeapInv h ∧ (∀ x, Total h x ↔ Total s x) ∧
      ∀ x, h.owned x = true ∨ h.alloc.Special x ↔ Covers h.live x ∨ Covers h.alloc.first_free x) ?_
      ⟨hs.inv, fun x => Iff.rfl, fun x => hs.exact⟩
    rintro h act t ⟨hi, htotal, hexact⟩ htight hstep
    obtain ⟨heff, hi'⟩ := heapStep_inv hi htight.1 hstep
    exact ⟨hi', fun x => (heff.total hi).trans (htotal x), fun x => heff.exact hi htight (hexact x)⟩
  obtain ⟨-, htotal, hexact⟩ := hinv
  have htotal' : ∀ x, Covers t.backing.first_free x ∨ t.held x = true ∨ t.owned x = true ↔
      Covers s.backing.first_free x ∨ s.held x = true := by
    intro x
    have := htotal x
    simp only [Total, hs.owned x, Bool.false_eq_true, or_false] at this
    exact this
  refine ⟨hexact, htotal', fun hlive x hx => ?_⟩
  have h1 := hexact x
  have h2 := htotal' x
  simp only [hlive, covers_nil, false_or] at h1
  tauto

end Steps

instance (block_size size : ℕ) (f : Block) : Decidable (NoRest block_size size f) :=
  inferInstanceAs (Decidable (_ ∨ _))

instance decidableTight (h : HeapState) : (act : HeapAction) → Decidable (Tight h act)
  | .alloc size => inferInstanceAs (Decidable (Enabled h (.alloc size) ∧ (size = 0 ∨
      ∀ f ∈ takenFrom h.alloc h.backing size, NoRest h.alloc.block_size size f)))
  | .dealloc block => inferInstanceAs (Decidable (Enabled h (.dealloc block) ∧
      ∀ r ∈ tryFreeingOldMemory h.alloc pageSize (insertFreeMemory h.alloc.first_free block).2.1,
        pageSize ∣ (insertFreeMemory h.alloc.first_free block).2.1.stop))
  | .allocPages pages => inferInstanceAs (Decidable (Enabled h (.allocPages pages) ∧ True))
  | .deallocPages ptr pages => inferInstanceAs (Decidable (Enabled h (.deallocPages ptr pages) ∧ True))

/-- Forty pages are obtained for a block and given back with it. -/
theorem runs_heap_conserved_forty_pages :
    ∃ t, execOk heapStep Tight kernelHeap [.alloc 24, .alloc (40 * pageSize), .dealloc ⟨65536, 40 * pageSize⟩,
      .dealloc ⟨16384, 24⟩] = some t ∧ t.live = [] ∧ Conserved kernelHeap t := by
  have hsome : (execOk heapStep Tight kernelHeap [.alloc 24, .alloc (40 * pageSize),
      .dealloc ⟨65536, 40 * pageSize⟩, .dealloc ⟨16384, 24⟩]).map HeapState.live = some [] := by
    decide
  obtain ⟨t, ht, hlive⟩ := Option.map_eq_some_iff.mp hsome
  exact ⟨t, ht, hlive, runs_heap_conserved kernelHeap_start (.of_execOk ht)⟩

def smallRest : List HeapAction := [.alloc 24, .alloc 16, .dealloc ⟨16384, 24⟩, .alloc 16]

/-- Pages are given back from a block that ends inside of a page, with a live block behind it. -/
def unalignedEnd : List HeapAction :=
  [.alloc 16384, .alloc (40 * pageSize + 104), .alloc 16, .dealloc ⟨65536, 40 * pageSize + 104⟩]

/-- The rest of the free block, and the end of the released one, are lost. -/
theorem heap_not_conserved :
    (∃ t, execOk heapStep Enabled kernelHeap smallRest = some t ∧ ¬Conserved kernelHeap t) ∧
    ∃ t, execOk heapStep Enabled kernelHeap unalignedEnd = some t ∧ ¬Conserved kernelHeap t := by
  have hlost : ∀ x t, t.owned x = true ∨ t.alloc.Special x →
      ¬Covers t.live x → ¬Covers t.alloc.first_free x → ¬Conserved kernelHeap t := by
    intro x t hx h1 h2 hc
    exact ((hc.exact x).mp hx).elim h1 h2
  constructor
  · have hsome : (execOk heapStep Enabled kernelHeap smallRest).map (fun t =>
        (decide (t.alloc.special_range_start ≤ 16400 ∧ 16400 < t.alloc.special_range_end),
          decide (Covers t.live 16400), decide (Covers t.alloc.first_free 16400))) = some (true, false, false) := by
      decide
    obtain ⟨t, ht, hfields⟩ := Option.map_eq_some_iff.mp hsome
    simp only [Prod.mk.injEq, decide_eq_true_eq, decide_eq_false_iff_not] at hfields
    exact ⟨t, ht, hlost 16400 t (Or.inr hfields.1) hfields.2.1 hfields.2.2⟩
  · have hsome : (execOk heapStep Enabled kernelHeap unalignedEnd).map (fun t =>
        (t.owned (65536 + 40 * pageSize), decide (Covers t.live (65536 + 40 * pageSize)),
          decide (Covers t.alloc.first_free (65536 + 40 * pageSize)))) = some (true, false, false) := by
      decide
    obtain ⟨t, ht, hfields⟩ := Option.map_eq_some_iff.mp hsome
    simp only [Prod.mk.injEq, decide_eq_false_iff_not] at hfields
    exact ⟨t, ht, hlost _ t (Or.inl hfields.1) hfields.2.1 hfields.2.2⟩

end SomeOs.Heap
