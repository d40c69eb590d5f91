import Mathlib

/-! # Lists of address ranges

Ranges that are ordered by address and do not overlap. A range in the middle of such
a list may be replaced by ordered parts of itself.
-/
namespace SomeOs.Blocks

structure Block where
  start : ℕ
  size : ℕ
  deriving DecidableEq

namespace Block

def stop (b : Block) : ℕ := b.start + b.size

def Has (b : Block) (x : ℕ) : Prop := b.start ≤ x ∧ x < b.stop

instance (b : Block) (x : ℕ) : Decidable (b.Has x) := inferInstanceAs (Decidable (_ ∧ _))

end Block

def Covers (l : List Block) (x : ℕ) : Prop := ∃ b ∈ l, b.Has x

instance (l : List Block) (x : ℕ) : Decidable (Covers l x) :=
  inferInstanceAs (Decidable (∃ b ∈ l, b.Has x))

def Ordered (l : List Block) : Prop := l.Pairwise fun b c => b.stop ≤ c.start

def Apart (b c : Block) : Prop := ∀ x, ¬(b.Has x ∧ c.Has x)

def Clear (l : List Block) (b : Block) : Prop := ∀ x, b.Has x → ¬Covers l x

/-- Every block has at least `n` bytes. -/
def Large (n : ℕ) (l : List Block) : Prop := ∀ b ∈ l, n ≤ b.size

/-- Every block starts and ends at a multiple of `d`. -/
def Aligned (d : ℕ) (l : List Block) : Prop := ∀ b ∈ l, d ∣ b.start ∧ d ∣ b.size

section Blocks
variable {b c m : Block} {l pre ps rest : List Block} {n x : ℕ}

theorem Block.has_start (h : 0 < b.size) : b.Has b.start := ⟨le_refl _, Nat.lt_add_of_pos_right h⟩

@[simp] theorem covers_nil : ¬Covers [] x := by simp [Covers]

@[simp] theorem covers_cons : Covers (b :: l) x ↔ b.Has x ∨ Covers l x := by simp [Covers]

@[simp] theorem covers_append : Covers (pre ++ rest) x ↔ Covers pre x ∨ Covers rest x := by
  simp only [Covers, List.mem_append, or_and_right, exists_or]

@[simp] theorem large_nil : Large n [] := by simp [Large]

@[simp] theorem large_cons : Large n (b :: l) ↔ n ≤ b.size ∧ Large n l := by simp [Large]

@[simp] theorem large_append : Large n (pre ++ rest) ↔ Large n pre ∧ Large n rest :=
  List.forall_mem_append

@[simp] theorem aligned_nil : Aligned n [] := by simp [Aligned]

@[simp] theorem aligned_cons : Aligned n (b :: l) ↔ (n ∣ b.start ∧ n ∣ b.size) ∧ Aligned n l := by
  simp [Aligned]

@[simp] theorem aligned_append : Aligned n (pre ++ rest) ↔ Aligned n pre ∧ Aligned n rest :=
  List.forall_mem_append

@[simp] theorem ordered_nil : Ordered [] := List.Pairwise.nil

@[simp] theorem ordered_cons : Ordered (b :: l) ↔ (∀ c ∈ l, b.stop ≤ c.start) ∧ Ordered l :=
  List.pairwise_cons

@[simp] theorem ordered_append : Ordered (pre ++ rest) ↔
    Ordered pre ∧ Ordered rest ∧ ∀ b ∈ pre, ∀ c ∈ rest, b.stop ≤ c.start :=
  List.pairwise_append

theorem Apart.symm (h : Apart b c) : Apart c b := fun x hx => h x ⟨hx.2, hx.1⟩

theorem Apart.before_or_after (h : Apart b c) (hb : 0 < b.size) (hc : 0 < c.size) :
    b.stop ≤ c.start ∨ c.stop ≤ b.start := by
  by_contra hno
  push Not at hno
  have h1 := h b.start
  have h2 := h c.start
  simp only [Block.Has, Block.stop] at *
  omega

theorem Clear.apart (h : Clear l b) (hc : c ∈ l) : Apart b c := fun x hx => h x hx.1 ⟨c, hc, hx.2⟩

theorem Ordered.not_covers (h : Ordered (pre ++ m :: rest)) (hx : m.Has x) :
    ¬Covers pre x ∧ ¬Covers rest x := by
  obtain ⟨-, hm, hpre⟩ := ordered_append.mp h
  obtain ⟨hrest, -⟩ := ordered_cons.mp hm
  constructor
  · rintro ⟨b, hb, hbx⟩
    have := hpre b hb m List.mem_cons_self
    simp only [Block.Has, Block.stop] at *
    omega
  · rintro ⟨c, hc, hcx⟩
    have := hrest c hc
    simp only [Block.Has, Block.stop] at *
    omega

theorem Ordered.replace (h : Ordered (pre ++ m :: rest)) (hps : Ordered ps)
    (hin : ∀ p ∈ ps, m.start ≤ p.start ∧ p.stop ≤ m.stop) : Ordered (pre ++ ps ++ rest) := by
  obtain ⟨hpre, hm, hacross⟩ := ordered_append.mp h
  obtain ⟨hbehind, hrest⟩ := ordered_cons.mp hm
  rw [ordered_append, ordered_append]
  refine ⟨⟨hpre, hps, fun b hb p hp => ?_⟩, hrest, fun b hb c hc => ?_⟩
  · exact (hacross b hb m List.mem_cons_self).trans (hin p hp).1
  · rcases List.mem_append.mp hb with hb | hb
    · exact hacross b hb c (List.mem_cons_of_mem _ hc)
    · exact (hin b hb).2.trans (hbehind c hc)

theorem Ordered.covers_replace (h : Ordered (pre ++ m :: rest)) (hin : ∀ x, Covers ps x → m.Has x) :
    Covers (pre ++ ps ++ rest) x ↔ Covers (pre ++ m :: rest) x ∧ (m.Has x → Covers ps x) := by
  simp only [covers_append, covers_cons]
  constructor
  · rintro ((hx | hx) | hx)
    · exact ⟨Or.inl hx, fun hm => absurd hx (h.not_covers hm).1⟩
    · exact ⟨Or.inr (Or.inl (hin x hx)), fun _ => hx⟩
    · exact ⟨Or.inr (Or.inr hx), fun hm => absurd hx (h.not_covers hm).2⟩
  · rintro ⟨hx | hx | hx, hm⟩
    · exact Or.inl (Or.inl hx)
    · exact Or.inl (Or.inr (hm hx))
    · exact Or.inr hx

theorem Large.start_covers (h : Large 1 l) (hb : b ∈ l) : Covers l b.start :=
  ⟨b, hb, Block.has_start (h b hb)⟩

theorem Large.mono {k : ℕ} (h : Large n l) (hk : k ≤ n) : Large k l := fun b hb => hk.trans (h b hb)

end Blocks

end SomeOs.Blocks
