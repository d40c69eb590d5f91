import Mathlib

/-! # Buffers as lists

A buffer is the list of what was allocated. Moving elements within a buffer or from another one needs
both ranges to be in bounds.
-/
namespace SomeOs.Buffers
variable {α : Type*}

/-- A buffer of another size, with whatever there was in the memory behind. -/
def resize (junk : α) (n : ℕ) (a : List α) : List α := a.take n ++ List.replicate (n - a.length) junk

/-- The `n` elements from `src` on of `b` are copied to `dst` in `a`. -/
def blit (a : List α) (dst : ℕ) (b : List α) (src n : ℕ) : Option (List α) :=
  if dst + n ≤ a.length ∧ src + n ≤ b.length then some (a.take dst ++ (b.drop src).take n ++ a.drop (dst + n)) else none

def move (a : List α) (dst src n : ℕ) : Option (List α) := blit a dst a src n

variable {junk : α} {a b l r x y z : List α} {n : ℕ}

theorem resize_append (hn : l.length ≤ n) : ∃ r', resize junk n (l ++ r) = l ++ r' ∧ r'.length = n - l.length := by
  refine ⟨r.take (n - l.length) ++ List.replicate (n - (l ++ r).length) junk, ?_, ?_⟩
  · rw [resize, List.take_append, List.take_of_length_le hn, List.append_assoc]
  · simp only [List.length_append, List.length_take, List.length_replicate]
    omega

theorem blit_eq {p q : List α} {dst src : ℕ} (hdst : x.length = dst) (hsrc : p.length = src) (hy : y.length = n)
    (hz : z.length = n) : blit (x ++ z ++ r) dst (p ++ y ++ q) src n = some (x ++ y ++ r) := by
  subst hdst hsrc hy
  have hin : x.length + y.length ≤ (x ++ z ++ r).length ∧ p.length + y.length ≤ (p ++ y ++ q).length := by
    simp only [List.length_append]
    omega
  have htake : (x ++ z ++ r).take x.length = x := by
    rw [List.append_assoc, List.take_left]
  have hdrop : (x ++ z ++ r).drop (x.length + y.length) = r := by
    rw [← hz, ← List.length_append, List.drop_left]
  have hcopy : ((p ++ y ++ q).drop p.length).take y.length = y := by
    rw [List.append_assoc, List.drop_left, List.take_left]
  rw [blit, if_pos hin, htake, hdrop, hcopy]

theorem move_remove {c : α} {dst src : ℕ} (hdst : x.length = dst) (hsrc : dst + 1 = src) (hn : y.length = n) :
    move (x ++ c :: (y ++ r)) dst src n = some (x ++ y ++ ((c :: y).drop n ++ r)) := by
  subst hn
  have hsplit := List.take_append_drop y.length (c :: y)
  have hwhole : x ++ (c :: y).take y.length ++ ((c :: y).drop y.length ++ r) = x ++ c :: (y ++ r) := by
    rw [List.append_assoc, ← List.append_assoc (List.take _ _), hsplit, List.cons_append]
  have hcopy : x ++ [c] ++ y ++ r = x ++ c :: (y ++ r) := by simp
  have hblit := @blit_eq _ ((c :: y).drop y.length ++ r) x y ((c :: y).take y.length) y.length (x ++ [c]) r dst src hdst
    (by rw [List.length_append, List.length_singleton]; omega) rfl (by rw [List.length_take, List.length_cons]; omega)
  rwa [hwhole, hcopy] at hblit

theorem move_insert {tail : List α} {dst src : ℕ} (hsrc : x.length = src) (hdst : src + tail.length = dst) (hn : y.length = n) :
    move (x ++ y ++ tail) dst src n = some (x ++ (y ++ tail).take tail.length ++ y) := by
  subst hn
  have hlen : (y ++ tail).length = y.length + tail.length := List.length_append
  have hwhole : x ++ (y ++ tail).take tail.length ++ (y ++ tail).drop tail.length ++ [] = x ++ y ++ tail := by
    rw [List.append_nil, List.append_assoc, List.take_append_drop, List.append_assoc]
  have hblit := @blit_eq _ [] (x ++ (y ++ tail).take tail.length) y ((y ++ tail).drop tail.length) y.length x tail dst src
    (by rw [List.length_append, List.length_take]; omega) hsrc rfl (by rw [List.length_drop]; omega)
  rwa [hwhole, List.append_nil] at hblit

end SomeOs.Buffers
