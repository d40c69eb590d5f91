import Mathlib

/-! # Giving out the least free number

Numbers below a limit are given out, the least free one first, and given back. In
a run of such events a number is given out again only after it was given back.
-/
namespace SomeOs.LeastFree

/-- A number is given out, none is left to give, or a number is given back. -/
inductive Event where
  | take (k : ℕ)
  | full
  | drop (k : ℕ)

def Event.after (used : Set ℕ) : Event → Set ℕ
  | .take k => insert k used
  | .full => used
  | .drop k => used \ {k}

def Event.Allowed (limit : ℕ) (used : Set ℕ) : Event → Prop
  | .take k => IsLeast {m | m < limit ∧ m ∉ used} k
  | .full => ∀ m < limit, m ∈ used
  | .drop _ => True

def Allowed (limit : ℕ) : Set ℕ → List Event → Prop
  | _, [] => True
  | used, e :: es => e.Allowed limit used ∧ Allowed limit (e.after used) es

section Runs
variable {limit k : ℕ} {used : Set ℕ} {es fs : List Event}

theorem allowed_append :
    Allowed limit used (es ++ fs) ↔ Allowed limit used es ∧ Allowed limit (es.foldl Event.after used) fs := by
  induction es generalizing used with
  | nil => simp [Allowed]
  | cons e es ih => simp [Allowed, ih, and_assoc]

theorem mem_foldl_after (hk : k ∈ used) (hd : Event.drop k ∉ es) : k ∈ es.foldl Event.after used := by
  induction es generalizing used with
  | nil => exact hk
  | cons e es ih =>
    rw [List.mem_cons, not_or] at hd
    apply ih _ hd.2
    cases e with
    | take m => exact Set.mem_insert_of_mem m hk
    | full => exact hk
    | drop m => exact ⟨hk, fun h => hd.1 (congrArg Event.drop h)⟩

theorem drop_mem_of_taken_again {xs ys zs : List Event}
    (h : Allowed limit used (xs ++ .take k :: (ys ++ .take k :: zs))) : Event.drop k ∈ ys := by
  by_contra hd
  have hsecond := (allowed_append.mp (allowed_append.mp h).2.2).2.1
  exact hsecond.1.2 (mem_foldl_after (Set.mem_insert k _) hd)

end Runs

end SomeOs.LeastFree
