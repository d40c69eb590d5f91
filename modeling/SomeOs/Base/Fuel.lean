import Mathlib.Order.Filter.AtTopBot.Basic

/-! # Functions that run on fuel

A function that takes fuel settles on an outcome when it has it from some amount of fuel on. A
sequence of calls settles when its parts do, however much each of them needs.
-/
namespace SomeOs.Fuel

universe u v
variable {α β : Type u} {ε : Type v}

/-- With enough fuel the outcome is `a`. -/
def Settles (f : ℕ → α) (a : α) : Prop := ∀ᶠ fuel in Filter.atTop, f fuel = a

variable {f g : ℕ → α} {a b : α}

theorem settles_iff : Settles f a ↔ ∃ depth, ∀ fuel ≥ depth, f fuel = a := Filter.eventually_atTop

theorem settles_const (a : α) : Settles (fun _ => a) a := Filter.Eventually.of_forall fun _ => rfl

theorem Settles.unique (ha : Settles f a) (hb : Settles f b) : a = b := by
  obtain ⟨fuel, hfa, hfb⟩ := (ha.and hb).exists
  exact hfa.symm.trans hfb

theorem Settles.congr (h : Settles g a) (heq : ∀ fuel, f fuel = g fuel) : Settles f a := by
  obtain rfl := funext heq
  exact h

theorem Settles.succ (h : Settles g a) (hstep : ∀ fuel, f (fuel + 1) = g fuel) : Settles f a := by
  obtain ⟨depth, hg⟩ := settles_iff.mp h
  refine settles_iff.mpr ⟨depth + 1, fun fuel hfuel => ?_⟩
  obtain ⟨fuel, rfl⟩ := Nat.exists_eq_add_one.mpr (Nat.zero_lt_of_lt hfuel)
  rw [hstep]
  exact hg fuel (Nat.le_of_succ_le_succ hfuel)

theorem Settles.bind {f : ℕ → Except ε α} {g : ℕ → α → Except ε β} {r : Except ε β} (hf : Settles f (.ok a))
    (hg : Settles (fun fuel => g fuel a) r) : Settles (fun fuel => f fuel >>= g fuel) r := by
  filter_upwards [hf, hg] with fuel hfuel hrun
  rw [hfuel]
  exact hrun

theorem Settles.bind_error {f : ℕ → Except ε α} {g : ℕ → α → Except ε β} {e : ε} (hf : Settles f (.error e)) :
    Settles (fun fuel => f fuel >>= g fuel) (.error e) := by
  filter_upwards [hf] with fuel hfuel
  rw [hfuel]
  rfl

end SomeOs.Fuel
