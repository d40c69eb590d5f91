import Mathlib

/-! # Runs of a deterministic machine under a step condition

A run lists the actions taken; every action meets a condition on the state it is
taken in. What one such step keeps holds at the end of every run.
-/
namespace SomeOs.Transition
variable {S A : Type*}

inductive Runs (step : S → A → Option S) (ok : S → A → Prop) : S → List A → S → Prop
  | nil (s : S) : Runs step ok s [] s
  | cons {s t u : S} {a : A} {as : List A} (hok : ok s a) (hstep : step s a = some t)
      (hrest : Runs step ok t as u) : Runs step ok s (a :: as) u

def exec (step : S → A → Option S) : S → List A → Option S
  | s, [] => some s
  | s, a :: as => (step s a).bind fun t => exec step t as

variable {step : S → A → Option S} {ok : S → A → Prop}

theorem Runs.of_exec {s t : S} {as : List A} (h : exec step s as = some t)
    (hok : ∀ s, ∀ a ∈ as, ok s a) : Runs step ok s as t := by
  induction as generalizing s with
  | nil =>
    cases h
    exact .nil _
  | cons a as ih =>
    obtain ⟨u, hu, hrest⟩ := Option.bind_eq_some_iff.mp h
    exact .cons (hok s a List.mem_cons_self) hu
      (ih hrest (fun s b hb => hok s b (List.mem_cons_of_mem _ hb)))

def execOk (step : S → A → Option S) (ok : S → A → Prop) [∀ s a, Decidable (ok s a)] :
    S → List A → Option S
  | s, [] => some s
  | s, a :: as => if ok s a then (step s a).bind fun t => execOk step ok t as else none

theorem Runs.of_execOk [∀ s a, Decidable (ok s a)] {s t : S} {as : List A}
    (h : execOk step ok s as = some t) : Runs step ok s as t := by
  induction as generalizing s with
  | nil =>
    cases h
    exact .nil _
  | cons a as ih =>
    simp only [execOk] at h
    split_ifs at h with hok
    obtain ⟨u, hu, hrest⟩ := Option.bind_eq_some_iff.mp h
    exact .cons hok hu (ih hrest)

theorem Runs.mono {ok' : S → A → Prop} (hok : ∀ s a, ok s a → ok' s a) {s t : S} {as : List A}
    (hr : Runs step ok s as t) : Runs step ok' s as t := by
  induction hr with
  | nil => exact .nil _
  | cons h hstep _ ih => exact .cons (hok _ _ h) hstep ih

theorem Runs.invariant {I : S → Prop} (hI : ∀ s a t, I s → ok s a → step s a = some t → I t)
    {s u : S} {as : List A} (hr : Runs step ok s as u) (hs : I s) : I u := by
  induction hr with
  | nil => exact hs
  | cons hok hstep _ ih => exact ih (hI _ _ _ hs hok hstep)

theorem Runs.snoc {s t u : S} {as : List A} {a : A} (hr : Runs step ok s as t) (hok : ok t a)
    (hstep : step t a = some u) : Runs step ok s (as ++ [a]) u := by
  induction hr with
  | nil => exact .cons hok hstep (.nil _)
  | cons hok' hstep' _ ih => exact .cons hok' hstep' (ih hok hstep)

end SomeOs.Transition
