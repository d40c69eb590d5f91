import Mathlib

/-! # Linked lists in memory

A list of addresses that a head and the next fields of the addresses lead through.
-/
namespace SomeOs.LinkedList
variable {A : Type*}

def Chain (next : A → Option A) : Option A → List A → Prop
  | head, [] => head = none
  | head, a :: l => head = some a ∧ Chain next (next a) l

/-- At most `n` addresses from the head on; there is no result when there are more. -/
def walk (next : A → Option A) : ℕ → Option A → Option (List A)
  | _, none => some []
  | 0, some _ => none
  | n + 1, some a => (walk next n (next a)).map (a :: ·)

section Chain
variable {next next' : A → Option A} {head : Option A} {l l' : List A} {a b : A}

@[simp] theorem chain_nil : Chain next head [] ↔ head = none := Iff.rfl

@[simp] theorem chain_cons : Chain next head (a :: l) ↔ head = some a ∧ Chain next (next a) l := Iff.rfl

theorem Chain.eq_nil (h : Chain next none l) : l = [] := by
  cases l with
  | nil => rfl
  | cons a l => cases h.1

theorem Chain.head_eq (h : Chain next head l) : head = l.head? := by
  cases l with
  | nil => exact h
  | cons a l => exact h.1

theorem Chain.unique (h : Chain next head l) (h' : Chain next head l') : l = l' := by
  induction l generalizing head l' with
  | nil =>
    cases h
    exact h'.eq_nil.symm
  | cons a l ih =>
    obtain ⟨rfl, h⟩ := h
    cases l' with
    | nil => cases h'
    | cons b l' =>
      obtain ⟨hb, h'⟩ := h'
      cases hb
      rw [ih h h']

theorem Chain.suffix (h : Chain next head (l ++ a :: l')) : Chain next (next a) l' := by
  induction l generalizing head with
  | nil => exact h.2
  | cons b l ih => exact ih h.2

theorem Chain.current (h : Chain next head (l ++ l')) : l.getLast?.elim head next = l'.head? := by
  rcases List.eq_nil_or_concat l with rfl | ⟨l₀, c, rfl⟩
  · exact h.head_eq
  · rw [List.concat_eq_append, List.append_assoc] at h
    rw [List.concat_eq_append, List.getLast?_append]
    exact h.suffix.head_eq

theorem Chain.nodup (h : Chain next head l) : l.Nodup := by
  induction l generalizing head with
  | nil => exact List.nodup_nil
  | cons a l ih =>
    refine List.nodup_cons.mpr ⟨fun hmem => ?_, ih h.2⟩
    obtain ⟨l₁, l₂, rfl⟩ := List.append_of_mem hmem
    have hlen := congrArg List.length (h.2.unique (Chain.suffix h.2))
    simp only [List.length_append, List.length_cons] at hlen
    omega

theorem Chain.congr (h : Chain next head l) (hnext : ∀ a ∈ l, next' a = next a) : Chain next' head l := by
  induction l generalizing head with
  | nil => exact h
  | cons a l ih =>
    refine ⟨h.1, ?_⟩
    rw [hnext a List.mem_cons_self]
    exact ih h.2 (fun b hb => hnext b (List.mem_cons_of_mem _ hb))

theorem Chain.splice {tail : List A} (h : Chain next head (l ++ a :: l'))
    (hnext : ∀ b ∈ l, next' b = next b) (htail : Chain next' (next' a) tail) :
    Chain next' head (l ++ a :: tail) := by
  induction l generalizing head with
  | nil => exact ⟨h.1, htail⟩
  | cons b l ih =>
    refine ⟨h.1, ?_⟩
    rw [hnext b List.mem_cons_self]
    exact ih h.2 (fun c hc => hnext c (List.mem_cons_of_mem _ hc))

theorem Chain.walk {n : ℕ} (h : Chain next head l) (hn : l.length ≤ n) :
    walk next n head = some l := by
  induction l generalizing head n with
  | nil =>
    cases h
    cases n <;> rfl
  | cons a l ih =>
    obtain ⟨rfl, h⟩ := h
    obtain ⟨m, rfl⟩ : ∃ m, n = m + 1 := ⟨n - 1, by simp only [List.length_cons] at hn; omega⟩
    simp only [LinkedList.walk]
    rw [ih h (by simpa using hn), Option.map_some]

end Chain

end SomeOs.LinkedList

/-! # Doubly linked lists in memory

The head and the next fields lead through the list, and the previous field of every address
is the address before it. Insertion is at the front, and an address is removed from between
its neighbours.
-/
namespace SomeOs.LinkedList
variable {A : Type*}

def Linked (next prev : A → Option A) : (before head : Option A) → List A → Prop
  | _, head, [] => head = none
  | before, head, a :: l => head = some a ∧ prev a = before ∧ Linked next prev (some a) (next a) l

def setAt [DecidableEq A] (f : A → Option A) : Option A → Option A → A → Option A
  | none, _ => f
  | some a, v => Function.update f a v

section Set
variable [DecidableEq A] {f : A → Option A} {o v : Option A} {a : A}

@[simp] theorem setAt_none : setAt f none v = f := rfl

@[simp] theorem setAt_some_self : setAt f (some a) v a = v := Function.update_self ..

theorem setAt_of_ne (h : o ≠ some a) : setAt f o v a = f a := by
  cases o with
  | none => rfl
  | some b =>
    refine Function.update_of_ne ?_ ..
    rintro rfl
    exact h rfl

theorem setAt_eq_self (h : ∀ a, o = some a → f a = v) : setAt f o v = f := by
  cases o with
  | none => rfl
  | some a =>
    rw [← h a rfl]
    exact Function.update_eq_self a f

end Set

section Linked
variable {next next' prev prev' : A → Option A} {before head : Option A} {l l₁ l₂ : List A} {a : A}

theorem Linked.chain (h : Linked next prev before head l) : Chain next head l := by
  induction l generalizing before head with
  | nil => exact h
  | cons a l ih => exact ⟨h.1, ih h.2.2⟩

theorem Linked.congr (h : Linked next prev before head l) (hnext : ∀ a ∈ l, next' a = next a)
    (hprev : ∀ a ∈ l, prev' a = prev a) : Linked next' prev' before head l := by
  induction l generalizing before head with
  | nil => exact h
  | cons a l ih =>
    refine ⟨h.1, (hprev a List.mem_cons_self).trans h.2.1, ?_⟩
    rw [hnext a List.mem_cons_self]
    exact ih h.2.2 (fun b hb => hnext b (List.mem_cons_of_mem _ hb))
      (fun b hb => hprev b (List.mem_cons_of_mem _ hb))

theorem Linked.neighbours (h : Linked next prev before head (l₁ ++ a :: l₂)) :
    prev a = l₁.getLast?.or before ∧ next a = l₂.head? := by
  induction l₁ generalizing before head with
  | nil => exact ⟨by simpa using h.2.1, h.2.2.chain.head_eq⟩
  | cons b l₁ ih =>
    obtain ⟨hprev, hnext⟩ := ih h.2.2
    refine ⟨?_, hnext⟩
    rw [hprev, List.getLast?_cons]
    cases l₁.getLast? <;> rfl

variable [DecidableEq A]

theorem Linked.setBefore (h : Linked next prev before head l) (before' : Option A) :
    Linked next (setAt prev head before') before' head l := by
  have hnodup := h.chain.nodup
  cases l with
  | nil => exact h
  | cons a l =>
    obtain ⟨rfl, -, hl⟩ := h
    refine ⟨rfl, setAt_some_self, hl.congr (fun _ _ => rfl) (fun b hb => setAt_of_ne ?_)⟩
    intro hab
    cases hab
    exact (List.nodup_cons.mp hnodup).1 hb

theorem Linked.push (h : Linked next prev none head l) (ha : a ∉ l) (hprev : prev a = none) :
    Linked (Function.update next a head) (setAt prev head (some a)) none (some a) (a :: l) := by
  refine ⟨rfl, ?_, ?_⟩
  · rw [setAt_of_ne, hprev]
    intro hhead
    have := h.chain.head_eq
    rw [hhead] at this
    exact ha (List.mem_of_mem_head? this.symm)
  · rw [Function.update_self]
    refine (h.setBefore (some a)).congr (fun b hb => Function.update_of_ne ?_ ..) (fun _ _ => rfl)
    rintro rfl
    exact ha hb

theorem Linked.unlink_later {c : A} (h : Linked next prev before head (l₁ ++ c :: a :: l₂)) :
    Linked (Function.update next c (next a)) (setAt prev (next a) (some c)) before head (l₁ ++ c :: l₂) := by
  have hnodup := h.chain.nodup
  induction l₁ generalizing before head with
  | nil =>
    obtain ⟨rfl, hprev, -, -, hl⟩ := h
    obtain ⟨hc, -⟩ := List.nodup_cons.mp hnodup
    refine ⟨rfl, ?_, ?_⟩
    · rw [setAt_of_ne, hprev]
      intro hnext
      have := hl.chain.head_eq
      rw [hnext] at this
      exact hc (List.mem_cons_of_mem _ (List.mem_of_mem_head? this.symm))
    · rw [Function.update_self]
      refine (hl.setBefore (some c)).congr (fun b hb => Function.update_of_ne ?_ ..) (fun _ _ => rfl)
      rintro rfl
      exact hc (List.mem_cons_of_mem _ hb)
  | cons b l₁ ih =>
    obtain ⟨rfl, hprev, hl⟩ := h
    obtain ⟨hb, hnodup⟩ := List.nodup_cons.mp hnodup
    refine ⟨rfl, ?_, ?_⟩
    · rw [setAt_of_ne, hprev]
      intro hnext
      rw [(show Linked next prev (some b) (next b) ((l₁ ++ [c]) ++ a :: l₂) by simpa using hl).neighbours.2] at hnext
      exact hb (List.mem_append_right _ (List.mem_cons_of_mem _ (List.mem_cons_of_mem _
        (List.mem_of_mem_head? hnext))))
    · rw [Function.update_of_ne]
      · exact ih hl hnodup
      · rintro rfl
        exact hb (List.mem_append_right _ List.mem_cons_self)

theorem Linked.unlink (h : Linked next prev none head (l₁ ++ a :: l₂)) :
    Linked (setAt next (prev a) (next a)) (setAt prev (next a) (prev a)) none
      (if prev a = none then next a else head) (l₁ ++ l₂) := by
  rcases List.eq_nil_or_concat l₁ with rfl | ⟨l₀, c, rfl⟩
  · obtain ⟨-, hprev, hl⟩ := h
    rw [hprev, if_pos rfl]
    exact hl.setBefore none
  · rw [List.concat_eq_append] at h ⊢
    have hprev : prev a = some c := by simpa using h.neighbours.1
    rw [List.append_assoc] at h ⊢
    rw [hprev, if_neg (by simp)]
    exact h.unlink_later

theorem Chain.unlink (h : Chain next head (l₁ ++ a :: l₂)) :
    Chain (setAt next l₁.getLast? (next a)) (if l₁.getLast? = none then next a else head) (l₁ ++ l₂) := by
  rcases List.eq_nil_or_concat l₁ with rfl | ⟨l₀, c, rfl⟩
  · exact h.2
  · rw [List.concat_eq_append, List.append_assoc] at h
    have hc : c ∉ l₂ := by
      have hnodup := h.nodup
      simp only [List.singleton_append, List.nodup_middle, List.nodup_cons] at hnodup
      exact fun hmem => hnodup.1 (List.mem_append_right _ (List.mem_cons_of_mem _ hmem))
    simp only [List.concat_eq_append, List.getLast?_concat, reduceCtorEq, if_false, List.append_assoc,
      List.singleton_append]
    refine h.splice (fun b hb => setAt_of_ne ?_) ?_
    · rintro ⟨⟩
      have hnodup := h.nodup
      rw [List.singleton_append, List.nodup_middle, List.nodup_cons] at hnodup
      exact hnodup.1 (List.mem_append_left _ hb)
    · rw [setAt_some_self]
      refine h.suffix.2.congr (fun b hb => setAt_of_ne ?_)
      rintro ⟨⟩
      exact hc hb

end Linked

end SomeOs.LinkedList
