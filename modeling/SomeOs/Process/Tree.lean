import SomeOs.Process.Types

/-! # The lists of the process tree

The children of every process and all processes form doubly linked lists, and a process that
has not been reaped is in the list of its parent. Reaped processes are unlinked a second time
when they are finalized, by the links that they had when they were reaped, and the loop that
should give the children of a process to its parent follows the list of the parent.
-/
namespace SomeOs.Process
open LinkedList Transition
variable {P : Type*}

structure Shape (s : Processes P) (kids : P → List P) (all : List P) : Prop where
  lists : ∀ p, s.phase p ≠ .absent → Linked s.childNext s.childPrev none (s.children p) (kids p)
  mem : ∀ p c, s.phase p ≠ .absent → (c ∈ kids p ↔ s.phase c = .alive ∧ s.parent c = some p)
  parents : ∀ c p, s.phase c = .alive → s.parent c = some p → s.phase p ≠ .absent
  global : Linked s.globalNext s.globalPrev none s.globalFirst all
  all : ∀ p, p ∈ all ↔ s.phase p ≠ .absent

/-- The lists of the children are doubly linked and hold the processes that are not reaped by
their parents, and the global list holds every process. -/
def TreeIntact (s : Processes P) : Prop := ∃ kids all, Shape s kids all

/-- The process that is finalized has not been freed. If it has a parent it has no children,
and if it has been reaped its former neighbours are still linked to each other. -/
def Unlinkable (s : Processes P) : ProcessAction P → Prop
  | .finalize p => s.phase p ≠ .absent ∧ ∀ q, s.parent p = some q → s.children p = none ∧
    (s.phase p = .reaped →
      (s.childPrev p = none → s.children q = s.childNext p) ∧
      (∀ a, s.childPrev p = some a → s.childNext a = s.childNext p) ∧
      (∀ b, s.childNext p = some b → s.childPrev b = s.childPrev p))
  | _ => True

section Shape
variable {s t : Processes P} {kids : P → List P} {all : List P} {p q : P}

theorem Shape.congr (h : Shape s kids all) (hchildren : t.children = s.children)
    (hnext : t.childNext = s.childNext) (hprev : t.childPrev = s.childPrev) (hparent : t.parent = s.parent)
    (hglobal : t.globalFirst = s.globalFirst) (hgnext : t.globalNext = s.globalNext)
    (hgprev : t.globalPrev = s.globalPrev) (hphase : t.phase = s.phase) : Shape t kids all := by
  constructor
  · rw [hchildren, hnext, hprev, hphase]
    exact h.lists
  · rw [hparent, hphase]
    exact h.mem
  · rw [hparent, hphase]
    exact h.parents
  · rw [hglobal, hgnext, hgprev]
    exact h.global
  · rw [hphase]
    exact h.all

theorem Shape.alive (h : Shape s kids all) (hp : s.phase p ≠ .absent) {c : P} (hc : c ∈ kids p) :
    s.phase c = .alive :=
  ((h.mem p c hp).mp hc).1

theorem Shape.parent_eq (h : Shape s kids all) (hp : s.phase p ≠ .absent) {c : P} (hc : c ∈ kids p) :
    s.parent c = some p :=
  ((h.mem p c hp).mp hc).2

theorem Shape.disjoint (h : Shape s kids all) (hp : s.phase p ≠ .absent) (hq : s.phase q ≠ .absent)
    (hpq : p ≠ q) {c : P} (hc : c ∈ kids p) : c ∉ kids q := by
  intro hc'
  have := (h.parent_eq hp hc).symm.trans (h.parent_eq hq hc')
  cases this
  exact hpq rfl

variable [DecidableEq P]

theorem linked_update {next prev : P → Option P} {head : Option P} {l : List P} (h : Linked next prev none head l)
    (hp : p ∉ l) (v w : Option P) :
    Linked (Function.update next p v) (Function.update prev p w) none head l := by
  refine h.congr ?_ ?_
  · intro c hc
    refine Function.update_of_ne ?_ ..
    rintro rfl
    exact hp hc
  · intro c hc
    refine Function.update_of_ne ?_ ..
    rintro rfl
    exact hp hc

def newKids (kids : P → List P) (parent : Option P) (p x : P) : List P :=
  if x = p then [] else if parent = some x then p :: kids x else kids x

/-- A new process is put at the front of the lists. -/
theorem Shape.create (h : Shape s kids all) {parent : Option P} (started : Bool) (hp : s.phase p = .absent)
    (hparent : ∀ q, parent = some q → s.phase q = .alive) :
    TreeIntact (s.createUserProcess parent p started) := by
  have hne : ∀ x, s.phase x ≠ .absent → x ≠ p := by
    rintro x hx rfl
    exact hx hp
  have hfresh : ∀ x, s.phase x ≠ .absent → p ∉ kids x := by
    intro x hx hmem
    have := h.alive hx hmem
    rw [hp] at this
    cases this
  have hall : p ∉ all := fun hmem => (h.all p).mp hmem hp
  have hlists : ∀ x, s.phase x ≠ .absent → Linked (Function.update s.childNext p none)
      (Function.update s.childPrev p none) none (s.children x) (kids x) :=
    fun x hx => linked_update (h.lists x hx) (hfresh x hx) none none
  have hglobal : Linked (Function.update s.globalNext p s.globalFirst)
      (setAt (Function.update s.globalPrev p none) s.globalFirst (some p)) none (some p) (p :: all) := by
    have := (linked_update h.global hall none none).push hall (Function.update_self ..)
    rwa [Function.update_idem] at this
  have hphase : ∀ x, Function.update s.phase p .alive x ≠ .absent ↔ x = p ∨ s.phase x ≠ .absent := by
    intro x
    by_cases hx : x = p
    · simp [hx]
    · simp [hx]
  have hparents : ∀ c x, Function.update s.phase p .alive c = .alive → Function.update s.parent p parent c = some x →
      Function.update s.phase p .alive x ≠ .absent := by
    intro c x hc hcx
    rw [hphase]
    by_cases hcp : c = p
    · rw [hcp, Function.update_self] at hcx
      exact Or.inr (by rw [hparent x hcx]; simp)
    · rw [Function.update_of_ne hcp] at hc hcx
      exact Or.inr (h.parents c x hc hcx)
  have hmem : ∀ x, x ∈ p :: all ↔ Function.update s.phase p .alive x ≠ .absent := by
    intro x
    rw [hphase, List.mem_cons, h.all]
  have hkids : ∀ x c, Function.update s.phase p .alive x ≠ .absent →
      (c ∈ newKids kids parent p x ↔
        Function.update s.phase p .alive c = .alive ∧ Function.update s.parent p parent c = some x) := by
    intro x c hx
    unfold newKids
    by_cases hxp : x = p
    · rw [if_pos hxp, hxp]
      refine ⟨fun hc => (by cases hc), ?_⟩
      rintro ⟨hc, hcx⟩
      by_cases hcp : c = p
      · rw [hcp, Function.update_self] at hcx
        have := hparent p hcx
        rw [hp] at this
        cases this
      · rw [Function.update_of_ne hcp] at hc hcx
        exact absurd hp (h.parents c p hc hcx)
    · rw [if_neg hxp]
      have hx := ((hphase x).mp hx).resolve_left hxp
      by_cases hcp : c = p
      · rw [hcp, Function.update_self, Function.update_self]
        split_ifs with hpx
        · exact ⟨fun _ => ⟨rfl, hpx⟩, fun _ => List.mem_cons_self⟩
        · exact ⟨fun hmem => absurd hmem (hfresh x hx), fun hand => absurd hand.2 hpx⟩
      · rw [Function.update_of_ne hcp, Function.update_of_ne hcp, ← h.mem x c hx]
        split_ifs
        · exact ⟨fun hmem => (List.mem_cons.mp hmem).resolve_left hcp, List.mem_cons_of_mem _⟩
        · exact Iff.rfl
  refine ⟨newKids kids parent p, p :: all, ?_⟩
  cases parent with
  | none =>
    simp only [Processes.createUserProcess, Processes.registerProcess, Function.update_self, Function.update_idem]
    refine ⟨?_, hkids, hparents, hglobal, hmem⟩
    intro x hx
    dsimp only at hx ⊢
    by_cases hxp : x = p
    · rw [hxp, Function.update_self, newKids, if_pos rfl]
      rfl
    · rw [Function.update_of_ne hxp, newKids, if_neg hxp, if_neg (by simp)]
      exact hlists x (((hphase x).mp hx).resolve_left hxp)
  | some q =>
    have hq : s.phase q ≠ .absent := by
      rw [hparent q rfl]
      simp
    have hpush := (hlists q hq).push (hfresh q hq) (Function.update_self ..)
    simp only [Processes.createUserProcess, Processes.registerProcess, Function.update_self, Function.update_idem,
      Function.update_of_ne (hne q hq)] at hpush ⊢
    refine ⟨?_, hkids, hparents, hglobal, hmem⟩
    intro x hx
    dsimp only at hx ⊢
    by_cases hxq : x = q
    · rw [hxq, Function.update_self, newKids, if_neg (hne q hq), if_pos rfl]
      exact hpush
    rw [Function.update_of_ne hxq, newKids]
    by_cases hxp : x = p
    · rw [hxp, Function.update_self, if_pos rfl]
      rfl
    rw [Function.update_of_ne hxp, if_neg hxp, if_neg (fun h => hxq (Option.some.inj h).symm)]
    have hx := ((hphase x).mp hx).resolve_left hxp
    -- The list of another process does not have the former first child of `q`.
    refine (h.lists x hx).congr ?_ ?_
    · intro c hc
      have hcp : c ≠ p := fun hcp => hfresh x hx (hcp ▸ hc)
      exact Function.update_of_ne hcp ..
    · intro c hc
      have hcp : c ≠ p := fun hcp => hfresh x hx (hcp ▸ hc)
      rw [setAt_of_ne, Function.update_of_ne hcp]
      intro hhead
      have := (h.lists q hq).chain.head_eq
      rw [hhead] at this
      exact h.disjoint hx hq hxq hc (List.mem_of_mem_head? this.symm)

/-- The lists after a child has been unlinked. -/
theorem Shape.unlinkChild (h : Shape s kids all) (hq : s.phase q ≠ .absent) {l₁ l₂ : List P}
    (hkids : kids q = l₁ ++ p :: l₂) {x : P} (hx : s.phase x ≠ .absent) :
    Linked (s.unlinkChild q p (s.childPrev p)).childNext (s.unlinkChild q p (s.childPrev p)).childPrev none
      ((s.unlinkChild q p (s.childPrev p)).children x) (Function.update kids q (l₁ ++ l₂) x) := by
  have hlist := h.lists q hq
  rw [hkids] at hlist
  dsimp only [Processes.unlinkChild]
  by_cases hxq : x = q
  · have hunlink := hlist.unlink
    rw [hxq, Function.update_self]
    by_cases hprev : s.childPrev p = none
    · rw [if_pos hprev] at hunlink ⊢
      rw [Function.update_self]
      exact hunlink
    · rw [if_neg hprev] at hunlink ⊢
      exact hunlink
  · have hchildren : (if s.childPrev p = none then Function.update s.children q (s.childNext p)
        else s.children) x = s.children x := by
      split_ifs
      · exact Function.update_of_ne hxq ..
      · rfl
    obtain ⟨hprev, hnext⟩ := hlist.neighbours
    rw [hchildren, Function.update_of_ne hxq]
    refine (h.lists x hx).congr ?_ ?_
    · intro c hc
      refine setAt_of_ne ?_
      intro hcp
      rw [hprev, Option.or_none] at hcp
      refine h.disjoint hx hq hxq hc ?_
      rw [hkids]
      exact List.mem_append_left _ (List.mem_of_mem_getLast? hcp)
    · intro c hc
      refine setAt_of_ne ?_
      intro hcp
      rw [hnext] at hcp
      refine h.disjoint hx hq hxq hc ?_
      rw [hkids]
      exact List.mem_append_right _ (List.mem_cons_of_mem _ (List.mem_of_mem_head? hcp))

theorem Shape.mem_unlinked (h : Shape s kids all) (hq : s.phase q ≠ .absent) {l₁ l₂ : List P}
    (hkids : kids q = l₁ ++ p :: l₂) {x : P} (hx : s.phase x ≠ .absent) (c : P) :
    c ∈ Function.update kids q (l₁ ++ l₂) x ↔ c ≠ p ∧ s.phase c = .alive ∧ s.parent c = some x := by
  have hp : p ∈ kids q := by
    rw [hkids]
    exact List.mem_append_right _ List.mem_cons_self
  rw [← h.mem x c hx]
  by_cases hxq : x = q
  · have hnodup := (h.lists q hq).chain.nodup
    rw [hkids, List.nodup_middle] at hnodup
    obtain ⟨hnot, -⟩ := List.nodup_cons.mp hnodup
    rw [hxq, Function.update_self, hkids]
    constructor
    · intro hc
      refine ⟨fun hcp => hnot (hcp ▸ hc), ?_⟩
      simp only [List.mem_append, List.mem_cons] at hc ⊢
      exact hc.imp_right Or.inr
    · rintro ⟨hcp, hc⟩
      simp only [List.mem_append, List.mem_cons] at hc ⊢
      exact hc.imp_right (fun hc => hc.resolve_left hcp)
  · rw [Function.update_of_ne hxq]
    refine ⟨fun hc => ⟨fun hcp => ?_, hc⟩, fun hc => hc.2⟩
    rw [hcp] at hc
    exact h.disjoint hx hq hxq hc hp

/-- A process is taken from the list of its parent by a wait. -/
theorem Shape.reap (h : Shape s kids all) (hq : s.phase q ≠ .absent) {l₁ l₂ : List P}
    (hkids : kids q = l₁ ++ p :: l₂) :
    Shape { s.unlinkChild q p (s.childPrev p) with phase := Function.update s.phase p .reaped }
      (Function.update kids q (l₁ ++ l₂)) all := by
  have hp : s.phase p = .alive := h.alive hq (by rw [hkids]; exact List.mem_append_right _ List.mem_cons_self)
  have hphase : ∀ x, Function.update s.phase p .reaped x ≠ .absent ↔ s.phase x ≠ .absent := by
    intro x
    by_cases hx : x = p
    · simp [hx, hp]
    · simp [hx]
  have halive : ∀ c, Function.update s.phase p .reaped c = .alive ↔ c ≠ p ∧ s.phase c = .alive := by
    intro c
    by_cases hc : c = p
    · simp [hc]
    · simp [hc]
  refine ⟨fun x hx => h.unlinkChild hq hkids ((hphase x).mp hx), ?_, ?_, h.global, ?_⟩
  · intro x c hx
    dsimp only at hx ⊢
    rw [h.mem_unlinked hq hkids ((hphase x).mp hx), halive, and_assoc]
    rfl
  · intro c x hc hcx
    exact (hphase x).mpr (h.parents c x ((halive c).mp hc).2 hcx)
  · intro x
    exact (h.all x).trans (hphase x).symm

/-- A process is taken from the global list and freed, when `u` has lists without it. -/
theorem Shape.finalize (h : Shape s kids all) (hp : s.phase p ≠ .absent) {u : Processes P} (kids' : P → List P)
    (hfirst : u.globalFirst = s.globalFirst) (hnext : u.globalNext = s.globalNext)
    (hprev : u.globalPrev = s.globalPrev) (hphase : u.phase = s.phase)
    (hlists : ∀ x, x ≠ p → s.phase x ≠ .absent → Linked u.childNext u.childPrev none (u.children x) (kids' x))
    (hmem : ∀ x c, x ≠ p → s.phase x ≠ .absent →
      (c ∈ kids' x ↔ c ≠ p ∧ s.phase c = .alive ∧ u.parent c = some x))
    (hparents : ∀ c x, c ≠ p → s.phase c = .alive → u.parent c = some x → x ≠ p ∧ s.phase x ≠ .absent) :
    TreeIntact { u.unlinkGlobal p with phase := Function.update (u.unlinkGlobal p).phase p .absent } := by
  obtain ⟨l₁, l₂, hall⟩ := List.append_of_mem ((h.all p).mpr hp)
  have hglobal := h.global
  rw [hall] at hglobal
  have hunlink := hglobal.unlink
  have hregistered : ∀ x, Function.update s.phase p .absent x ≠ .absent ↔ x ≠ p ∧ s.phase x ≠ .absent := by
    intro x
    by_cases hx : x = p
    · simp [hx]
    · simp [hx]
  have halive : ∀ c, Function.update s.phase p .absent c = .alive ↔ c ≠ p ∧ s.phase c = .alive := by
    intro c
    by_cases hc : c = p
    · simp [hc]
    · simp [hc]
  refine ⟨kids', l₁ ++ l₂, ?_⟩
  dsimp only [Processes.unlinkGlobal]
  rw [hfirst, hnext, hprev, hphase]
  refine ⟨?_, ?_, ?_, hunlink, ?_⟩
  · intro x hx
    obtain ⟨hxp, hx⟩ := (hregistered x).mp hx
    exact hlists x hxp hx
  · intro x c hx
    obtain ⟨hxp, hx⟩ := (hregistered x).mp hx
    dsimp only
    rw [hmem x c hxp hx, halive, and_assoc]
  · intro c x hc hcx
    obtain ⟨hcp, hc⟩ := (halive c).mp hc
    exact (hregistered x).mpr (hparents c x hcp hc hcx)
  · intro x
    have hnodup := hglobal.chain.nodup
    rw [List.nodup_middle] at hnodup
    obtain ⟨hnot, -⟩ := List.nodup_cons.mp hnodup
    dsimp only
    rw [hregistered, ← h.all x, hall]
    simp only [List.mem_append, List.mem_cons] at hnot ⊢
    constructor
    · intro hx
      exact ⟨fun hxp => hnot (hxp ▸ hx), hx.imp_right Or.inr⟩
    · rintro ⟨hxp, hx⟩
      exact hx.imp_right (fun hx => hx.resolve_left hxp)

end Shape

section Wait
variable {s t : Processes P} {kids : P → List P} {all : List P} {p : P}

theorem Shape.current (h : Shape s kids all) (hp : s.phase p ≠ .absent) {l₁ l₂ : List P}
    (hkids : kids p = l₁ ++ l₂) : l₁.getLast?.elim (s.children p) s.childNext = l₂.head? := by
  have hlist := h.lists p hp
  rw [hkids] at hlist
  exact hlist.chain.current

theorem Shape.basicProcessWait [DecidableEq P] (h : Shape s kids all) (hp : s.phase p ≠ .absent) {pid : ℤ} {flags fuel found : ℕ}
    {l₁ l₂ : List P} (hkids : kids p = l₁ ++ l₂) {result : Except WaitError ℤ}
    (hw : Processes.basicProcessWait p pid flags fuel s l₁.getLast? found = some (t, result)) : TreeIntact t := by
  induction fuel generalizing l₁ l₂ found with
  | zero =>
    unfold Processes.basicProcessWait at hw
    rw [h.current hp hkids] at hw
    cases l₂ with
    | nil =>
      cases hw
      exact ⟨kids, all, h⟩
    | cons c l₂ => cases hw
  | succ fuel ih =>
    unfold Processes.basicProcessWait at hw
    rw [h.current hp hkids] at hw
    cases l₂ with
    | nil =>
      cases hw
      exact ⟨kids, all, h⟩
    | cons c l₂ =>
      have hnext : kids p = (l₁ ++ [c]) ++ l₂ := by simpa using hkids
      have hlast : (l₁ ++ [c]).getLast? = some c := by simp
      simp only [List.head?_cons] at hw
      split_ifs at hw with hasks hreports htasks
      · cases hw
        exact ⟨kids, all, h.congr rfl rfl rfl rfl rfl rfl rfl rfl⟩
      · cases hw
        have hlist := h.lists p hp
        rw [hkids] at hlist
        have hprev : s.childPrev c = l₁.getLast? := by rw [hlist.neighbours.1, Option.or_none]
        rw [← hprev]
        exact ⟨_, all, (h.reap hp hkids).congr rfl rfl rfl rfl rfl rfl rfl rfl⟩
      · rw [← hlast] at hw
        exact ih hnext hw
      · rw [← hlast] at hw
        exact ih hnext hw

end Wait

section Finalize
variable [DecidableEq P] {s t : Processes P} {kids : P → List P} {all : List P} {p : P}

/-- The children of a process without a parent lose their parent, and those that have ended
are finalized. -/
theorem disown_chain {head : Option P} {l : List P} {fuel : ℕ} (h : Chain s.childNext head l) :
    Processes.disown fuel s head = if l.length ≤ fuel then some { s with
      parent := fun c => if c ∈ l then none else s.parent c
      finalizing := s.finalizing ++ l.filter (fun c => !s.tasks c) } else none := by
  induction l generalizing s head fuel with
  | nil =>
    cases h
    cases fuel <;> simp [Processes.disown]
  | cons c l ih =>
    obtain ⟨rfl, h⟩ := h
    cases fuel with
    | zero => rfl
    | succ fuel =>
      have hparent : ∀ x, (if x ∈ l then none else Function.update s.parent c none x) =
          if x ∈ c :: l then none else s.parent x := by
        intro x
        by_cases hxc : x = c
        · simp [hxc]
        · simp [hxc]
      simp only [Processes.disown]
      cases htasks : s.tasks c with
      | true =>
        rw [if_pos rfl]
        refine (ih (s := { s with parent := Function.update s.parent c none }) h).trans ?_
        simp only [hparent, List.length_cons, Nat.add_le_add_iff_right, List.filter_cons, htasks, Bool.not_true,
          Bool.false_eq_true, ↓reduceIte]
      | false =>
        rw [if_neg (by simp)]
        refine (ih (s := { s with parent := Function.update s.parent c none, finalizing := s.finalizing ++ [c] })
          h).trans ?_
        simp only [hparent, List.length_cons, Nat.add_le_add_iff_right, List.filter_cons, htasks, Bool.not_false,
          ↓reduceIte, List.append_assoc, List.singleton_append]

@[simp] theorem reparent_none (q : P) (fuel : ℕ) (s : Processes P) :
    Processes.reparent q fuel s none = some s := by
  cases fuel <;> rfl

omit [DecidableEq P] in
theorem Shape.childless (h : Shape s kids all) (hp : s.phase p ≠ .absent) (hchildren : s.children p = none)
    {c : P} (hc : s.phase c = .alive) : s.parent c ≠ some p := by
  intro hcp
  have hlist := (h.lists p hp).chain
  rw [hchildren] at hlist
  have hmem := (h.mem p c hp).mpr ⟨hc, hcp⟩
  rw [hlist.eq_nil] at hmem
  cases hmem

theorem Shape.processFinalizeTask {fuel : ℕ} (h : Shape s kids all) (hok : Unlinkable s (.finalize p))
    (ht : s.processFinalizeTask fuel p = some t) : TreeIntact t := by
  obtain ⟨hp, hparent⟩ := hok
  obtain ⟨u, hu, rfl⟩ := Option.map_eq_some_iff.mp ht
  unfold Processes.unregisterProcess at hu
  dsimp only at hu
  cases hq : s.parent p with
  | some q =>
    obtain ⟨hchildren, hreaped⟩ := hparent q hq
    rw [hq] at hu
    simp only [hchildren, reparent_none, Option.map_some, Option.some.injEq] at hu
    subst hu
    have hleaf : ∀ c x, c ≠ p → s.phase c = .alive → s.parent c = some x → x ≠ p ∧ s.phase x ≠ .absent := by
      intro c x _ hc hcx
      refine ⟨?_, h.parents c x hc hcx⟩
      rintro rfl
      exact h.childless hp hchildren hc hcx
    cases hphase : s.phase p with
    | absent => exact absurd hphase hp
    | alive =>
      have hqphase := h.parents p q hphase hq
      obtain ⟨l₁, l₂, hkids⟩ := List.append_of_mem ((h.mem q p hqphase).mpr ⟨hphase, hq⟩)
      exact h.finalize hp (Function.update kids q (l₁ ++ l₂)) rfl rfl rfl rfl (fun x _ hx => h.unlinkChild hqphase hkids hx)
        (fun x c _ hx => h.mem_unlinked hqphase hkids hx c) hleaf
    | reaped =>
      obtain ⟨hhead, hbefore, hafter⟩ := hreaped hphase
      have hnext : setAt s.childNext (s.childPrev p) (s.childNext p) = s.childNext := setAt_eq_self hbefore
      have hprev : setAt s.childPrev (s.childNext p) (s.childPrev p) = s.childPrev := setAt_eq_self hafter
      have hfirst : (if s.childPrev p = none then Function.update s.children q (s.childNext p) else s.children) =
          s.children := by
        split_ifs with hnone
        · rw [← hhead hnone]
          exact Function.update_eq_self ..
        · rfl
      refine h.finalize hp kids rfl rfl rfl rfl (fun x _ hx => ?_) (fun x c _ hx => ?_) hleaf
      · dsimp only [Processes.unlinkChild]
        rw [hnext, hprev, hfirst]
        exact h.lists x hx
      · rw [h.mem x c hx]
        refine ⟨fun hc => ⟨?_, hc⟩, fun hc => hc.2⟩
        rintro rfl
        rw [hphase] at hc
        cases hc.1
  | none =>
    rw [hq] at hu
    obtain ⟨v, hv, rfl⟩ := Option.map_eq_some_iff.mp hu
    rw [disown_chain (s := { s with finalizing := s.finalizing.erase p }) (h.lists p hp).chain] at hv
    split_ifs at hv
    cases hv
    refine h.finalize hp kids rfl rfl rfl rfl (fun x _ hx => h.lists x hx) ?_ ?_
    · intro x c hxp hx
      dsimp only
      rw [h.mem x c hx]
      constructor
      · rintro ⟨hc, hcx⟩
        have hnot : c ∉ kids p := fun hmem => h.disjoint hp hx (Ne.symm hxp) hmem ((h.mem x c hx).mpr ⟨hc, hcx⟩)
        refine ⟨?_, hc, by rw [if_neg hnot, hcx]⟩
        rintro rfl
        rw [hq] at hcx
        cases hcx
      · rintro ⟨-, hc, hcx⟩
        split_ifs at hcx
        exact ⟨hc, hcx⟩
    · intro c x _ hc hcx
      dsimp only at hcx
      split_ifs at hcx with hmem
      refine ⟨?_, h.parents c x hc hcx⟩
      rintro rfl
      exact hmem ((h.mem x c hp).mpr ⟨hc, hcx⟩)

theorem unregisterProcess_ends (h : TreeIntact s) (hok : Unlinkable s (.finalize p)) :
    ∃ fuel t, s.unregisterProcess fuel p = some t ∧
      ∀ c, s.phase c = .alive → s.parent c = some p → t.parent c = s.parent p := by
  obtain ⟨kids, all, h⟩ := h
  obtain ⟨hp, hparent⟩ := hok
  unfold Processes.unregisterProcess
  cases hq : s.parent p with
  | some q =>
    obtain ⟨hchildren, -⟩ := hparent q hq
    refine ⟨0, _, by rw [hchildren]; rfl, ?_⟩
    intro c hc hcp
    exact absurd hcp (h.childless hp hchildren hc)
  | none =>
    refine ⟨(kids p).length, _, by dsimp only; rw [disown_chain (h.lists p hp).chain, if_pos le_rfl]; rfl, ?_⟩
    intro c hc hcp
    exact if_pos ((h.mem p c hp).mpr ⟨hc, hcp⟩)

/-- The loop over the children follows the list of the parent, and does not end when the parent
has other children. -/
theorem reparent_diverges {q c d : P} (hcd : c ≠ d) (hchildren : s.children q = some d) (fuel : ℕ) :
    Processes.reparent q fuel s (some c) = none := by
  induction fuel generalizing s c d with
  | zero => rfl
  | succ fuel ih =>
    simp only [Processes.reparent, Function.update_self, hchildren]
    exact ih hcd.symm (Function.update_self ..)

end Finalize

/-- A step under the condition keeps the lists. -/
theorem processStep_intact [DecidableEq P] (fuel : ℕ) (s : Processes P) (act : ProcessAction P) (t : Processes P)
    (hs : TreeIntact s) (hok : Unlinkable s act) (h : processStep fuel s act = some t) : TreeIntact t := by
  obtain ⟨kids, all, hs⟩ := hs
  cases act with
  | create parent p started =>
    simp only [processStep] at h
    split_ifs at h with hcan hstarted
    · cases h
      exact hs.create _ hcan.1 (fun q hq => (hcan.2 q hq).1)
    · cases h
      obtain ⟨kids', all', hnew⟩ := hs.create started hcan.1 (fun q hq => (hcan.2 q hq).1)
      exact ⟨kids', all', hnew.congr rfl rfl rfl rfl rfl rfl rfl rfl⟩
  | setStatus p status =>
    cases h
    exact ⟨kids, all, hs.congr rfl rfl rfl rfl rfl rfl rfl rfl⟩
  | setPgid p pgid =>
    cases h
    exact ⟨kids, all, hs.congr rfl rfl rfl rfl rfl rfl rfl rfl⟩
  | removeTask p =>
    simp only [processStep, Processes.removeProcessTask] at h
    split_ifs at h
    · cases h
      exact ⟨kids, all, hs.congr rfl rfl rfl rfl rfl rfl rfl rfl⟩
    · cases h
      exact ⟨kids, all, hs.congr rfl rfl rfl rfl rfl rfl rfl rfl⟩
  | wait p pid flags =>
    simp only [processStep] at h
    split_ifs at h with hcan
    obtain ⟨⟨t', result⟩, hw, rfl⟩ := Option.map_eq_some_iff.mp h
    have hp : s.phase p ≠ .absent := by
      rw [hcan.1]
      simp
    exact hs.basicProcessWait hp (List.nil_append _).symm hw
  | finalize p =>
    simp only [processStep] at h
    split_ifs at h
    exact hs.processFinalizeTask hok h

theorem treeIntact_noProcesses : TreeIntact (noProcesses P) :=
  ⟨fun _ => [], [], fun _ h => absurd rfl h, fun _ _ h => absurd rfl h, fun _ _ h => (by cases h), rfl,
    fun _ => ⟨fun h => (by cases h), fun h => absurd rfl h⟩⟩

/-- While processes are finalized without children and next to the neighbours that they had, the
lists are intact and the loops of the finalization end. -/
theorem runs_tree_intact [DecidableEq P] (fuel : ℕ) (acts : List (ProcessAction P)) (s : Processes P)
    (hr : Runs (processStep fuel) Unlinkable (noProcesses P) acts s) :
    TreeIntact s ∧ ∀ p, Unlinkable s (.finalize p) → ∃ fuel t, s.unregisterProcess fuel p = some t ∧
      ∀ c, s.phase c = .alive → s.parent c = some p → t.parent c = s.parent p := by
  have hs := hr.invariant (processStep_intact fuel) treeIntact_noProcesses
  exact ⟨hs, fun p hok => unregisterProcess_ends hs hok⟩

instance [DecidableEq P] (s : Processes P) (act : ProcessAction P) : Decidable (Unlinkable s act) := by
  unfold Unlinkable
  cases act <;> infer_instance

/-- Two children of the first process end; one is reaped and finalized, and then the first process
ends before the other. -/
def familyLife : List (ProcessAction ℕ) :=
  [.create none 0 true, .create (some 0) 1 true, .create (some 0) 2 true, .removeTask 1, .wait 0 (-1) 0,
    .finalize 1, .create (some 2) 1 true, .removeTask 2, .removeTask 0, .finalize 0, .finalize 2]

theorem runs_tree_intact_family :
    ∃ s, Runs (processStep 4) Unlinkable (noProcesses ℕ) familyLife s ∧ TreeIntact s ∧ s.parent 1 = none := by
  obtain ⟨s, hs⟩ : ∃ s, execOk (processStep 4) Unlinkable (noProcesses ℕ) familyLife = some s :=
    Option.isSome_iff_exists.mp (by decide)
  have hr := Runs.of_execOk hs
  have hparent : (execOk (processStep 4) Unlinkable (noProcesses ℕ) familyLife).map (·.parent 1) = some none := by
    decide
  rw [hs] at hparent
  exact ⟨s, hr, (runs_tree_intact 4 _ s hr).1, Option.some.inj hparent⟩

/-- A child that is created between the wait and the finalization of its sibling is lost. -/
theorem tree_not_intact : ¬∀ (fuel : ℕ) (acts : List (ProcessAction ℕ)) (s : Processes ℕ),
    Runs (processStep fuel) (fun _ _ => True) (noProcesses ℕ) acts s → TreeIntact s := by
  intro h
  obtain ⟨s, hs⟩ : ∃ s, exec (processStep 4) (noProcesses ℕ) [.create none 0 true, .create (some 0) 1 true,
      .removeTask 1, .wait 0 (-1) 0, .create (some 0) 2 true, .finalize 1] = some s := ⟨_, rfl⟩
  obtain ⟨kids, all, hshape⟩ := h 4 _ s (Runs.of_exec hs (fun _ _ _ => trivial))
  have hfields : (exec (processStep 4) (noProcesses ℕ) [.create none 0 true, .create (some 0) 1 true,
      .removeTask 1, .wait 0 (-1) 0, .create (some 0) 2 true, .finalize 1]).map
      (fun s => (s.phase 0, s.children 0, s.phase 2, s.parent 2)) = some (.alive, none, .alive, some 0) := by
    decide
  rw [hs] at hfields
  simp only [Option.map_some, Option.some.injEq, Prod.mk.injEq] at hfields
  obtain ⟨h0, hchildren, h2, hparent⟩ := hfields
  exact hshape.childless (by rw [h0]; simp) hchildren h2 hparent

end SomeOs.Process
