import SomeOs.Memory.Cutting
import SomeOs.Memory.Resolve

/-! # Accesses one after the other

An access that has been made has the same answer again and changes nothing more, whatever
other accesses come in between. Only the first answer for a page that is not asked for at its
start may be another one, when it takes the fault of the page.
-/
namespace SomeOs.Paging

theorem leafAddr_mod (p : ℕ × PageTableEntry) (va : ℕ) : leafAddr p va % pageSize = va % pageSize := by
  have hmul : p.2.paddr * pageSize / (pageSize * 2 ^ (9 * p.1)) * (pageSize * 2 ^ (9 * p.1)) =
      pageSize * (p.2.paddr * pageSize / (pageSize * 2 ^ (9 * p.1)) * 2 ^ (9 * p.1)) := by ring
  unfold leafAddr
  rw [hmul, Nat.mul_add_mod, Nat.mod_mul_right_mod]

end SomeOs.Paging

namespace SomeOs.MemSpace
open SparseArray PageRef Paging Scatter

/-- The write access has the answer `w` and changes nothing. -/
def Stable (t : MemState) (id va : ℕ) (allow_all : Bool) (w : ℕ) : Prop :=
  virtToPhys t (some id) va true allow_all = (w, t)

def Refused (t : MemState) (id va : ℕ) (allow_all : Bool) : Prop :=
  ∀ p, t.walk id va = some p → ¬Permitted p.2 true allow_all ∨ TakesFault p.2 true ∧ NeedsPage t p.2 ∧ t.free = []

section Access
variable {s t : MemState} {id va va' w : ℕ} {e : PageTableEntry} {allow_all : Bool}

/-- All that a write access can do. -/
theorem access_cases (ht : Sane t) (id va : ℕ) (allow_all : Bool) :
    Refused t id va allow_all ∧ virtToPhys t (some id) va true allow_all = (0, t) ∨
    (∃ p, t.walk id va = some p ∧ ¬TakesFault p.2 true ∧ Permitted p.2 true allow_all ∧
      virtToPhys t (some id) va true allow_all = (leafAddr p va, t)) ∨
    ∃ e, t.walk id va = some (0, e) ∧ TakesFault e true ∧ ¬(NeedsPage t e ∧ t.free = []) ∧
      virtToPhys t (some id) va true allow_all = (pageAddr (faultFrame t e), t.fault id va e) := by
  have hr := @virtToPhys_walk t id va true allow_all ht
  cases hw : t.walk id va with
  | none =>
    rw [hw] at hr
    refine Or.inl ⟨fun p hp => ?_, hr⟩
    rw [hw] at hp
    cases hp
  | some p =>
    rw [hw] at hr
    dsimp only at hr
    by_cases hfault : TakesFault p.2 true
    · rw [if_pos hfault] at hr
      have hlevel := ht.small id va p hw hfault.2.2
      by_cases hnone : NeedsPage t p.2 ∧ t.free = []
      · rw [if_pos hnone] at hr
        refine Or.inl ⟨fun q hq => ?_, hr⟩
        rw [hw] at hq
        cases hq
        exact Or.inr ⟨hfault, hnone⟩
      · rw [if_neg hnone] at hr
        refine Or.inr (Or.inr ⟨p.2, ?_, hfault, hnone, hr⟩)
        rw [← hlevel]
    · rw [if_neg hfault] at hr
      by_cases hperm : Permitted p.2 true allow_all
      · rw [if_pos hperm] at hr
        exact Or.inr (Or.inl ⟨p, rfl, hfault, hperm, hr⟩)
      · rw [if_neg hperm] at hr
        refine Or.inl ⟨fun q hq => ?_, hr⟩
        rw [hw] at hq
        cases hq
        exact Or.inl hperm

theorem fault_ne (hw : t.walk id va = some (0, e)) (hfault : TakesFault e true) : t.fault id va e ≠ t := by
  intro heq
  have hmoved : Moved t t id va e (faultFrame t e) := by
    refine ⟨hw, hfault, ?_⟩
    nth_rewrite 1 [← heq]
    rw [fault_walk hw, if_pos ⟨rfl, samePage_refl 2 va⟩]
  exact hmoved.changed rfl

theorem faultFrame_mem_or (hnone : ¬(NeedsPage t e ∧ t.free = [])) :
    faultFrame t e ∈ t.free ∨ faultFrame t e = e.paddr := by
  by_cases hneeds : NeedsPage t e
  · exact Or.inl (faultFrame_mem hneeds fun hnil => hnone ⟨hneeds, hnil⟩)
  · exact Or.inr (by rw [faultFrame, if_neg hneeds])

theorem faultFrame_ne_zero (ht : Sane t) (hw : t.walk id va = some (0, e)) (hnone : ¬(NeedsPage t e ∧ t.free = [])) :
    faultFrame t e ≠ 0 := by
  rcases faultFrame_mem_or hnone with hmem | heq
  · exact fun hz => ht.free_null (hz ▸ hmem)
  · have hnull := ht.null id va _ hw
    have hmod := Nat.mod_lt va (show 0 < pageSize by decide)
    rw [leafAddr_zero] at hnull
    intro hz
    rw [← heq, hz] at hnull
    omega

theorem Sane.fault (ht : Sane t) (hw : t.walk id va = some (0, e)) (hnone : ¬(NeedsPage t e ∧ t.free = [])) :
    Sane (t.fault id va e) := by
  obtain ⟨-, -, hfree, -⟩ := @fault_fields t id va e _ hw
  have hsub : (t.fault id va e).free ⊆ t.free := by
    rw [hfree]
    split_ifs
    · exact List.tail_subset t.free
    · exact List.Subset.refl _
  have hleaf : ∀ id' va' p, (t.fault id va e).walk id' va' = some p →
      t.walk id' va' = some p ∨ p = (0, writableCopy e (faultFrame t e)) := by
    intro id' va' p hp
    rw [fault_walk hw] at hp
    split_ifs at hp
    · exact Or.inr (Option.some.inj hp).symm
    · exact Or.inl hp
  refine ⟨fun id' va' p hp hc => ?_, fun id' va' p hp => ?_, fun f hf => ht.free_narrow f (hsub hf), fun id' va' p hp => ?_,
    fun h0 => ht.free_null (hsub h0)⟩
  · rcases hleaf id' va' p hp with hp | rfl
    · exact ht.small id' va' p hp hc
    · rfl
  · rcases hleaf id' va' p hp with hp | rfl
    · exact ht.narrow id' va' p hp
    · rcases faultFrame_mem_or hnone with hmem | heq
      · exact ht.free_narrow _ hmem
      · show faultFrame t e < 2 ^ 44
        rw [heq]
        exact ht.narrow id va _ hw
  · rcases hleaf id' va' p hp with hp | rfl
    · exact ht.null id' va' p hp
    · have hne := faultFrame_ne_zero ht hw hnone
      have hpaddr : (writableCopy e (faultFrame t e)).paddr = faultFrame t e := rfl
      rw [leafAddr_zero, hpaddr]
      exact (Nat.le_mul_of_pos_left pageSize (Nat.pos_of_ne_zero hne)).trans (Nat.le_add_right _ _)

theorem Sane.access (ht : Sane t) (id va : ℕ) (allow_all : Bool) : Sane (virtToPhys t (some id) va true allow_all).2 := by
  rcases access_cases ht id va allow_all with ⟨-, hr⟩ | ⟨p, -, -, -, hr⟩ | ⟨e, hw, -, hnone, hr⟩
  · rw [hr]
    exact ht
  · rw [hr]
    exact ht
  · rw [hr]
    exact ht.fault hw hnone

theorem Resolved.access (hz : ZeroPage s) (h : Resolved id s t) (ht : Sane t) (va : ℕ) (allow_all : Bool) :
    Resolved id s (virtToPhys t (some id) va true allow_all).2 := by
  rcases access_cases ht id va allow_all with ⟨-, hr⟩ | ⟨p, -, -, -, hr⟩ | ⟨e, hw, hfault, hnone, hr⟩
  · rw [hr]
    exact h
  · rw [hr]
    exact h
  · rw [hr]
    exact h.fault hz hw hfault hnone

theorem Stable.cases (ht : Sane t) (h : Stable t id va allow_all w) :
    Refused t id va allow_all ∧ w = 0 ∨
    ∃ p, t.walk id va = some p ∧ ¬TakesFault p.2 true ∧ Permitted p.2 true allow_all ∧ w = leafAddr p va := by
  rcases access_cases ht id va allow_all with ⟨hno, hr⟩ | ⟨p, hw, hfault, hperm, hr⟩ | ⟨e, hw, hfault, -, hr⟩
  · exact Or.inl ⟨hno, (congrArg Prod.fst (h.symm.trans hr))⟩
  · exact Or.inr ⟨p, hw, hfault, hperm, congrArg Prod.fst (h.symm.trans hr)⟩
  · exact absurd (congrArg Prod.snd (hr.symm.trans h)) (fault_ne hw hfault)

theorem stable_of_refused (ht : Sane t) (h : Refused t id va allow_all) : Stable t id va allow_all 0 := by
  rcases access_cases ht id va allow_all with ⟨-, hr⟩ | ⟨p, hw, hfault, hperm, -⟩ | ⟨e, hw, hfault, hnone, -⟩
  · exact hr
  · rcases h p hw with hno | ⟨hyes, -⟩
    · exact absurd hperm hno
    · exact absurd hyes hfault
  · rcases h _ hw with hno | ⟨-, hyes⟩
    · exact absurd (by simp [Permitted, hfault.2.2]) hno
    · exact absurd hyes hnone

theorem stable_of_granted (ht : Sane t) {p : ℕ × PageTableEntry} (hw : t.walk id va = some p) (hfault : ¬TakesFault p.2 true)
    {allow_all : Bool} (hperm : Permitted p.2 true allow_all) : Stable t id va allow_all (leafAddr p va) := by
  unfold Stable
  rw [virtToPhys_walk ht, hw]
  simp only [if_neg hfault, if_pos hperm]

theorem stable_place (ht : Sane t) (h : Stable t id va allow_all w) (hne : w ≠ 0) : w = t.place id va := by
  rcases h.cases ht with ⟨-, hzero⟩ | ⟨p, hw, -, -, heq⟩
  · exact absurd hzero hne
  · rw [place_of_walk hw, heq]

/-- An access does not change the answer of another one. -/
theorem Stable.access (ht : Sane t) (h : Stable t id va allow_all w) (va' : ℕ) :
    Stable (virtToPhys t (some id) va' true allow_all).2 id va allow_all w := by
  rcases access_cases ht id va' allow_all with ⟨-, hr⟩ | ⟨p, -, -, -, hr⟩ | ⟨e, hw, hfault, hnone, hr⟩
  · rw [hr]
    exact h
  · rw [hr]
    exact h
  · rw [hr]
    have hsane := ht.fault hw hnone
    obtain ⟨href, hzero, hfree, -⟩ := @fault_fields t id va' e _ hw
    have hother : ¬SamePage 2 va va' := by
      intro hsame
      have hwva := (walk_samePage hsame).trans hw
      rcases h.cases ht with ⟨hno, -⟩ | ⟨p, hp, hnofault, -⟩
      · rcases hno _ hwva with hno | ⟨-, hno⟩
        · exact hno (by simp [Permitted, hfault.2.2])
        · exact hnone hno
      · rw [hwva] at hp
        cases hp
        exact hnofault hfault
    have hwalk : (t.fault id va' e).walk id va = t.walk id va := by rw [fault_walk hw, if_neg fun hc => hother hc.2]
    rcases h.cases ht with ⟨hno, rfl⟩ | ⟨p, hp, hnofault, hperm, rfl⟩
    · apply stable_of_refused hsane
      intro p hp
      rw [hwalk] at hp
      rcases hno p hp with hno | ⟨htakes, hneeds, hnil⟩
      · exact Or.inl hno
      · refine Or.inr ⟨htakes, ?_, ?_⟩
        · unfold NeedsPage at hneeds ⊢
          rw [href, hzero]
          exact hneeds
        · rw [hfree, hnil]
          simp
    · exact stable_of_granted hsane (hwalk.trans hp) hnofault hperm

theorem fault_answer (ht : Sane t) (hw : t.walk id va = some (0, e)) (hfault : TakesFault e true)
    (hnone : ¬(NeedsPage t e ∧ t.free = [])) (allow_all : Bool) :
    virtToPhys t (some id) va true allow_all = (pageAddr (faultFrame t e), t.fault id va e) ∧
    Stable (t.fault id va e) id va allow_all (pageAddr (faultFrame t e) + va % pageSize) := by
  constructor
  · rw [virtToPhys_walk ht, hw]
    simp only [if_pos hfault, if_neg hnone]
  · have hwalk : (t.fault id va e).walk id va = some (0, writableCopy e (faultFrame t e)) := by
      rw [fault_walk hw, if_pos ⟨rfl, samePage_refl 2 va⟩]
    have hperm : Permitted (writableCopy e (faultFrame t e)) true allow_all := by simp [Permitted, writableCopy]
    have hstable := stable_of_granted (ht.fault hw hnone) hwalk (by simp [TakesFault, writableCopy]) hperm
    rw [leafAddr_zero] at hstable
    exact hstable

theorem access_stable (ht : Sane t) (id va : ℕ) (allow_all : Bool) :
    Stable (virtToPhys t (some id) va true allow_all).2 id va allow_all (virtToPhys t (some id) va true allow_all).1 ∨
    ∃ e, t.walk id va = some (0, e) ∧ TakesFault e true ∧ ¬(NeedsPage t e ∧ t.free = []) ∧ va % pageSize ≠ 0 := by
  rcases access_cases ht id va allow_all with ⟨hno, hr⟩ | ⟨p, hw, hfault, hperm, hr⟩ | ⟨e, hw, hfault, hnone, -⟩
  · left
    rw [hr]
    exact hr
  · left
    rw [hr]
    exact hr
  · by_cases hmod : va % pageSize = 0
    · obtain ⟨hr, hstable⟩ := fault_answer ht hw hfault hnone allow_all
      left
      rw [hr]
      rw [hmod, Nat.add_zero] at hstable
      exact hstable
    · exact Or.inr ⟨e, hw, hfault, hnone, hmod⟩

end Access

/-- The state when the first `j` positions of a buffer have been asked for. -/
def touch (s : MemState) (id a : ℕ) (allow_all : Bool) : ℕ → MemState
  | 0 => s
  | j + 1 => (virtToPhys (touch s id a allow_all j) (some id) (position a j) true allow_all).2

def answer (s : MemState) (id a : ℕ) (allow_all : Bool) (j : ℕ) : ℕ :=
  (virtToPhys (touch s id a allow_all (j + 1)) (some id) (position a j) true allow_all).1

def frameAfter (t : MemState) (p : ℕ × PageTableEntry) (va : ℕ) : ℕ :=
  if TakesFault p.2 true then faultFrame t p.2 else leafAddr p va / pageSize

/-- The first page takes a fault inside of the page, and the next one then follows it in physical memory. -/
def Slip (s : MemState) (id a : ℕ) (allow_all : Bool) : Prop :=
  ∃ e p, s.walk id a = some (0, e) ∧ TakesFault e true ∧ ¬(NeedsPage s e ∧ s.free = []) ∧ a % pageSize ≠ 0 ∧
    s.walk id (position a 1) = some p ∧ Permitted p.2 true allow_all ∧
    frameAfter (s.fault id a e) p (position a 1) = faultFrame s e + 1

section Touch
variable {s : MemState} {id a stop j k : ℕ} {allow_all : Bool}

theorem touch_sane (hs : Sane s) (id a : ℕ) (allow_all : Bool) (j : ℕ) : Sane (touch s id a allow_all j) := by
  induction j with
  | zero => exact hs
  | succ j ih => exact ih.access id (position a j) allow_all

theorem touch_resolved (hs : Sane s) (hz : ZeroPage s) (id a : ℕ) (allow_all : Bool) (j : ℕ) :
    Resolved id s (touch s id a allow_all j) := by
  induction j with
  | zero => exact Resolved.refl id s
  | succ j ih => exact ih.access hz (touch_sane hs id a allow_all j) (position a j) allow_all

theorem answer_stable (hs : Sane s) (j : ℕ) :
    Stable (touch s id a allow_all (j + 1)) id (position a j) allow_all (answer s id a allow_all j) := by
  have hstable : ∃ w, Stable (touch s id a allow_all (j + 1)) id (position a j) allow_all w := by
    rcases access_stable (touch_sane hs id a allow_all j) id (position a j) allow_all with h | ⟨e, hw, hfault, hnone, -⟩
    · exact ⟨_, h⟩
    · obtain ⟨hr, h⟩ := fault_answer (touch_sane hs id a allow_all j) hw hfault hnone allow_all
      refine ⟨pageAddr (faultFrame (touch s id a allow_all j) e) + position a j % pageSize, ?_⟩
      rw [touch, hr]
      exact h
  obtain ⟨w, h⟩ := hstable
  have hw : answer s id a allow_all j = w := congrArg Prod.fst h
  rw [hw]
  exact h

theorem stable_later (hs : Sane s) (hjk : j < k) :
    Stable (touch s id a allow_all k) id (position a j) allow_all (answer s id a allow_all j) := by
  induction hjk with
  | refl => exact answer_stable hs j
  | step _ ih => exact ih.access (touch_sane hs id a allow_all _) (position a _)

theorem answer_step (hs : Sane s) (j : ℕ) :
    virtToPhys (touch s id a allow_all (j + 1)) (some id) (position a (j + 1)) true allow_all =
      (answer s id a allow_all (j + 1), touch s id a allow_all (j + 2)) := by
  rcases access_stable (touch_sane hs id a allow_all (j + 1)) id (position a (j + 1)) allow_all with h | ⟨e, -, -, -, hmod⟩
  · exact Prod.ext (congrArg Prod.fst h).symm rfl
  · exact absurd (position_aligned (Nat.succ_ne_zero j)) hmod

theorem answer_lt (hs : Sane s) (j : ℕ) : answer s id a allow_all j < 2 ^ 57 := by
  have hsane := touch_sane hs id a allow_all (j + 1)
  rcases (answer_stable hs j).cases hsane with ⟨-, hzero⟩ | ⟨p, hw, -, -, heq⟩
  · rw [hzero]
    decide
  · rw [heq]
    refine leafAddr_lt ?_ (hsane.narrow _ _ p hw)
    unfold MemState.walk at hw
    obtain ⟨m, -, hm⟩ := Option.bind_eq_some_iff.mp hw
    exact walk_level hm

theorem answers_from (hs : Sane s) (m : ℕ) :
    Answers ⟨a, some id, allow_all⟩ true (fun j => touch s id a allow_all (max m j)) (answer s id a allow_all) where
  step j := by
    dsimp only
    by_cases hm : m ≤ j + 1
    · rw [max_eq_right hm, max_eq_right (by omega)]
      exact answer_step hs j
    · rw [max_eq_left (by omega), max_eq_left (by omega)]
      exact stable_later hs (by omega)
  again i k hik _ := stable_later hs (by omega)
  zero j hzero := by
    have hstable := @stable_later s id a j (max m (j + 1)) allow_all hs (by omega)
    rw [hzero] at hstable
    exact hstable
  narrow := answer_lt hs

theorem first_fault (hs : Sane s) {e : PageTableEntry} (hw : s.walk id a = some (0, e)) (hfault : TakesFault e true)
    (hnone : ¬(NeedsPage s e ∧ s.free = [])) (allow_all : Bool) :
    (virtToPhys s (some id) a true allow_all).1 = pageAddr (faultFrame s e) ∧
    touch s id a allow_all 1 = s.fault id a e ∧
    answer s id a allow_all 0 = pageAddr (faultFrame s e) + a % pageSize := by
  obtain ⟨hr, h⟩ := fault_answer hs hw hfault hnone allow_all
  have htouch : touch s id a allow_all 1 = s.fault id a e := congrArg Prod.snd hr
  refine ⟨congrArg Prod.fst hr, htouch, ?_⟩
  rw [answer, htouch]
  exact congrArg Prod.fst h

theorem position_one_sub (a : ℕ) : position a 1 - a = pageSize - a % pageSize := by
  rw [position_succ, pageSize]
  omega

theorem position_one_page (a : ℕ) : ¬SamePage 2 (position a 1) a := by
  intro h
  have h0 := h 0 (by decide)
  rw [position_succ] at h0
  simp only [vpn, pageSize] at h0
  omega

/-- The answer for the start of a page. -/
theorem answer_succ_eq (hs : Sane s) (j : ℕ) :
    (∃ p, (touch s id a allow_all (j + 1)).walk id (position a (j + 1)) = some p ∧ Permitted p.2 true allow_all ∧
      answer s id a allow_all (j + 1) = pageAddr (frameAfter (touch s id a allow_all (j + 1)) p (position a (j + 1)))) ∨
    (∀ p, (touch s id a allow_all (j + 1)).walk id (position a (j + 1)) = some p → ¬Permitted p.2 true allow_all) ∧
      answer s id a allow_all (j + 1) = 0 := by
  have hstep := congrArg Prod.fst (@answer_step s id a allow_all hs j)
  dsimp only at hstep
  rw [← hstep]
  rcases access_cases (touch_sane hs id a allow_all (j + 1)) id (position a (j + 1)) allow_all with
    ⟨hno, hr⟩ | ⟨p, hp, hfault, hperm, hr⟩ | ⟨e, hp, hfault, -, hr⟩
  · rw [hr]
    by_cases hperm : ∃ p, (touch s id a allow_all (j + 1)).walk id (position a (j + 1)) = some p ∧ Permitted p.2 true allow_all
    · obtain ⟨p, hp, hperm⟩ := hperm
      refine Or.inl ⟨p, hp, hperm, ?_⟩
      rcases hno p hp with hno | ⟨hfault, hneeds, hnil⟩
      · exact absurd hperm hno
      · rw [frameAfter, if_pos hfault, faultFrame, if_pos hneeds, hnil]
        rfl
    · push Not at hperm
      exact Or.inr ⟨hperm, rfl⟩
  · rw [hr]
    refine Or.inl ⟨p, hp, hperm, ?_⟩
    have hmod := leafAddr_mod p (position a (j + 1))
    rw [position_aligned (Nat.succ_ne_zero j)] at hmod
    rw [frameAfter, if_neg hfault, pageAddr, Nat.div_mul_cancel (Nat.dvd_of_mod_eq_zero hmod)]
  · rw [hr]
    refine Or.inl ⟨(0, e), hp, ?_, ?_⟩
    · simp [Permitted, hfault.2.2]
    · rw [frameAfter, if_pos hfault]

/-- The first answer lacks the offset, and the pages are consecutive. -/
theorem slip_iff (hs : Sane s) : Slip s id a allow_all ↔
    (virtToPhys s (some id) a true allow_all).1 ≠ answer s id a allow_all 0 ∧
    answer s id a allow_all 1 = answer s id a allow_all 0 + (position a 1 - a) := by
  have hmod := Nat.mod_lt a (show 0 < pageSize by decide)
  rw [position_one_sub]
  have hwalk : ∀ {e : PageTableEntry}, s.walk id a = some (0, e) →
      (s.fault id a e).walk id (position a 1) = s.walk id (position a 1) := by
    intro e hw
    rw [fault_walk hw, if_neg fun h => position_one_page a h.2]
  constructor
  · rintro ⟨e, p, hw, hfault, hnone, hoff, hp, hperm, hnext⟩
    obtain ⟨hfirst, htouch, hzero⟩ := first_fault hs hw hfault hnone allow_all
    have hone := @answer_succ_eq s id a allow_all hs 0
    rw [Nat.zero_add, htouch, hwalk hw, hp] at hone
    refine ⟨by omega, ?_⟩
    rcases hone with ⟨q, hq, -, hone⟩ | ⟨hno, -⟩
    · cases hq
      rw [hone, hnext, hzero, pageAddr, pageAddr, Nat.add_mul]
      omega
    · exact absurd hperm (hno p rfl)
  · rintro ⟨hne, hnext⟩
    rcases access_stable hs id a allow_all with h | ⟨e, hw, hfault, hnone, hoff⟩
    · exact absurd (congrArg Prod.fst h).symm hne
    · obtain ⟨hfirst, htouch, hzero⟩ := first_fault hs hw hfault hnone allow_all
      have hone := @answer_succ_eq s id a allow_all hs 0
      rw [Nat.zero_add, htouch, hwalk hw, hnext, hzero] at hone
      rcases hone with ⟨p, hp, hperm, hone⟩ | ⟨-, hone⟩
      · refine ⟨e, p, hw, hfault, hnone, hoff, hp, hperm, ?_⟩
        simp only [pageAddr, pageSize] at *
        omega
      · simp only [pageSize] at *
        omega

theorem fill_parts (hs : Sane s) (hwrap : stop + pageSize < 2 ^ 64) {fuel : ℕ} (hfuel : stop < position a fuel) {m : ℕ}
    (hm : 0 < m) : partsLoop ⟨a, some id, allow_all⟩ stop true (fuel + 1) a a (touch s id a allow_all m) =
      some ((cutParts a stop (answer s id a allow_all) (fuel + 1) 0 0).1,
        touch s id a allow_all (max m (cutParts a stop (answer s id a allow_all) (fuel + 1) 0 0).2)) := by
  have h := partsLoop_eq (@answers_from s id a allow_all hs m) hwrap fuel (le_refl 0) (Or.inr rfl) (Or.inr rfl)
    (Consecutive.refl _ _ 0) (by rw [Nat.zero_add]; exact hfuel)
  dsimp only at h
  rw [Nat.zero_add, max_eq_left (show 1 ≤ m by omega)] at h
  exact h

/-- The first pass finds one part too many exactly after a slip. -/
theorem count_parts (hs : Sane s) (hwrap : stop + pageSize < 2 ^ 64) (hlt : a < stop) {fuel : ℕ}
    (hfuel : stop < position a (fuel + 1)) :
    ∃ ps m, partsLoop ⟨a, some id, allow_all⟩ stop true (fuel + 2) a a s = some (ps, touch s id a allow_all m) ∧
      (Slip s id a allow_all ∧ position a 1 < stop ∧
          ps.length = (cutParts a stop (answer s id a allow_all) (fuel + 2) 0 0).1.length + 1 ∨
        ¬(Slip s id a allow_all ∧ position a 1 < stop) ∧
          ps.length = (cutParts a stop (answer s id a allow_all) (fuel + 2) 0 0).1.length) ∧
      0 < m ∧ m ≤ (cutParts a stop (answer s id a allow_all) (fuel + 2) 0 0).2 ∧
      (position a 1 ≠ stop ∨ ¬Slip s id a allow_all → m = (cutParts a stop (answer s id a allow_all) (fuel + 2) 0 0).2) := by
  have hslip := @slip_iff s id a allow_all hs
  have hpos1 := position_strict (a := a) Nat.zero_lt_one
  have hpos1le := position_succ_le a 0
  rw [position_zero] at hpos1
  rw [position_zero, Nat.zero_add] at hpos1le
  rcases access_stable hs id a allow_all with h | ⟨e, hw, hfault, hnone, hoff⟩
  · -- The first answer is right, and the pass goes on as if the page had been asked for before.
    have hfirst : answer s id a allow_all 0 = (virtToPhys s (some id) a true allow_all).1 := congrArg Prod.fst h
    have hsame : partsLoop ⟨a, some id, allow_all⟩ stop true (fuel + 2) a a s =
        partsLoop ⟨a, some id, allow_all⟩ stop true (fuel + 2) a a (touch s id a allow_all 1) := by
      have hagain : virtToPhys (touch s id a allow_all 1) (some id) a true allow_all =
        virtToPhys s (some id) a true allow_all := h
      rw [partsLoop, partsLoop]
      simp only [if_pos hlt, hagain]
    rw [hsame, fill_parts hs hwrap hfuel Nat.zero_lt_one]
    have hno : ¬Slip s id a allow_all := fun hyes => (hslip.mp hyes).1 hfirst.symm
    have hcut := cutParts_asked a stop (answer s id a allow_all) (fuel + 2) 0 0
    rw [max_eq_right (show 1 ≤ _ from hcut)]
    exact ⟨_, _, rfl, Or.inr ⟨fun hyes => hno hyes.1, rfl⟩, hcut, le_refl _, fun _ => rfl⟩
  · obtain ⟨hfirst, -, hzero⟩ := first_fault hs hw hfault hnone allow_all
    have hstart : virtToPhys s (some id) a true allow_all = (pageAddr (faultFrame s e), touch s id a allow_all 1) :=
      Prod.ext hfirst rfl
    have hend := @answer_step s id a allow_all hs 0
    have hne : pageAddr (faultFrame s e) ≠ 0 := Nat.mul_ne_zero (faultFrame_ne_zero hs hw hnone) (by decide)
    have hzero' : answer s id a allow_all 0 ≠ 0 := by omega
    have hnarrow := @answer_lt s id a allow_all hs 0
    have hcond : sub64 (answer s id a allow_all 1) (pageAddr (faultFrame s e)) ≠ sub64 (position a 1) a := by
      have hwide : position a 1 - a < 2 ^ 58 := by
        rw [pageSize] at hpos1le
        omega
      rw [sub64_of_le hpos1.le (by omega), Ne, sub64_eq_iff (answer_lt hs 1) (by omega) hwide, position_one_sub]
      rcases @answer_succ_eq s id a allow_all hs 0 with ⟨p, -, -, hone⟩ | ⟨-, hone⟩
      · rw [Nat.zero_add] at hone
        rw [hone]
        simp only [pageAddr, pageSize] at hoff ⊢
        omega
      · rw [Nat.zero_add] at hone
        omega
    have hnextpos : (a + pageSize) % 2 ^ 64 / pageSize * pageSize = position a 1 := by
      rw [Nat.mod_eq_of_lt (by omega)]
      exact position_next a 0
    have hrest := partsLoop_eq (@answers_from s id a allow_all hs 0) hwrap fuel (le_refl 1) (Or.inr rfl) (Or.inr rfl)
      (Consecutive.refl _ _ 1) (by rw [Nat.add_comm]; exact hfuel)
    dsimp only at hrest
    rw [Nat.zero_max, Nat.zero_max] at hrest
    rw [partsLoop]
    simp only [if_pos hlt, hnextpos, hstart, hend, if_neg hne, if_pos (Or.inl hcond), hrest, Option.map_some]
    refine ⟨_, _, rfl, ?_⟩
    have hslip' : Slip s id a allow_all ↔ answer s id a allow_all 1 = answer s id a allow_all 0 + (position a 1 - a) := by
      rw [hslip]
      exact ⟨fun h => h.2, fun h => ⟨by omega, h⟩⟩
    have hfirstcut := cutParts_first (fuel + 1) hlt hzero'
    by_cases hcut : answer s id a allow_all 1 ≠ answer s id a allow_all 0 + (position a 1 - a) ∨ stop < position a 1
    · rw [if_pos hcut] at hfirstcut
      have hno : ¬(Slip s id a allow_all ∧ position a 1 < stop) := by
        rw [hslip']
        omega
      rw [hfirstcut]
      exact ⟨Or.inr ⟨hno, rfl⟩, (cutParts_asked _ _ _ _ 1 1).trans' Nat.zero_lt_one, le_refl _, fun _ => rfl⟩
    · rw [if_neg hcut] at hfirstcut
      push Not at hcut
      rw [hfirstcut]
      rcases Nat.lt_or_eq_of_le hcut.2 with hbefore | hat
      · obtain ⟨hlength, hasked⟩ := cutParts_shift (fuel + 1) hzero' hcut.1 hbefore Nat.zero_lt_one
        rw [List.length_cons, hlength, hasked]
        exact ⟨Or.inl ⟨hslip'.mpr hcut.1, hbefore, rfl⟩, (cutParts_asked _ _ _ _ 0 1).trans' Nat.zero_lt_one, le_refl _,
          fun _ => rfl⟩
      · -- The buffer ends with the page, and the next pass asks for one page more.
        have hpos2 := position_lt_succ a 1
        have hlast : cutParts a stop (answer s id a allow_all) fuel (1 + 1) (1 + 1) = ([], 3) := cutParts_end fuel (by omega)
        have hend1 : cutParts a stop (answer s id a allow_all) (fuel + 1) 1 1 = ([], 2) := cutParts_end (fuel + 1) (by omega)
        rw [hend1, cutParts]
        simp only [position_zero, if_pos hlt, if_neg hzero', if_pos (Or.inr (show stop < position a (1 + 1) by omega)), hlast]
        refine ⟨Or.inr ⟨fun h => by omega, rfl⟩, by omega, by omega, ?_⟩
        rintro (hnot | hno)
        · exact absurd hat hnot
        · exact absurd (hslip'.mpr hcut.1) hno

end Touch

end SomeOs.MemSpace
