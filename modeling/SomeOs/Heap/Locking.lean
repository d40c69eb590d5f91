import SomeOs.Base.Transition

/-! # The locks around the page allocator

Every call is the sequence of what it does with the spin locks and with the free list of the page
allocator. What a call finds in its own lists and tables decides which sequence it is, and is an
argument: whether an allocator has to ask its backing for memory or gives some back, which
blocks are cached, how often memory is reclaimed. Spin locks are re-entrant.
-/
namespace SomeOs.Locking
open Transition
variable {H D : Type*}

inductive SpinLock (D : Type*) where
  | kallocLock
  | allocLock
  | cacheLock (device : D)
  | reclaimableLock
  deriving DecidableEq

def SpinLock.Guards : SpinLock D → Prop
  | .reclaimableLock => False
  | _ => True

inductive Instruction (D : Type*) where
  | lock (l : SpinLock D)
  | unlock (l : SpinLock D)
  /-- `allocMemory` or `deallocMemory` of the page allocator is called. -/
  | enter
  | leave

abbrev Program (D : Type*) := List (Instruction D)

def locked (l : SpinLock D) (p : Program D) : Program D := [.lock l] ++ p ++ [.unlock l]

def backing (called : Bool) : Program D := if called then [.enter, .leave] else []

def kalloc : Option Bool → Program D
  | none => []
  | some grows => locked .kallocLock (backing grows)

/-- The pointer is null, or memory is given back to the page allocator or is not. -/
def dealloc : Option Bool → Program D
  | none => []
  | some shrinks => locked .kallocLock (backing shrinks)

/-- No size is asked for, there is no old memory, or the memory is resized. -/
inductive Realloc where
  | toDealloc (shrinks : Option Bool)
  | toKalloc (grows : Option Bool)
  | resize (grows shrinks : Bool)

def krealloc : Realloc → Program D
  | .toDealloc shrinks => dealloc shrinks
  | .toKalloc grows => kalloc grows
  | .resize grows shrinks => locked .kallocLock (backing grows ++ backing shrinks)

def basicAllocPages : Program D := locked .allocLock [.enter, .leave]

def deallocPages (null : Bool) : Program D := if null then [] else locked .allocLock [.enter, .leave]

def testForResize : Option (Option Bool × Option Bool) → Program D
  | none => []
  | some (new, old) => kalloc new ++ dealloc old

def insertIntoTable (resize : Option (Option Bool × Option Bool)) (block : Option Bool) : Program D :=
  testForResize resize ++ kalloc block

/-- The blocks that a cache drops: whether the memory of the block goes back to the page allocator, and
the call for its record. -/
structure Reclaim where
  blocks : List (Bool × Option Bool)
  resize : Option (Option Bool × Option Bool)

def reclaimFunction (device : D) (r : Reclaim) : Program D :=
  locked (.cacheLock device) (r.blocks.flatMap (fun b => backing b.1 ++ dealloc b.2) ++ testForResize r.resize)

def tryReclaimingMemory (rs : List (D × Reclaim)) : Program D :=
  locked .reclaimableLock (rs.flatMap fun r => reclaimFunction r.1 r.2)

/-- The loop of `allocPages`: memory is reclaimed before every further attempt, and the last time maybe
without one. -/
structure PageRequest (D : Type*) where
  attempts : List (List (D × Reclaim))
  last : Option (List (D × Reclaim))

def allocPages : Option (PageRequest D) → Program D
  | none => []
  | some r => basicAllocPages ++ r.attempts.flatMap (fun rs => tryReclaimingMemory rs ++ basicAllocPages) ++
      (r.last.map tryReclaimingMemory).getD []

def copyToBuffer (faults : List (PageRequest D)) : Program D := faults.flatMap fun f => allocPages (some f)

/-- A block that has been read is put in the table, or dropped when it is there already. -/
inductive ReadBlock where
  | insert (resize : Option (Option Bool × Option Bool)) (block : Option Bool)
  | drop (shrinks : Bool)

def ReadBlock.program : ReadBlock → Program D
  | .insert resize block => insertIntoTable resize block
  | .drop shrinks => backing shrinks

/-- Blocks are read from the device without the lock of the cache. The driver allocates and releases
its requests. -/
structure Uncached (D : Type*) where
  grows : Bool
  driver : List (Option Bool)
  /-- What is given back after an error, or the copy and the blocks. -/
  outcome : Bool ⊕ List (PageRequest D) × List ReadBlock

def readUncached (device : D) (u : Uncached D) : Program D :=
  backing u.grows ++ ([.unlock (.cacheLock device)] ++ (u.driver.flatMap kalloc ++
    match u.outcome with
    | .inl _ => []
    | .inr (faults, _) => copyToBuffer faults) ++ [.lock (.cacheLock device)]) ++
    match u.outcome with
    | .inl shrinks => backing shrinks
    | .inr (_, blocks) => blocks.flatMap ReadBlock.program

/-- A cached block is copied under the lock of the cache, or blocks are read that are not cached. -/
inductive ReadStep (D : Type*) where
  | cached (faults : List (PageRequest D))
  | uncached (u : Uncached D)

def ReadStep.program (device : D) : ReadStep D → Program D
  | .cached faults => copyToBuffer faults
  | .uncached u => readUncached device u

def readFunction (device : D) (steps : List (ReadStep D)) : Program D :=
  locked (.cacheLock device) (steps.flatMap (ReadStep.program device))

/-- A block that is written is in the table, or gets memory and is put there. -/
structure NewBlock where
  grows : Bool
  resize : Option (Option Bool × Option Bool)
  block : Option Bool

def writeFunction (device : D) (driver : List (Option Bool)) (blocks : List (Option NewBlock)) : Program D :=
  driver.flatMap kalloc ++ locked (.cacheLock device) (blocks.flatMap fun
    | none => []
    | some b => backing b.grows ++ insertIntoTable b.resize b.block)

inductive Call (D : Type*) where
  | kalloc (grows : Option Bool)
  | dealloc (shrinks : Option Bool)
  | krealloc (r : Realloc)
  | allocPages (r : Option (PageRequest D))
  | deallocPages (null : Bool)
  | read (device : D) (steps : List (ReadStep D))
  | write (device : D) (driver : List (Option Bool)) (blocks : List (Option NewBlock))
  | reclaim (device : D) (r : Reclaim)

def Call.program : Call D → Program D
  | .kalloc grows => Locking.kalloc grows
  | .dealloc shrinks => Locking.dealloc shrinks
  | .krealloc r => Locking.krealloc r
  | .allocPages r => Locking.allocPages r
  | .deallocPages null => Locking.deallocPages null
  | .read device steps => readFunction device steps
  | .write device driver blocks => writeFunction device driver blocks
  | .reclaim device r => reclaimFunction device r

structure State (H D : Type*) where
  lockedBy : SpinLock D → Option H
  numLocks : SpinLock D → ℕ
  inside : H → Bool
  program : H → Program D

/-- The next step of a hart. A hart that finds a lock taken by another one stays. -/
def hartStep [DecidableEq H] [DecidableEq D] (s : State H D) (h : H) : Option (State H D) :=
  match s.program h with
  | [] => none
  | .lock l :: rest =>
    if s.lockedBy l = none ∨ s.lockedBy l = some h then
      some { s with
        lockedBy := Function.update s.lockedBy l (some h)
        numLocks := Function.update s.numLocks l (s.numLocks l + 1)
        program := Function.update s.program h rest }
    else none
  | .unlock l :: rest =>
    some { s with
      lockedBy := if s.numLocks l - 1 = 0 then Function.update s.lockedBy l none else s.lockedBy
      numLocks := Function.update s.numLocks l (s.numLocks l - 1)
      program := Function.update s.program h rest }
  | .enter :: rest =>
    some { s with inside := Function.update s.inside h true, program := Function.update s.program h rest }
  | .leave :: rest =>
    some { s with inside := Function.update s.inside h false, program := Function.update s.program h rest }

def started (calls : H → List (Call D)) : State H D where
  lockedBy _ := none
  numLocks _ := 0
  inside _ := false
  program h := (calls h).flatMap Call.program

/-- At most one hart is in an operation on the free list of the page allocator. -/
def Exclusive (s : State H D) : Prop := ∀ h h', s.inside h = true → s.inside h' = true → h = h'

/-- A hart calls the page allocator only while no other hart holds a lock under which it is used. -/
def Alone (s : State H D) (h : H) : Prop :=
  (s.program h).head? = some .enter → ∀ l, l.Guards → s.lockedBy l = none ∨ s.lockedBy l = some h

section Programs
variable [DecidableEq D]

/-- A program that holds the given locks, in or out of the free list, calls the page allocator only under
a lock, and has given up all locks at its end. -/
def Covered : (SpinLock D → ℕ) → Bool → Program D → Prop
  | held, inside, [] => inside = false ∧ ∀ l, held l = 0
  | held, false, .lock l :: p => Covered (Function.update held l (held l + 1)) false p
  | held, false, .unlock l :: p => 0 < held l ∧ Covered (Function.update held l (held l - 1)) false p
  | held, false, .enter :: p => (∃ l, l.Guards ∧ 0 < held l) ∧ Covered held true p
  | held, true, .leave :: p => (∃ l, l.Guards ∧ 0 < held l) ∧ Covered held false p
  | _, _, _ => False

def Balanced (p : Program D) : Prop :=
  ∀ held rest, Covered held false rest → Covered held false (p ++ rest)

def Within (l : SpinLock D) (p : Program D) : Prop :=
  ∀ held rest, 0 < held l → Covered held false rest → Covered held false (p ++ rest)

variable {l : SpinLock D} {p q : Program D}

theorem Balanced.within (hp : Balanced p) : Within l p := fun held rest _ hrest => hp held rest hrest

theorem balanced_nil : Balanced ([] : Program D) := fun _ _ hrest => hrest

theorem Balanced.append (hp : Balanced p) (hq : Balanced q) : Balanced (p ++ q) := by
  intro held rest hrest
  rw [List.append_assoc]
  exact hp held _ (hq held rest hrest)

theorem Within.append (hp : Within l p) (hq : Within l q) : Within l (p ++ q) := by
  intro held rest hl hrest
  rw [List.append_assoc]
  exact hp held _ hl (hq held rest hl hrest)

theorem balanced_flatMap {X : Type*} {f : X → Program D} (xs : List X) (h : ∀ x, Balanced (f x)) :
    Balanced (xs.flatMap f) := by
  induction xs with
  | nil => exact balanced_nil
  | cons x xs ih =>
    rw [List.flatMap_cons]
    exact (h x).append ih

theorem within_flatMap {X : Type*} {f : X → Program D} (xs : List X) (h : ∀ x, Within l (f x)) :
    Within l (xs.flatMap f) := by
  induction xs with
  | nil => exact balanced_nil.within
  | cons x xs ih =>
    rw [List.flatMap_cons]
    exact (h x).append ih

theorem Within.locked (hp : Within l p) : Balanced (locked l p) := by
  intro held rest hrest
  have hback : Function.update (Function.update held l (held l + 1)) l (held l + 1 - 1) = held := by
    rw [Function.update_idem, Nat.add_sub_cancel, Function.update_eq_self]
  unfold Locking.locked
  rw [List.append_assoc, List.append_assoc]
  apply hp
  · simp
  · refine ⟨by simp, ?_⟩
    rw [Function.update_self, hback]
    exact hrest

theorem Balanced.unlocked (hp : Balanced p) : Within l ([.unlock l] ++ p ++ [.lock l]) := by
  intro held rest hl hrest
  have hback : Function.update (Function.update held l (held l - 1)) l (held l - 1 + 1) = held := by
    rw [Function.update_idem, Nat.sub_add_cancel hl, Function.update_eq_self]
  rw [List.append_assoc, List.append_assoc]
  refine ⟨hl, hp _ _ ?_⟩
  show Covered _ false rest
  rw [Function.update_self, hback]
  exact hrest

omit [DecidableEq D] in
theorem guards_kallocLock : (SpinLock.kallocLock : SpinLock D).Guards := trivial

omit [DecidableEq D] in
theorem guards_allocLock : (SpinLock.allocLock : SpinLock D).Guards := trivial

omit [DecidableEq D] in
theorem guards_cacheLock (device : D) : (SpinLock.cacheLock device).Guards := trivial

theorem within_pages (hl : l.Guards) : Within l [.enter, .leave] :=
  fun _ _ hheld hrest => ⟨⟨l, hl, hheld⟩, ⟨l, hl, hheld⟩, hrest⟩

theorem within_backing (hl : l.Guards) (called : Bool) : Within l (backing called) := by
  unfold backing
  split_ifs
  · exact within_pages hl
  · exact balanced_nil.within

theorem balanced_kalloc (r : Option Bool) : Balanced (kalloc r : Program D) := by
  cases r with
  | none => exact balanced_nil
  | some grows => exact (within_backing guards_kallocLock grows).locked

theorem balanced_dealloc (r : Option Bool) : Balanced (dealloc r : Program D) := by
  cases r with
  | none => exact balanced_nil
  | some shrinks => exact (within_backing guards_kallocLock shrinks).locked

theorem balanced_testForResize (r : Option (Option Bool × Option Bool)) : Balanced (testForResize r : Program D) := by
  cases r with
  | none => exact balanced_nil
  | some r => exact (balanced_kalloc r.1).append (balanced_dealloc r.2)

theorem balanced_insertIntoTable (resize : Option (Option Bool × Option Bool)) (block : Option Bool) :
    Balanced (insertIntoTable resize block : Program D) :=
  (balanced_testForResize resize).append (balanced_kalloc block)

theorem balanced_basicAllocPages : Balanced (basicAllocPages : Program D) := (within_pages guards_allocLock).locked

theorem balanced_reclaimFunction (device : D) (r : Reclaim) : Balanced (reclaimFunction device r) := by
  have hblock : ∀ b : Bool × Option Bool, Within (.cacheLock device) (backing b.1 ++ dealloc b.2) :=
    fun b => (within_backing (guards_cacheLock device) b.1).append (balanced_dealloc b.2).within
  exact ((within_flatMap r.blocks hblock).append (balanced_testForResize r.resize).within).locked

theorem balanced_tryReclaimingMemory (rs : List (D × Reclaim)) : Balanced (tryReclaimingMemory rs) :=
  (balanced_flatMap rs fun r => balanced_reclaimFunction r.1 r.2).within.locked

theorem balanced_allocPages (r : Option (PageRequest D)) : Balanced (allocPages r) := by
  cases r with
  | none => exact balanced_nil
  | some r =>
    have hattempts := balanced_flatMap r.attempts fun rs =>
      (balanced_tryReclaimingMemory rs).append balanced_basicAllocPages
    refine (balanced_basicAllocPages.append hattempts).append ?_
    cases r.last with
    | none => exact balanced_nil
    | some rs => exact balanced_tryReclaimingMemory rs

theorem balanced_copyToBuffer (faults : List (PageRequest D)) : Balanced (copyToBuffer faults) :=
  balanced_flatMap faults fun f => balanced_allocPages (some f)

theorem within_readUncached (device : D) (u : Uncached D) : Within (.cacheLock device) (readUncached device u) := by
  have hdriver : Balanced (u.driver.flatMap kalloc : Program D) := balanced_flatMap u.driver balanced_kalloc
  unfold readUncached
  cases u.outcome with
  | inl shrinks =>
    exact ((within_backing (guards_cacheLock device) u.grows).append (hdriver.append balanced_nil).unlocked).append
      (within_backing (guards_cacheLock device) shrinks)
  | inr outcome =>
    have hblock : ∀ b : ReadBlock, Within (.cacheLock device) (b.program : Program D) := by
      intro b
      cases b with
      | insert resize block => exact (balanced_insertIntoTable resize block).within
      | drop shrinks => exact within_backing (guards_cacheLock device) shrinks
    exact ((within_backing (guards_cacheLock device) u.grows).append
      (hdriver.append (balanced_copyToBuffer outcome.1)).unlocked).append
      (within_flatMap outcome.2 hblock)

theorem balanced_readFunction (device : D) (steps : List (ReadStep D)) : Balanced (readFunction device steps) := by
  refine (within_flatMap steps fun step => ?_).locked
  cases step with
  | cached faults => exact (balanced_copyToBuffer faults).within
  | uncached u => exact within_readUncached device u

theorem balanced_writeFunction (device : D) (driver : List (Option Bool)) (blocks : List (Option NewBlock)) :
    Balanced (writeFunction device driver blocks) := by
  refine (balanced_flatMap driver balanced_kalloc).append (within_flatMap blocks fun b => ?_).locked
  cases b with
  | none => exact balanced_nil.within
  | some b => exact (within_backing (guards_cacheLock device) b.grows).append (balanced_insertIntoTable b.resize b.block).within

theorem balanced_call (c : Call D) : Balanced c.program := by
  cases c with
  | kalloc grows => exact balanced_kalloc grows
  | dealloc shrinks => exact balanced_dealloc shrinks
  | krealloc r =>
    cases r with
    | toDealloc shrinks => exact balanced_dealloc shrinks
    | toKalloc grows => exact balanced_kalloc grows
    | resize grows shrinks => exact ((within_backing guards_kallocLock grows).append
      (within_backing guards_kallocLock shrinks)).locked
  | allocPages r => exact balanced_allocPages r
  | deallocPages null =>
    simp only [Call.program, deallocPages]
    split_ifs
    · exact balanced_nil
    · exact balanced_basicAllocPages
  | read device steps => exact balanced_readFunction device steps
  | write device driver blocks => exact balanced_writeFunction device driver blocks
  | reclaim device r => exact balanced_reclaimFunction device r

end Programs

section Steps
variable [DecidableEq H]

def State.held (s : State H D) (h : H) (l : SpinLock D) : ℕ := if s.lockedBy l = some h then s.numLocks l else 0

variable [DecidableEq D] {s t : State H D} {h : H}

structure LocksOk (s : State H D) : Prop where
  covered : ∀ h, Covered (s.held h) (s.inside h) (s.program h)
  free : ∀ l, s.lockedBy l = none → s.numLocks l = 0
  exclusive : Exclusive s

theorem LocksOk.guard (hs : LocksOk s) (hin : s.inside h = true) : ∃ l, l.Guards ∧ s.lockedBy l = some h := by
  have hc := hs.covered h
  rw [hin] at hc
  have hguard : ∃ l : SpinLock D, l.Guards ∧ 0 < s.held h l := by
    cases hp : s.program h with
    | nil =>
      rw [hp] at hc
      cases hc.1
    | cons i rest =>
      rw [hp] at hc
      cases i with
      | leave => exact hc.1
      | lock l => exact absurd hc id
      | unlock l => exact absurd hc id
      | enter => exact absurd hc id
  obtain ⟨l, hl, hheld⟩ := hguard
  refine ⟨l, hl, ?_⟩
  by_contra hno
  rw [State.held, if_neg hno] at hheld
  exact absurd hheld (Nat.lt_irrefl 0)

theorem LocksOk.next (hs : LocksOk s) {i : Instruction D} {rest : Program D} (hp : s.program h = i :: rest) :
    Covered (s.held h) (s.inside h) (i :: rest) := by
  rw [← hp]
  exact hs.covered h

/-- A hart goes on with its program. The locks of the other harts are as before. -/
theorem LocksOk.advance (hs : LocksOk s) {rest : Program D} {inside : Bool} {lockedBy : SpinLock D → Option H}
    {numLocks : SpinLock D → ℕ}
    (hcovered : Covered (fun l => if lockedBy l = some h then numLocks l else 0) inside rest)
    (hothers : ∀ h' l, h' ≠ h → (if lockedBy l = some h' then numLocks l else 0) = s.held h' l)
    (hfree : ∀ l, lockedBy l = none → numLocks l = 0)
    (halone : inside = true → ∀ h', h' ≠ h → s.inside h' = false) :
    LocksOk ⟨lockedBy, numLocks, Function.update s.inside h inside, Function.update s.program h rest⟩ where
  covered h' := by
    by_cases hh : h' = h
    · subst hh
      change Covered (fun l => if lockedBy l = some h' then numLocks l else 0) _ _
      simpa using hcovered
    · have hheld : State.held ⟨lockedBy, numLocks, Function.update s.inside h inside, Function.update s.program h rest⟩ h' =
          s.held h' := by
        funext l
        exact hothers h' l hh
      rw [hheld]
      simpa [hh] using hs.covered h'
  free := hfree
  exclusive := by
    intro h₁ h₂ h1 h2
    dsimp only at h1 h2
    by_cases hh₁ : h₁ = h
    · subst hh₁
      rw [Function.update_self] at h1
      by_contra hne
      rw [Function.update_of_ne (Ne.symm hne), halone h1 h₂ (Ne.symm hne)] at h2
      cases h2
    · rw [Function.update_of_ne hh₁] at h1
      by_cases hh₂ : h₂ = h
      · subst hh₂
        rw [Function.update_self] at h2
        rw [halone h2 h₁ hh₁] at h1
        cases h1
      · rw [Function.update_of_ne hh₂] at h2
        exact hs.exclusive h₁ h₂ h1 h2

/-- A hart takes a lock that is free or its own. -/
theorem LocksOk.lock (hs : LocksOk s) {l : SpinLock D} {rest : Program D} (hin : s.inside h = false)
    (hnext : Covered (s.held h) false (.lock l :: rest)) (hfree : s.lockedBy l = none ∨ s.lockedBy l = some h) :
    LocksOk ⟨Function.update s.lockedBy l (some h), Function.update s.numLocks l (s.numLocks l + 1), s.inside,
      Function.update s.program h rest⟩ := by
  have hsame : Function.update s.inside h false = s.inside := by rw [← hin, Function.update_eq_self]
  rw [← hsame]
  refine hs.advance ?_ ?_ ?_ (fun h => absurd h (by decide))
  · change Covered (Function.update (s.held h) l (s.held h l + 1)) false rest at hnext
    convert hnext using 1
    funext l'
    by_cases hl : l' = l
    · subst hl
      rcases hfree with hfree | hfree <;> simp [State.held, hfree, hs.free]
    · simp [State.held, hl]
  · intro h' l' hh
    by_cases hl : l' = l
    · subst hl
      have hne : s.lockedBy l' ≠ some h' := by
        rcases hfree with hfree | hfree <;> rw [hfree] <;> simp [Ne.symm hh]
      simp [State.held, hne, Ne.symm hh]
    · simp [State.held, hl]
  · intro l' hnone
    by_cases hl : l' = l
    · subst hl
      simp at hnone
    · simp only [Function.update_of_ne hl] at hnone ⊢
      exact hs.free l' hnone

/-- A hart gives a lock up that it holds. -/
theorem LocksOk.unlock (hs : LocksOk s) {l : SpinLock D} {rest : Program D} (hin : s.inside h = false)
    (hnext : Covered (s.held h) false (.unlock l :: rest)) :
    LocksOk ⟨if s.numLocks l - 1 = 0 then Function.update s.lockedBy l none else s.lockedBy,
      Function.update s.numLocks l (s.numLocks l - 1), s.inside, Function.update s.program h rest⟩ := by
  have hsame : Function.update s.inside h false = s.inside := by rw [← hin, Function.update_eq_self]
  obtain ⟨hheld, hnext⟩ := hnext
  have hown : s.lockedBy l = some h := by
    by_contra hno
    rw [State.held, if_neg hno] at hheld
    exact absurd hheld (Nat.lt_irrefl 0)
  rw [State.held, if_pos hown] at hheld hnext
  rw [← hsame]
  refine hs.advance ?_ ?_ ?_ (fun h => absurd h (by decide))
  · convert hnext using 1
    funext l'
    by_cases hl : l' = l
    · subst hl
      split_ifs with hzero <;> simp_all
    · split_ifs <;> simp_all [State.held]
  · intro h' l' hh
    have hne : h ≠ h' := Ne.symm hh
    by_cases hl : l' = l
    · subst hl
      split_ifs <;> simp_all [State.held]
    · split_ifs <;> simp_all [State.held]
  · intro l' hnone
    by_cases hl : l' = l
    · subst hl
      split_ifs at hnone with hzero
      · simpa using hzero
      · rw [hown] at hnone
        cases hnone
    · rw [Function.update_of_ne hl]
      apply hs.free
      split_ifs at hnone
      · rwa [Function.update_of_ne hl] at hnone
      · exact hnone

theorem LocksOk.step (hs : LocksOk s) (halone : Alone s h) (hstep : hartStep s h = some t) : LocksOk t := by
  unfold hartStep at hstep
  cases hp : s.program h with
  | nil =>
    rw [hp] at hstep
    cases hstep
  | cons i rest =>
    rw [hp] at hstep
    have hnext := hs.next hp
    cases hin : s.inside h with
    | false =>
      rw [hin] at hnext
      cases i with
      | lock l =>
        dsimp only at hstep
        split_ifs at hstep with hfree
        cases hstep
        exact hs.lock hin hnext hfree
      | unlock l =>
        cases hstep
        exact hs.unlock hin hnext
      | enter =>
        cases hstep
        refine hs.advance hnext.2 (fun _ _ _ => rfl) hs.free fun _ h' hh => ?_
        -- Another hart in the free list would hold a lock for it.
        by_contra hother
        obtain ⟨l, hl, hlocked⟩ := hs.guard (by simpa using hother)
        rcases halone (by rw [hp]; rfl) l hl with hnone | hself
        · rw [hlocked] at hnone
          cases hnone
        · rw [hlocked] at hself
          exact hh (Option.some.inj hself)
      | leave => exact absurd hnext id
    | true =>
      rw [hin] at hnext
      cases i with
      | leave =>
        cases hstep
        exact hs.advance hnext.2 (fun _ _ _ => rfl) hs.free (fun h => absurd h (by decide))
      | lock l => exact absurd hnext id
      | unlock l => exact absurd hnext id
      | enter => exact absurd hnext id

theorem started_ok (calls : H → List (Call D)) : LocksOk (started calls) where
  covered h := by
    have hbalanced : Balanced ((calls h).flatMap Call.program) := balanced_flatMap (calls h) balanced_call
    have hheld : (started calls).held h = fun _ => 0 := by
      funext l
      simp [State.held, started]
    rw [hheld]
    have hall := hbalanced (fun _ => 0) [] ⟨rfl, fun _ => rfl⟩
    rwa [List.append_nil] at hall
  free _ _ := rfl
  exclusive _ _ h := by cases h

/-- In every run in which a hart calls the page allocator only while no other hart holds a lock under
which it is used, at most one hart is in its free list. -/
theorem page_allocator_exclusive {calls : H → List (Call D)} {acts : List H}
    (hr : Runs hartStep Alone (started calls) acts s) : Exclusive s :=
  (hr.invariant (fun _ _ _ hs halone hstep => hs.step halone hstep) (started_ok calls)).exclusive

end Steps

/-- One hart allocates memory for which the byte allocator has to grow, and the other one a page. -/
def twoHarts : Fin 2 → List (Call Empty)
  | 0 => [.kalloc (some true)]
  | 1 => [.allocPages (some ⟨[], none⟩)]

/-- One hart after the other. -/
theorem page_allocator_exclusive_serial :
    ∃ s, Runs hartStep Alone (started twoHarts) [0, 0, 0, 0, 1, 1, 1, 1] s ∧ Exclusive s := by
  have hr : Runs hartStep Alone (started twoHarts) [0, 0, 0, 0, 1, 1, 1, 1]
      ((exec hartStep (started twoHarts) [0, 0, 0, 0, 1, 1, 1, 1]).getD (started twoHarts)) := by
    refine .cons ?_ rfl (.cons ?_ rfl (.cons ?_ rfl (.cons ?_ rfl (.cons ?_ rfl (.cons ?_ rfl (.cons ?_ rfl
      (.cons ?_ rfl (.nil _)))))))) <;>
      · intro _ l _
        cases l with
        | kallocLock => first | exact Or.inl rfl | exact Or.inr rfl
        | allocLock => first | exact Or.inl rfl | exact Or.inr rfl
        | cacheLock d => exact d.elim
        | reclaimableLock => exact Or.inl rfl
  exact ⟨_, hr, page_allocator_exclusive hr⟩

/-- Both harts are in the free list, under different locks. -/
theorem page_allocator_shared :
    ∃ s, Runs hartStep (fun _ _ => True) (started twoHarts) [0, 0, 1, 1] s ∧ ¬Exclusive s := by
  refine ⟨_, .cons trivial rfl (.cons trivial rfl (.cons trivial rfl (.cons trivial rfl (.nil _)))), fun hex => ?_⟩
  exact absurd (hex 0 1 rfl rfl) (by decide)

end SomeOs.Locking
