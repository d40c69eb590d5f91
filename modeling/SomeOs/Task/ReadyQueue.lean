import SomeOs.Base.LinkedList
import SomeOs.Base.StableQueue
import SomeOs.Task.Scheduler

/-! # The ready queue of a hart in memory

One list holds the tasks of all priorities, linked through the tasks, and an array has for every
priority the last task up to it. Priorities without a task share the entry of the one before.
An access beyond the array has no result.
-/
namespace SomeOs.Tasks
open LinkedList StableQueue
variable {T : Type*}

/-- `MAX_PRIORITY` -/
abbrev maxPriority : ℕ := 40

structure ScheduleQueue (T : Type*) where
  head : Option T
  tails : ℕ → Option T

structure QueueMemory (T : Type*) extends ScheduleQueue T where
  schedNext : T → Option T
  queuePriority : T → ℕ

namespace QueueMemory
variable [DecidableEq T]

/-- The loop of `pullTaskFromQueue` from the priority `i` on, with `n` priorities left. -/
def pullTails (ret : T) : ℕ → ℕ → (ℕ → Option T) → ℕ → Option T
  | 0, _, tails => tails
  | n + 1, i, tails =>
    if tails i = some ret then pullTails ret n (i + 1) (Function.update tails i (tails (i - 1))) else tails

def pullTaskFromQueue (m : QueueMemory T) : Option (Option T × QueueMemory T) :=
  match m.head with
  | none => some (none, m)
  | some ret =>
    let p := m.queuePriority ret
    if p < maxPriority then
      let m := { m with head := m.schedNext ret }
      if m.tails p = some ret then
        let tails := Function.update m.tails p (if p = 0 then none else m.tails (p - 1))
        some (some ret, { m with tails := pullTails ret (maxPriority - (p + 1)) (p + 1) tails })
      else some (some ret, m)
    else none

/-- The loop of `pushTaskToQueue`, which replaces the entries from `i` on that are `old`. -/
def pushTails (old new : Option T) : ℕ → ℕ → (ℕ → Option T) → ℕ → Option T
  | 0, _, tails => tails
  | n + 1, i, tails =>
    if tails i = old then pushTails old new n (i + 1) (Function.update tails i new) else tails

/-- Behind the task `old`, or at the head when there is none. -/
def link (m : QueueMemory T) (old : Option T) (process : T) : QueueMemory T :=
  match old with
  | none => { m with schedNext := Function.update m.schedNext process m.head, head := some process }
  | some a =>
    let next := Function.update m.schedNext process (m.schedNext a)
    { m with schedNext := Function.update next a (some process) }

def pushTaskToQueue (m : QueueMemory T) (process : T) : QueueMemory T :=
  let p := min (m.queuePriority process) lowestPriority
  let m := { m with queuePriority := Function.update m.queuePriority process p }
  let old := m.tails p
  { m.link old process with tails := pushTails old (some process) (maxPriority - p) p m.tails }

end QueueMemory

/-- The list `l` in memory, with its array of last tasks. -/
structure ReadyList (m : QueueMemory T) (l : List T) : Prop where
  chain : Chain m.schedNext m.head l
  priorities : ∀ t ∈ l, m.queuePriority t < maxPriority
  ordered : l.Pairwise (m.queuePriority · ≤ m.queuePriority ·)
  tails : ∀ p < maxPriority, m.tails p = lastUpTo m.queuePriority p l

namespace QueueMemory
variable [DecidableEq T] {m : QueueMemory T} {l : List T} {t ret : T} {p : ℕ}

/-- The loop replaces the old entries, as no other stands between two of them. -/
theorem pushTails_eq {old new : Option T} {n i : ℕ} {tails : ℕ → Option T}
    (hrun : ∀ k k', i ≤ k → k ≤ k' → k' < i + n → tails k' = old → tails k = old) :
    pushTails old new n i tails = fun k => if i ≤ k ∧ k < i + n ∧ tails k = old then new else tails k := by
  induction n generalizing i tails with
  | zero =>
    funext k
    rw [if_neg (by omega)]
    rfl
  | succ n ih =>
    unfold pushTails
    split_ifs with hold
    · rw [ih]
      · funext k
        by_cases hk : k = i
        · subst hk
          simp [hold]
        · rw [Function.update_of_ne hk]
          congr 1
          simp only [eq_iff_iff]
          refine ⟨fun h => ⟨by omega, by omega, h.2.2⟩, fun h => ⟨by omega, by omega, h.2.2⟩⟩
      · intro k k' hk hkk' hk' heq
        rw [Function.update_of_ne (by omega)] at heq ⊢
        exact hrun k k' (by omega) hkk' (by omega) heq
    · funext k
      rw [if_neg]
      rintro ⟨hik, hkn, hk⟩
      exact hold (hrun i k le_rfl hik (by omega) hk)

theorem pullTails_eq {n i : ℕ} {tails : ℕ → Option T} (hbefore : tails i = none) :
    pullTails ret n (i + 1) tails = pushTails (some ret) none n (i + 1) tails := by
  induction n generalizing i tails with
  | zero => rfl
  | succ n ih =>
    unfold pullTails pushTails
    rw [Nat.add_sub_cancel, hbefore, ih (Function.update_self ..)]

@[simp] theorem link_queuePriority {old : Option T} : (m.link old t).queuePriority = m.queuePriority := by
  cases old <;> rfl

/-- The new task is linked behind the last one before it. -/
theorem link_chain {before behind : List T} (h : Chain m.schedNext m.head (before ++ behind))
    (ht : t ∉ before ++ behind) :
    Chain (m.link before.getLast? t).schedNext (m.link before.getLast? t).head (before ++ t :: behind) := by
  rcases List.eq_nil_or_concat before with rfl | ⟨rest, a, rfl⟩
  · refine ⟨rfl, ?_⟩
    simp only [link, List.getLast?_nil]
    rw [Function.update_self]
    exact h.congr fun b hb => Function.update_of_ne (ne_of_mem_of_not_mem hb ht) ..
  · have hlast : (rest ++ [a]).getLast? = some a := List.getLast?_concat
    simp only [List.concat_eq_append, hlast, link] at h ht ⊢
    simp only [List.append_assoc, List.singleton_append] at h ht ⊢
    have hnodup := List.nodup_append'.mp h.nodup
    have hta : t ≠ a := fun heq => ht (by simp [heq])
    refine h.splice (fun b hb => ?_) ⟨Function.update_self .., ?_⟩
    · have hba : b ≠ a := fun heq => hnodup.2.2 hb (by simp [heq])
      have hbt : b ≠ t := fun heq => ht (by simp [← heq, hb])
      rw [Function.update_of_ne hba, Function.update_of_ne hbt]
    · rw [Function.update_of_ne hta, Function.update_self]
      refine h.suffix.congr fun b hb => ?_
      have hba : b ≠ a := ne_of_mem_of_not_mem hb (List.nodup_cons.mp hnodup.2.1).1
      have hbt : b ≠ t := fun heq => ht (by simp [← heq, hb])
      rw [Function.update_of_ne hba, Function.update_of_ne hbt]

theorem pushTaskToQueue_queuePriority : (m.pushTaskToQueue t).queuePriority =
    Function.update m.queuePriority t (min (m.queuePriority t) lowestPriority) := link_queuePriority

/-- A task that is not in the list gets its place behind those of its priority. -/
theorem pushTaskToQueue_list (h : ReadyList m l) (ht : t ∉ l) :
    ReadyList (m.pushTaskToQueue t) (insertBehind (m.pushTaskToQueue t).queuePriority t l) := by
  obtain ⟨key, hkey⟩ : ∃ key, (m.pushTaskToQueue t).queuePriority = key := ⟨_, rfl⟩
  obtain ⟨p, hp⟩ : ∃ p, min (m.queuePriority t) lowestPriority = p := ⟨_, rfl⟩
  have hkt : key t = p := by
    rw [← hkey, pushTaskToQueue_queuePriority, Function.update_self, hp]
  have hkl : ∀ a ∈ l, key a = m.queuePriority a := fun a ha => by
    rw [← hkey, pushTaskToQueue_queuePriority, Function.update_of_ne (ne_of_mem_of_not_mem ha ht)]
  have hlt : p < maxPriority := hp.symm.trans_lt ((min_le_right ..).trans_lt (by decide))
  have hord : l.Pairwise (key · ≤ key ·) := h.ordered.imp_of_mem fun {a b} ha hb hab => by
    rwa [hkl a ha, hkl b hb]
  have htails : ∀ k < maxPriority, m.tails k = lastUpTo key k l := fun k hk => by
    rw [h.tails k hk, lastUpTo_congr hkl]
  have hn := h.chain.nodup
  obtain ⟨before, behind, rfl, hins, hbefore, hbehind⟩ := exists_split hord t
  have htail : m.tails p = before.getLast? := by
    rw [htails p hlt, ← hkt, lastUpTo_append hbefore hbehind]
  rw [hkey]
  refine ⟨?_, fun a ha => ?_, ?_, fun k hk => ?_⟩
  · rw [hins]
    unfold pushTaskToQueue
    dsimp only
    rw [hp, htail]
    exact link_chain h.chain ht
  · rw [hkey]
    rcases mem_insertBehind.mp ha with rfl | ha
    · exact hkt.trans_lt hlt
    · exact (hkl a ha).trans_lt (h.priorities a ha)
  · rw [hkey]
    exact ordered_insertBehind hord
  · rw [hkey]
    unfold pushTaskToQueue
    dsimp only
    rw [hp, pushTails_eq]
    · dsimp only
      rw [htails p hlt, htails k hk]
      by_cases hpk : p ≤ k
      · rw [lastUpTo_insertBehind hord hn (hkt.trans_le hpk), hkt]
        congr 1
        simp only [eq_iff_iff]
        exact ⟨fun h => h.2.2, fun h => ⟨hpk, by omega, h⟩⟩
      · rw [if_neg fun h => hpk h.1, lastUpTo_insertBehind_of_lt (by omega)]
    · intro k₁ k₂ h1 h2 h3 heq
      rw [htails k₂ (by omega), htails p hlt, ← hkt] at heq
      rw [htails k₁ (by omega), htails p hlt, ← hkt]
      exact lastUpTo_between hord hn (hkt.trans_le h1) h2 heq

theorem pullTaskFromQueue_nil (h : ReadyList m []) : m.pullTaskFromQueue = some (none, m) := by
  unfold pullTaskFromQueue
  rw [chain_nil.mp h.chain]

theorem pullTaskFromQueue_cons (h : ReadyList m (t :: l)) : ∃ m', m.pullTaskFromQueue = some (some t, m') ∧
    m'.queuePriority = m.queuePriority ∧ m'.schedNext = m.schedNext ∧ ReadyList m' l := by
  have hlt := h.priorities t List.mem_cons_self
  have hn := h.chain.nodup
  obtain ⟨hhead, hchain⟩ := chain_cons.mp h.chain
  obtain ⟨hle, hord⟩ := List.pairwise_cons.mp h.ordered
  have hlast : ∀ k < maxPriority, m.queuePriority t ≤ k →
      lastUpTo m.queuePriority k l = if m.tails k = some t then none else m.tails k := fun k hk htk => by
    rw [h.tails k hk]
    exact lastUpTo_of_cons hn htk
  have hbefore : ∀ k < maxPriority, k < m.queuePriority t → m.tails k = none ∧ lastUpTo m.queuePriority k l = none :=
    fun k hk hkt => by
      have hnone : lastUpTo m.queuePriority k l = none := lastUpTo_eq_none.mpr fun a ha =>
        hkt.trans_le (hle a ha)
      rw [h.tails k hk, lastUpTo_cons_of_lt hkt]
      exact ⟨hnone, hnone⟩
  have hempty : (if m.queuePriority t = 0 then none else m.tails (m.queuePriority t - 1)) = none := by
    split_ifs with h0
    · rfl
    · exact (hbefore _ (by omega) (by omega)).1
  unfold pullTaskFromQueue
  rw [hhead]
  dsimp only
  rw [if_pos hlt, hempty]
  by_cases hself : m.tails (m.queuePriority t) = some t
  · rw [if_pos hself]
    refine ⟨_, rfl, rfl, rfl, hchain, fun a ha => h.priorities a (List.mem_cons_of_mem _ ha), hord, fun k hk => ?_⟩
    dsimp only
    rw [pullTails_eq (Function.update_self ..), pushTails_eq]
    · rcases lt_trichotomy k (m.queuePriority t) with hlt' | rfl | hgt
      · simp only [Function.update_of_ne hlt'.ne]
        rw [if_neg (by omega), (hbefore k hk hlt').1, (hbefore k hk hlt').2]
      · simp only [Function.update_self]
        rw [if_neg (by omega), hlast _ hlt le_rfl, if_pos hself]
      · simp only [Function.update_of_ne hgt.ne']
        rw [hlast k hk hgt.le]
        congr 1
        simp only [eq_iff_iff]
        exact ⟨fun h => h.2.2, fun h => ⟨hgt, by omega, h⟩⟩
    · intro k k' h1 h2 h3 heq
      rw [Function.update_of_ne (by omega), h.tails _ (by omega), ← hself, h.tails _ hlt] at heq
      rw [Function.update_of_ne (by omega), h.tails _ (by omega), ← hself, h.tails _ hlt]
      exact lastUpTo_between h.ordered hn (by omega) h2 heq
  · rw [if_neg hself]
    refine ⟨_, rfl, rfl, rfl, hchain, fun a ha => h.priorities a (List.mem_cons_of_mem _ ha), hord, fun k hk => ?_⟩
    dsimp only
    rcases lt_or_ge k (m.queuePriority t) with hkt | hkt
    · rw [(hbefore k hk hkt).1, (hbefore k hk hkt).2]
    · rw [hlast k hk hkt, if_neg]
      intro heq
      -- The first task would be the last one of its own priority, too.
      have hlater : ∀ a ∈ l, k < m.queuePriority a := lastUpTo_eq_none.mp (by rw [hlast k hk hkt, if_pos heq])
      have hown := hlast _ hlt le_rfl
      rw [if_neg hself, lastUpTo_eq_none.mpr fun a ha => hkt.trans_lt (hlater a ha), h.tails _ hlt, eq_comm] at hown
      exact absurd (lastUpTo_eq_none.mp hown t List.mem_cons_self) (lt_irrefl _)

/-- The list in memory is the queue of the scheduler, also after a task is pushed or pulled. -/
theorem pushTaskToQueue_scheduler {H : Type*} [DecidableEq H] {s : Scheduler T H} {h : H} (hm : ReadyList m (s.queue h))
    (hkey : s.queuePriority = m.queuePriority) (ht : t ∉ s.queue h) :
    ReadyList (m.pushTaskToQueue t) ((s.pushTaskToQueue h t (m.queuePriority t)).queue h) ∧
      (s.pushTaskToQueue h t (m.queuePriority t)).queuePriority = (m.pushTaskToQueue t).queuePriority := by
  have hp := pushTaskToQueue_queuePriority (m := m) (t := t)
  refine ⟨?_, by rw [hp, ← hkey]; rfl⟩
  have hsame : ∀ a ∈ s.queue h, (m.pushTaskToQueue t).queuePriority a = s.queuePriority a := fun a ha => by
    rw [hp, Function.update_of_ne (ne_of_mem_of_not_mem ha ht), hkey]
  have hself : (m.pushTaskToQueue t).queuePriority t = min (m.queuePriority t) lowestPriority := by
    rw [hp, Function.update_self]
  convert pushTaskToQueue_list hm ht using 1
  unfold Scheduler.pushTaskToQueue insertBehind
  dsimp only
  rw [Function.update_self, hself]
  rw [(split_congr hsame).1, (split_congr hsame).2]

theorem pullTaskFromQueue_scheduler {H : Type*} [DecidableEq H] {s : Scheduler T H} {h : H}
    (hm : ReadyList m (s.queue h)) : ∃ m', m.pullTaskFromQueue = some ((s.pullTaskFromQueue h).map Prod.fst, m') ∧
      ∀ t s', s.pullTaskFromQueue h = some (t, s') → ReadyList m' (s'.queue h) := by
  unfold Scheduler.pullTaskFromQueue
  cases hq : s.queue h with
  | nil => exact ⟨m, m.pullTaskFromQueue_nil (hq ▸ hm), by simp⟩
  | cons t rest =>
    obtain ⟨m', hm', -, -, hrest⟩ := m.pullTaskFromQueue_cons (hq ▸ hm)
    refine ⟨m', hm', fun t' s' heq => ?_⟩
    cases heq
    simpa using hrest

end QueueMemory

section Runs
open QueueMemory
variable [DecidableEq T]

/-- Calls on one queue, with the queued tasks in the order in which they were pushed. The fields
of a task that is not queued may change. -/
inductive QueueRun : QueueMemory T → List T → Prop
  | empty (next : T → Option T) (priority : T → ℕ) : QueueRun ⟨⟨none, fun _ => none⟩, next, priority⟩ []
  | push {m : QueueMemory T} {arrived : List T} {t : T} (hrun : QueueRun m arrived) (ht : t ∉ arrived) :
    QueueRun (m.pushTaskToQueue t) (arrived ++ [t])
  | pull_none {m m' : QueueMemory T} {arrived : List T} (hrun : QueueRun m arrived)
    (hpull : m.pullTaskFromQueue = some (none, m')) : QueueRun m' arrived
  | pull {m m' : QueueMemory T} {arrived : List T} {t : T} (hrun : QueueRun m arrived)
    (hpull : m.pullTaskFromQueue = some (some t, m')) : QueueRun m' (arrived.erase t)
  | change {m : QueueMemory T} {arrived : List T} {t : T} (hrun : QueueRun m arrived) (ht : t ∉ arrived)
    (next : Option T) (priority : ℕ) : QueueRun { m with
      schedNext := Function.update m.schedNext t next
      queuePriority := Function.update m.queuePriority t priority } arrived

variable {m : QueueMemory T} {arrived l : List T} {t : T}

theorem ReadyList.change (h : ReadyList m l) (ht : t ∉ l) (next : Option T) (priority : ℕ) : ReadyList { m with
    schedNext := Function.update m.schedNext t next
    queuePriority := Function.update m.queuePriority t priority } l := by
  have hsame : ∀ a ∈ l, Function.update m.queuePriority t priority a = m.queuePriority a := fun a ha =>
    Function.update_of_ne (ne_of_mem_of_not_mem ha ht) ..
  refine ⟨h.chain.congr fun a ha => Function.update_of_ne (ne_of_mem_of_not_mem ha ht) .., fun a ha => ?_, ?_,
    fun p hp => ?_⟩
  · exact (hsame a ha).trans_lt (h.priorities a ha)
  · exact h.ordered.imp_of_mem fun {a b} ha hb hab => by
      dsimp only
      rwa [hsame a ha, hsame b hb]
  · dsimp only
    rw [h.tails p hp, lastUpTo_congr hsame]

/-- The tasks in memory, in the order of the priorities, and in the order in which they were pushed. -/
def Queued (m : QueueMemory T) (arrived : List T) : Prop :=
  arrived.Nodup ∧ ∃ l, ReadyList m l ∧ StablyOrdered m.queuePriority l arrived

theorem Queued.push (h : Queued m arrived) (ht : t ∉ arrived) : Queued (m.pushTaskToQueue t) (arrived ++ [t]) := by
  obtain ⟨hn, l, hl, hord⟩ := h
  have htl : t ∉ l := fun hmem => ht (hord.mem_iff.mp hmem)
  have hsame : ∀ a, a ≠ t → (m.pushTaskToQueue t).queuePriority a = m.queuePriority a := fun a ha => by
    rw [m.pushTaskToQueue_queuePriority, Function.update_of_ne ha]
  refine ⟨?_, _, m.pushTaskToQueue_list hl htl, StablyOrdered.insertBehind (hord.congr ?_ ?_)⟩
  · exact List.nodup_append'.mpr ⟨hn, List.nodup_singleton t, by simpa using ht⟩
  · exact fun a ha => hsame a (ne_of_mem_of_not_mem ha htl)
  · exact fun a ha => hsame a (ne_of_mem_of_not_mem ha ht)

theorem Queued.pull_none {m' : QueueMemory T} (h : Queued m arrived)
    (hpull : m.pullTaskFromQueue = some (none, m')) : Queued m' arrived := by
  obtain ⟨hn, l, hl, hord⟩ := h
  cases l with
  | nil =>
    rw [m.pullTaskFromQueue_nil hl] at hpull
    cases hpull
    exact ⟨hn, [], hl, hord⟩
  | cons a l =>
    obtain ⟨m'', hm'', -⟩ := m.pullTaskFromQueue_cons hl
    cases hm''.symm.trans hpull

theorem Queued.pull {m' : QueueMemory T} (h : Queued m arrived)
    (hpull : m.pullTaskFromQueue = some (some t, m')) : Queued m' (arrived.erase t) := by
  obtain ⟨hn, l, hl, hord⟩ := h
  cases l with
  | nil => cases (m.pullTaskFromQueue_nil hl).symm.trans hpull
  | cons a l =>
    obtain ⟨m'', hm'', hkey, -, hrest⟩ := m.pullTaskFromQueue_cons hl
    cases hm''.symm.trans hpull
    exact ⟨hn.erase t, l, hrest, hkey ▸ hord.tail⟩

theorem Queued.change (h : Queued m arrived) (ht : t ∉ arrived) (next : Option T) (priority : ℕ) : Queued { m with
    schedNext := Function.update m.schedNext t next
    queuePriority := Function.update m.queuePriority t priority } arrived := by
  obtain ⟨hn, l, hl, hord⟩ := h
  have htl : t ∉ l := fun hmem => ht (hord.mem_iff.mp hmem)
  refine ⟨hn, l, hl.change htl next priority, hord.congr ?_ ?_⟩
  · exact fun a ha => Function.update_of_ne (ne_of_mem_of_not_mem ha htl) ..
  · exact fun a ha => Function.update_of_ne (ne_of_mem_of_not_mem ha ht) ..

theorem QueueRun.list (h : QueueRun m arrived) : Queued m arrived := by
  induction h with
  | empty next priority => exact ⟨List.nodup_nil, [], ⟨rfl, by simp, List.Pairwise.nil, fun _ _ => rfl⟩, .nil⟩
  | push _ ht ih => exact ih.push ht
  | pull_none _ hpull ih => exact ih.pull_none hpull
  | pull _ hpull ih => exact ih.pull hpull
  | change _ ht next priority ih => exact ih.change ht next priority

theorem Queued.pulls (h : Queued m arrived) :
    ∃ m', m.pullTaskFromQueue = some (arrived.argmin m.queuePriority, m') := by
  obtain ⟨hn, l, hl, hord⟩ := h
  rw [← hord.head?_eq_argmin]
  cases l with
  | nil => exact ⟨m, m.pullTaskFromQueue_nil hl⟩
  | cons t l =>
    obtain ⟨m', hm', -⟩ := m.pullTaskFromQueue_cons hl
    exact ⟨m', hm'⟩

/-- The queue is a stable priority queue. -/
theorem QueueRun.stable (h : QueueRun m arrived) :
    (∃ m', m.pullTaskFromQueue = some (arrived.argmin m.queuePriority, m')) ∧
      ∃ l, Chain m.schedNext m.head l ∧ l.Perm arrived ∧ l.Nodup ∧
        ∀ p < maxPriority, m.tails p = (l.filter (m.queuePriority · ≤ p)).getLast? := by
  obtain ⟨hn, l, hl, hord⟩ := h.list
  exact ⟨h.list.pulls, l, hl.chain, hord.perm, hl.chain.nodup, hl.tails⟩

/-- The task of the smaller number comes first, although it was pushed last. -/
theorem QueueRun.stable_two : ∃ m', ((pushTaskToQueue ⟨⟨none, fun _ => none⟩, fun _ => none,
    fun t => if t = 7 then 20 else 10⟩ (7 : ℕ)).pushTaskToQueue 5).pullTaskFromQueue = some (some 5, m') := by
  have hrun := (QueueRun.push (QueueRun.empty (fun _ => none) fun t => if t = 7 then 20 else 10)
    (List.not_mem_nil (a := (7 : ℕ)))).push (t := 5) (by decide)
  obtain ⟨⟨m', hm'⟩, -⟩ := QueueRun.stable hrun
  exact ⟨m', hm'⟩

end Runs

end SomeOs.Tasks
