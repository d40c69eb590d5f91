import SomeOs.Task.ReadyQueue

/-! # Removing a task from the ready queue

The loop looks at the head only, which it clears when another task is there, and the array of last
tasks stays as it is.
-/
namespace SomeOs.Tasks
open LinkedList StableQueue QueueMemory
variable {T : Type*} [DecidableEq T]

/-- `removeTaskFromQueue`, with a bound on the rounds of its loop. -/
def QueueMemory.removeTaskFromQueue (m : QueueMemory T) (task : T) : ℕ → Option (Option T × QueueMemory T)
  | 0 => none
  | rounds + 1 =>
    match m.head with
    | none => some (none, m)
    | some current =>
      if current = task then some (some task, { m with head := m.schedNext current })
      -- the loop assigns to the place and not to the pointer to it
      else removeTaskFromQueue { m with head := none } task rounds

/-- Pushes and pulls on a queue that holds the tasks `arrived₀`. -/
inductive LaterRun (m₀ : QueueMemory T) (arrived₀ : List T) : QueueMemory T → List T → Prop
  | refl : LaterRun m₀ arrived₀ m₀ arrived₀
  | push {m : QueueMemory T} {arrived : List T} {t : T} (hrun : LaterRun m₀ arrived₀ m arrived) (ht : t ∉ arrived) :
    LaterRun m₀ arrived₀ (m.pushTaskToQueue t) (arrived ++ [t])
  | pull_none {m m' : QueueMemory T} {arrived : List T} (hrun : LaterRun m₀ arrived₀ m arrived)
    (hpull : m.pullTaskFromQueue = some (none, m')) : LaterRun m₀ arrived₀ m' arrived
  | pull {m m' : QueueMemory T} {arrived : List T} {t : T} (hrun : LaterRun m₀ arrived₀ m arrived)
    (hpull : m.pullTaskFromQueue = some (some t, m')) : LaterRun m₀ arrived₀ m' (arrived.erase t)
  | change {m : QueueMemory T} {arrived : List T} {t : T} (hrun : LaterRun m₀ arrived₀ m arrived) (ht : t ∉ arrived)
    (next : Option T) (priority : ℕ) : LaterRun m₀ arrived₀ { m with
      schedNext := Function.update m.schedNext t next
      queuePriority := Function.update m.queuePriority t priority } arrived

/-- What is left of a queue with the tasks `arrived` is the queue without `task`. -/
structure Removes (m : QueueMemory T) (arrived : List T) (task : T) (ret : Option T) (m' : QueueMemory T) : Prop where
  returned : ret = if task ∈ arrived then some task else none
  order : ∀ l, Chain m.schedNext m.head l → Chain m'.schedNext m'.head (l.erase task)
  tails : ∀ l, Chain m.schedNext m.head l → ∀ p < maxPriority,
    m'.tails p = ((l.erase task).filter (m.queuePriority · ≤ p)).getLast?
  later : ∀ m'' arrived', LaterRun m' (arrived.erase task) m'' arrived' →
    ∃ m₃, m''.pullTaskFromQueue = some (arrived'.argmin m''.queuePriority, m₃)

variable {m m' : QueueMemory T} {arrived l : List T} {task : T}
  {ret : Option T}

theorem LaterRun.queued {m₀ : QueueMemory T} {arrived₀ : List T} (h₀ : Queued m₀ arrived₀)
    (h : LaterRun m₀ arrived₀ m arrived) : Queued m arrived := by
  induction h with
  | refl => exact h₀
  | push _ ht ih => exact ih.push ht
  | pull_none _ hpull ih => exact ih.pull_none hpull
  | pull _ hpull ih => exact ih.pull hpull
  | change _ ht next priority ih => exact ih.change ht next priority

theorem removeTaskFromQueue_empty (hhead : m.head = none) (rounds : ℕ) :
    m.removeTaskFromQueue task (rounds + 1) = some (none, m) := by
  unfold removeTaskFromQueue
  rw [hhead]

/-- The loop ends after two rounds at most, and then it has looked at the head. -/
theorem removeTaskFromQueue_iff {result : Option T × QueueMemory T} :
    (∃ rounds, m.removeTaskFromQueue task rounds = some result) ↔ result =
      if m.head = some task then (some task, { m with head := m.schedNext task }) else (none, { m with head := none }) := by
  cases hhead : m.head with
  | none =>
    have hsame : { m with head := none } = m := by
      rw [← hhead]
    rw [if_neg (by simp), hsame]
    refine ⟨?_, fun h => ⟨1, ?_⟩⟩
    · rintro ⟨_ | rounds, h⟩
      · cases h
      · rw [removeTaskFromQueue_empty hhead] at h
        exact (Option.some.inj h).symm
    · rw [removeTaskFromQueue_empty hhead, h]
  | some current =>
    have hround : ∀ rounds, m.removeTaskFromQueue task (rounds + 1) =
        if current = task then some (some task, { m with head := m.schedNext current })
        else removeTaskFromQueue { m with head := none } task rounds := fun rounds => by
      rw [removeTaskFromQueue, hhead]
    by_cases hc : current = task
    · subst hc
      rw [if_pos rfl]
      refine ⟨?_, fun h => ⟨1, ?_⟩⟩
      · rintro ⟨_ | rounds, h⟩
        · cases h
        · rw [hround, if_pos rfl] at h
          exact (Option.some.inj h).symm
      · rw [hround, if_pos rfl, h]
    · rw [if_neg (by simpa using hc)]
      refine ⟨?_, fun h => ⟨2, ?_⟩⟩
      · rintro ⟨_ | _ | rounds, h⟩
        · cases h
        · rw [hround, if_neg hc] at h
          cases h
        · rw [hround, if_neg hc, removeTaskFromQueue_empty rfl] at h
          exact (Option.some.inj h).symm
      · rw [hround, if_neg hc, removeTaskFromQueue_empty rfl, h]

theorem ReadyList.removeHead {t : T} (h : ReadyList m (t :: l)) (hnext : ∃ b ∈ l, m.queuePriority b = m.queuePriority t) :
    ReadyList { m with head := m.schedNext t } l := by
  have hn := h.chain.nodup
  refine ⟨h.chain.2, fun a ha => h.priorities a (List.mem_cons_of_mem _ ha), (List.pairwise_cons.mp h.ordered).2,
    fun p hp => (h.tails p hp).trans ?_⟩
  rcases lt_or_ge p (m.queuePriority t) with hlt | hge
  · exact lastUpTo_cons_of_lt hlt
  · rw [lastUpTo_of_cons hn hge, if_neg]
    intro hlast
    obtain ⟨b, hb, hkey⟩ := hnext
    have hnone : lastUpTo m.queuePriority p l = none := by
      rw [lastUpTo_of_cons hn hge, if_pos hlast]
    exact absurd (lastUpTo_eq_none.mp hnone b hb) (not_lt.mpr (hkey.trans_le hge))

/-- A queue that is left as the queue without the task had the task at its head, and another one of its priority. -/
theorem Removes.head {a : T} (hl : ReadyList m (a :: l)) (h : Removes m arrived task ret m')
    (hr : (ret, m') = if m.head = some task then (some task, { m with head := m.schedNext task })
      else (none, { m with head := none })) : a = task ∧ ∃ b ∈ l, m.queuePriority b = m.queuePriority task := by
  have hhead : m.head = some a := hl.chain.1
  rw [hhead] at hr
  by_cases ha : a = task
  · subst ha
    rw [if_pos rfl] at hr
    cases hr
    refine ⟨rfl, ?_⟩
    have hlt := hl.priorities a List.mem_cons_self
    have htails : m.tails (m.queuePriority a) = lastUpTo m.queuePriority (m.queuePriority a) l := by
      rw [h.tails _ hl.chain _ hlt, List.erase_cons_head]
      rfl
    by_contra hnone
    push Not at hnone
    have hlater : lastUpTo m.queuePriority (m.queuePriority a) l = none := by
      rw [lastUpTo_eq_none]
      exact fun b hb => lt_of_le_of_ne ((List.pairwise_cons.mp hl.ordered).1 b hb) (hnone b hb).symm
    rw [hlater, hl.tails _ hlt, lastUpTo_eq_none] at htails
    exact lt_irrefl _ (htails a List.mem_cons_self)
  · rw [if_neg (by simpa using ha)] at hr
    cases hr
    have hrest := (h.order _ hl.chain).eq_nil
    rw [List.erase_cons_tail (by simpa using ha)] at hrest
    cases hrest

theorem Queued.removes_nil (h : Queued m []) (task : T) : Removes m [] task none m := by
  obtain ⟨-, l, hl, hord⟩ := id h
  have hnil : l = [] := List.eq_nil_iff_forall_not_mem.mpr fun a ha => List.not_mem_nil (hord.mem_iff.mp ha)
  subst hnil
  refine ⟨(if_neg List.not_mem_nil).symm, fun l' hl' => ?_, fun l' hl' p hp => ?_, fun m'' arrived' hlater => ?_⟩
  · obtain rfl := hl'.unique hl.chain
    exact hl.chain
  · obtain rfl := hl'.unique hl.chain
    exact hl.tails p hp
  · exact (hlater.queued h).pulls

theorem Queued.removes_head (hn : arrived.Nodup) (hl : ReadyList m (task :: l))
    (hord : StablyOrdered m.queuePriority (task :: l) arrived) (hnext : ∃ b ∈ l, m.queuePriority b = m.queuePriority task) :
    Removes m arrived task (some task) { m with head := m.schedNext task } := by
  have hrest := hl.removeHead hnext
  refine ⟨(if_pos (hord.mem_iff.mp List.mem_cons_self)).symm, fun l' hl' => ?_, fun l' hl' p hp => ?_,
    fun m'' arrived' hlater => ?_⟩
  · obtain rfl := hl'.unique hl.chain
    rw [List.erase_cons_head]
    exact hrest.chain
  · obtain rfl := hl'.unique hl.chain
    rw [List.erase_cons_head]
    exact hrest.tails p hp
  · have hqueued : Queued { m with head := m.schedNext task } (arrived.erase task) := ⟨hn.erase task, l, hrest, hord.tail⟩
    exact (hlater.queued hqueued).pulls

/-- The queue survives the removal of a task when it is empty, or when the task is the next one and another of its
priority is queued. -/
theorem removeTaskFromQueue_removes (h : QueueRun m arrived) (task : T) :
    (∃ rounds ret m', m.removeTaskFromQueue task rounds = some (ret, m') ∧ Removes m arrived task ret m') ↔
      arrived = [] ∨ arrived.argmin m.queuePriority = some task ∧
        ∃ b ∈ arrived, b ≠ task ∧ m.queuePriority b = m.queuePriority task := by
  obtain ⟨hn, l, hl, hord⟩ := h.list
  constructor
  · rintro ⟨rounds, ret, m', hrun, hremoves⟩
    have hresult := removeTaskFromQueue_iff.mp ⟨rounds, hrun⟩
    cases l with
    | nil => exact Or.inl (List.eq_nil_iff_forall_not_mem.mpr fun a ha => List.not_mem_nil (hord.mem_iff.mpr ha))
    | cons a l =>
      obtain ⟨rfl, b, hb, hkey⟩ := hremoves.head hl hresult
      refine Or.inr ⟨hord.head?_eq_argmin.symm, b, hord.mem_iff.mp (List.mem_cons_of_mem _ hb), ?_, hkey⟩
      rintro rfl
      exact (List.nodup_cons.mp hl.chain.nodup).1 hb
  · rintro (rfl | ⟨hfirst, b, hb, hne, hkey⟩)
    · have hhead : m.head = none := by
        obtain ⟨m', hpull⟩ := h.list.pulls
        cases hm : m.head with
        | none => rfl
        | some a =>
          have hmem : a ∈ l := by
            have hhead := hl.chain.head_eq
            rw [hm] at hhead
            exact List.mem_of_head? hhead.symm
          exact absurd (hord.mem_iff.mp hmem) List.not_mem_nil
      exact ⟨1, none, m, removeTaskFromQueue_empty hhead 0, h.list.removes_nil task⟩
    · rw [← hord.head?_eq_argmin] at hfirst
      cases l with
      | nil => cases hfirst
      | cons a l =>
        cases hfirst
        have hbl : b ∈ l := (List.mem_cons.mp (hord.mem_iff.mpr hb)).resolve_left hne
        obtain ⟨rounds, hrun⟩ := (@removeTaskFromQueue_iff T _ m task _).mpr rfl
        rw [if_pos hl.chain.1] at hrun
        exact ⟨rounds, _, _, hrun, Queued.removes_head hn hl hord ⟨b, hbl, hkey⟩⟩

/-- Two tasks of one priority, of which the first is removed. -/
theorem removeTaskFromQueue_removes_two : ∃ rounds ret m', ((pushTaskToQueue ⟨⟨none, fun _ => none⟩, fun _ => none,
    fun _ => 10⟩ (7 : ℕ)).pushTaskToQueue 5).removeTaskFromQueue 7 rounds = some (ret, m') ∧
      Removes ((pushTaskToQueue ⟨⟨none, fun _ => none⟩, fun _ => none, fun _ => 10⟩ (7 : ℕ)).pushTaskToQueue 5)
        [7, 5] 7 ret m' := by
  have hrun := (QueueRun.push (QueueRun.empty (fun _ => none) fun _ => 10)
    (List.not_mem_nil (a := (7 : ℕ)))).push (t := 5) (by decide)
  exact (removeTaskFromQueue_removes hrun 7).mpr (Or.inr ⟨by decide, 5, by decide, by decide, by decide⟩)

/-- Of two queued tasks, the removal of the second one loses both. -/
theorem removeTaskFromQueue_loses : QueueRun ((pushTaskToQueue ⟨⟨none, fun _ => none⟩, fun _ => none,
    fun _ => 10⟩ (7 : ℕ)).pushTaskToQueue 5) [7, 5] ∧
    ¬∃ rounds ret m', ((pushTaskToQueue ⟨⟨none, fun _ => none⟩, fun _ => none,
      fun _ => 10⟩ (7 : ℕ)).pushTaskToQueue 5).removeTaskFromQueue 5 rounds = some (ret, m') ∧
        Removes ((pushTaskToQueue ⟨⟨none, fun _ => none⟩, fun _ => none, fun _ => 10⟩ (7 : ℕ)).pushTaskToQueue 5)
          [7, 5] 5 ret m' := by
  have hrun := (QueueRun.push (QueueRun.empty (fun _ => none) fun _ => 10)
    (List.not_mem_nil (a := (7 : ℕ)))).push (t := 5) (by decide)
  refine ⟨hrun, ?_⟩
  rintro ⟨rounds, ret, m', hremove, hremoves⟩
  have hresult := removeTaskFromQueue_iff.mp ⟨rounds, hremove⟩
  rw [if_neg (by decide)] at hresult
  cases hresult
  cases hremoves.returned

end SomeOs.Tasks
