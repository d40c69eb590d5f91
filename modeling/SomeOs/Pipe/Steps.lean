import SomeOs.Pipe.Service

/-! # The steps of the calls on a pipe

Between its steps a pipe has queues of waiting calls and nothing to serve. Every step
that can be taken has a result that is such a state again, as long as no signal ends
a write that is in the queue and no call is put behind one that has returned.
-/
namespace SomeOs.Pipe
open LinkedList

structure AtRest (s : PipeState) (rs ws : List ℕ) : Prop where
  tidy : Tidy s
  reads : Queued s false rs
  writes : Queued s true ws
  settled : Settled s rs ws

/-- The record that a new one at `a` is put behind is that of a call that has not returned. -/
def LiveTail (s : PipeState) (write : Bool) (a : ℕ) : Prop :=
  (s.queue write).first ≠ none → ∀ p ∈ (s.queue write).tail, p = a ∨ ∃ c ∈ s.active, c.addr = p

def Spared (s : PipeState) : PipeAction → Prop
  | .call _ a request block => s.mayStart request block = some true → LiveTail s request.isWrite a
  | .interrupt task => ∀ c ∈ s.active, c.task = task → c.write = true →
    ∀ ws ∈ s.queued true, c.addr ∉ ws
  | _ => True

instance decidableSpared (s : PipeState) : (act : PipeAction) → Decidable (Spared s act)
  | .call _ a request block => inferInstanceAs (Decidable (s.mayStart request block = some true →
      (s.queue request.isWrite).first ≠ none →
        ∀ p ∈ (s.queue request.isWrite).tail, p = a ∨ ∃ c ∈ s.active, c.addr = p))
  | .finish _ => inferInstanceAs (Decidable True)
  | .interrupt task => inferInstanceAs (Decidable (∀ c ∈ s.active, c.task = task → c.write = true →
      ∀ ws ∈ s.queued true, c.addr ∉ ws))
  | .copy _ => inferInstanceAs (Decidable True)
  | .close _ => inferInstanceAs (Decidable True)

structure OnlyLinks (s t : PipeState) : Prop where
  rest : { t with ops := s.ops, waiting_reads := s.waiting_reads, waiting_writes := s.waiting_writes } = s
  ops : ∀ b, ∃ n, t.ops b = { s.ops b with next := n }

section Start
variable {s t : PipeState} {task a : ℕ} {request : Request} {l l' rs ws : List ℕ} {write block : Bool}

theorem OnlyLinks.tidy (h : OnlyLinks s t) (ht : Tidy s) : Tidy t := by
  have hactive : t.active = s.active := (congrArg PipeState.active h.rest :)
  have hrequests : t.requests = s.requests := (congrArg PipeState.requests h.rest :)
  have hwrite : t.write_count = s.write_count := (congrArg PipeState.write_count h.rest :)
  constructor
  · rw [hactive]
    exact ht.tasks
  · rw [hactive]
    exact ht.addrs
  · rw [hactive]
    exact ht.calls
  · rw [hactive, hrequests]
    exact ht.old
  · rw [hactive]
    intro c hc
    obtain ⟨n, hn⟩ := h.ops c.addr
    rw [hn]
    exact ht.record c hc
  · rw [hactive, hwrite]
    exact ht.closed

theorem onlyLinks_setNext (s : PipeState) (p : ℕ) (n : Option ℕ) : OnlyLinks s (s.setNext p n) where
  rest := rfl
  ops := by
    intro b
    simp only [PipeState.setNext, PipeState.setOp]
    by_cases hb : b = p
    · rw [hb, Function.update_self]
      exact ⟨n, rfl⟩
    · rw [Function.update_of_ne hb]
      exact ⟨_, rfl⟩

theorem onlyLinks_setQueue (s : PipeState) (write : Bool) (q : WaitQueue) : OnlyLinks s (s.setQueue write q) where
  rest := by cases write <;> rfl
  ops := by
    intro b
    rw [(setQueue_fields s write q).1]
    exact ⟨_, rfl⟩

theorem next_setNext (s : PipeState) (p : ℕ) (n : Option ℕ) (b : ℕ) :
    (s.setNext p n).next b = if b = p then n else s.next b := by
  simp only [PipeState.setNext, PipeState.setOp, PipeState.next]
  split_ifs with hb
  · rw [hb, Function.update_self]
  · rw [Function.update_of_ne hb]

/-- A new call is active, and has a record of its own. -/
theorem Tidy.startWaiting (ht : Tidy s) (hnew : ∀ c ∈ s.active, c.task ≠ task ∧ c.addr ≠ a)
    (hopen : request.isWrite → 0 < s.write_count) : Tidy (s.startWaiting task a request) where
  tasks := by
    simp only [PipeState.startWaiting, List.map_append, List.map_cons, List.map_nil]
    refine List.nodup_append'.mpr ⟨ht.tasks, List.nodup_singleton _, fun n hn hn' => ?_⟩
    obtain ⟨c, hc, rfl⟩ := List.mem_map.mp hn
    exact (hnew c hc).1 (by simpa using hn')
  addrs := by
    simp only [PipeState.startWaiting, List.map_append, List.map_cons, List.map_nil]
    refine List.nodup_append'.mpr ⟨ht.addrs, List.nodup_singleton _, fun n hn hn' => ?_⟩
    obtain ⟨c, hc, rfl⟩ := List.mem_map.mp hn
    exact (hnew c hc).2 (by simpa using hn')
  calls := by
    simp only [PipeState.startWaiting, List.map_append, List.map_cons, List.map_nil]
    refine List.nodup_append'.mpr ⟨ht.calls, List.nodup_singleton _, fun n hn hn' => ?_⟩
    obtain ⟨c, hc, rfl⟩ := List.mem_map.mp hn
    have hlt := ht.old c hc
    have heq : c.call = s.requests.length := by simpa using hn'
    omega
  old := by
    simp only [PipeState.startWaiting, List.length_append, List.length_singleton]
    intro c hc
    rcases List.mem_append.mp hc with hc | hc
    · exact Nat.lt_succ_of_lt (ht.old c hc)
    · obtain rfl := List.mem_singleton.mp hc
      exact Nat.lt_succ_self _
  record := by
    simp only [PipeState.startWaiting]
    intro c hc
    rcases List.mem_append.mp hc with hc | hc
    · rw [Function.update_of_ne (hnew c hc).2]
      exact ht.record c hc
    · obtain rfl := List.mem_singleton.mp hc
      rw [Function.update_self]
      exact ⟨rfl, rfl⟩
  closed := by
    simp only [PipeState.startWaiting]
    intro h0 c hc
    rcases List.mem_append.mp hc with hc | hc
    · exact ht.closed h0 c hc
    · obtain rfl := List.mem_singleton.mp hc
      by_contra h
      have := hopen (by simpa using h)
      omega

variable (request) in
theorem Queued.startWaiting (hq : Queued s write l) (hnew : ∀ c ∈ s.active, c.task ≠ task ∧ c.addr ≠ a) :
    Queued (s.startWaiting task a request) write l ∧ a ∉ l := by
  have hnot : a ∉ l := by
    intro ha
    obtain ⟨c, hc, haddr, -⟩ := hq.waiting a ha
    exact (hnew c hc).2 haddr
  refine ⟨⟨?_, hq.tail, fun b hb => ?_⟩, hnot⟩
  · refine hq.chain.congr (fun b hb => ?_)
    have hne : b ≠ a := fun h => hnot (h ▸ hb)
    simp only [PipeState.next, PipeState.startWaiting, Function.update_of_ne hne]
  · obtain ⟨c, hc, hrest⟩ := hq.waiting b hb
    exact ⟨c, List.mem_append_left _ hc, hrest⟩

theorem LiveTail.startWaiting (h : LiveTail s write a) (task : ℕ) (request : Request)
    (hne : ((s.startWaiting task a request).queue write).first ≠ none) :
    ∀ p ∈ ((s.startWaiting task a request).queue write).tail,
      ∃ c ∈ (s.startWaiting task a request).active, c.addr = p := by
  intro p hp
  rcases h hne p hp with rfl | ⟨c, hc, haddr⟩
  · exact ⟨_, List.mem_append_right _ List.mem_cons_self, rfl⟩
  · exact ⟨c, List.mem_append_left _ hc, haddr⟩

/-- The new record is in a queue of one, behind the tail in a queue that the tail cuts
off, or in no queue when the tail is not in its queue any more. -/
theorem enqueue_spec (hq : Queued s write l) (hq' : Queued s (!write) l') (hone : l ≠ [] → l' = [])
    (ha : a ∉ l) (hnext : s.next a = none)
    (hwait : ∃ c ∈ s.active, c.addr = a ∧ c.write = write ∧ c.woken = none)
    (hlive : (s.queue write).first ≠ none → ∀ p ∈ (s.queue write).tail, ∃ c ∈ s.active, c.addr = p) :
    ∃ t l₂, s.enqueue write a = some t ∧ OnlyLinks s t ∧ Queued t write l₂ ∧ Queued t (!write) l' ∧
      ∀ w, (s.queue w).first ≠ none → (t.queue w).first = (s.queue w).first := by
  have hfirst := hq.chain.head_eq
  unfold PipeState.enqueue
  cases l with
  | nil =>
    rw [hfirst]
    obtain ⟨hops, hactive, -, -⟩ := setQueue_fields s write ⟨some a, some a⟩
    refine ⟨_, [a], rfl, onlyLinks_setQueue _ _ _, ⟨?_, ?_, ?_⟩, ?_, fun w hw => ?_⟩
    · rw [queue_setQueue]
      refine ⟨rfl, ?_⟩
      simp only [PipeState.next, hops]
      exact hnext
    · rw [queue_setQueue]
      simp
    · rw [hactive]
      intro b hb
      obtain rfl := List.mem_singleton.mp hb
      exact hwait
    · refine hq'.of_eq (queue_setQueue_not s write _) (fun b _ => ?_) hactive
      simp only [PipeState.next, hops]
    · by_cases hww : w = write
      · subst hww
        exact absurd hfirst hw
      · obtain rfl : w = !write := by
          cases w <;> cases write <;> simp_all
        rw [queue_setQueue_not]
  | cons b l =>
    obtain rfl := hone (List.cons_ne_nil _ _)
    obtain ⟨p, hp⟩ := Option.ne_none_iff_exists'.mp (hq.tail (List.cons_ne_nil _ _))
    have hstore := hlive (by rw [hfirst]; exact Option.some_ne_none _) p hp
    rw [hfirst, hp]
    simp only [List.head?_cons, Option.bind_some, if_pos hstore]
    have hlinks := onlyLinks_setNext s p (some a)
    have hqueue : ∀ w, (s.setNext p (some a)).queue w = s.queue w := fun w => by cases w <;> rfl
    have hother : Queued (s.setNext p (some a)) (!write) [] := hq'.of_eq (hqueue _) (by simp) rfl
    by_cases hmem : p ∈ b :: l
    · obtain ⟨l₁, l₂, hl⟩ := List.append_of_mem hmem
      have hnodup := hq.chain.nodup
      rw [hl] at hq hnodup ha
      have hpa : a ≠ p := fun h => ha (by simp [h])
      refine ⟨_, l₁ ++ [p, a], rfl, hlinks, ⟨?_, ?_, fun c hc => ?_⟩, hother, fun w _ => by rw [hqueue]⟩
      · rw [hqueue]
        refine hq.chain.splice (fun c hc => ?_) ?_
        · rw [next_setNext, if_neg]
          rintro rfl
          exact (List.nodup_append'.mp hnodup).2.2 hc List.mem_cons_self
        · simp only [next_setNext, if_true, chain_cons, true_and, if_neg hpa]
          exact hnext
      · rw [hqueue, hp]
        simp
      · have hc' : c ∈ l₁ ++ p :: l₂ ∨ c = a := by
          simp only [List.mem_append, List.mem_cons, List.not_mem_nil, or_false] at hc ⊢
          tauto
        rcases hc' with hc' | rfl
        · exact hq.waiting c hc'
        · exact hwait
    · refine ⟨_, b :: l, rfl, hlinks, ?_, hother, fun w _ => by rw [hqueue]⟩
      refine hq.of_eq (hqueue _) (fun c hc => ?_) rfl
      have hne : c ≠ p := fun h => hmem (h ▸ hc)
      rw [next_setNext, if_neg hne]

/-- A call returns at once, or its record is linked to a queue and the queues are served. -/
theorem executePipeOperation_spec (h : AtRest s rs ws)
    (he : Enabled s (.call task a request block)) (hs : Spared s (.call task a request block)) :
    (∃ ret, s.executePipeOperation task a request block = some (s.answer request ret) ∧
      (ret = .success 0 ∨ ret = .eagain)) ∨
    ∃ t u rs' ws', s.mayStart request block = some true ∧
      (s.startWaiting task a request).enqueue request.isWrite a = some t ∧
      OnlyLinks (s.startWaiting task a request) t ∧
      (∀ w, (s.queue w).first ≠ none → (t.queue w).first = (s.queue w).first) ∧
      Relation.ReflTransGen Turn t u ∧
      s.executePipeOperation task a request block = some u ∧ AtRest u rs' ws' := by
  obtain ⟨-, hopen, hnew⟩ := he
  have hreads := h.reads.queued_eq h.tidy
  have hwrites := h.writes.queued_eq h.tidy
  have hrc : s.currentReadCapacity = some (s.count + (ws.map fun a => (s.ops a).size).sum) := by
    simp only [PipeState.currentReadCapacity, PipeState.queuedSize, hwrites, Option.map_some]
  have hwc : s.currentWriteCapacity =
      some (capacity - s.count + (rs.map fun a => (s.ops a).size).sum) := by
    simp only [PipeState.currentWriteCapacity, PipeState.queuedSize, hreads, Option.map_some]
  obtain ⟨start, hstart⟩ : ∃ start, s.mayStart request block = some start := by
    unfold PipeState.mayStart
    rw [hrc, hwc]
    split_ifs <;> exact ⟨_, rfl⟩
  have hexec : s.executePipeOperation task a request block =
      if s.count + (ws.map fun a => (s.ops a).size).sum = 0 ∧ s.write_count = 0 then
        some (s.answer request (.success 0))
      else if start then ((s.startWaiting task a request).enqueue request.isWrite a).bind
        PipeState.doOperationOnPipe
      else some (s.answer request .eagain) := by
    unfold PipeState.executePipeOperation
    rw [hstart, hrc]
    rfl
  rw [hexec]
  split_ifs with hend hgo
  · exact Or.inl ⟨_, rfl, Or.inl rfl⟩
  · right
    have ht := h.tidy.startWaiting hnew hopen
    have hself : ∃ c ∈ (s.startWaiting task a request).active, c.addr = a ∧ c.write = request.isWrite ∧
        c.woken = none := ⟨_, List.mem_append_right _ List.mem_cons_self, rfl, rfl, rfl⟩
    have hnext : (s.startWaiting task a request).next a = none := by
      simp only [PipeState.next, PipeState.startWaiting, Function.update_self]
    obtain ⟨hr, har⟩ := h.reads.startWaiting request hnew
    obtain ⟨hw, haw⟩ := h.writes.startWaiting request hnew
    have hyes : s.mayStart request block = some true := by rw [hstart, hgo]
    have hlive := (hs hyes).startWaiting task request
    cases hdir : request.isWrite with
    | true =>
      obtain ⟨t, l₂, ht', hlinks, hq, hq', hfirst⟩ := enqueue_spec hw hr
        (fun hne => (h.settled.writes hne).2) haw hnext (hdir ▸ hself) (hdir ▸ hlive)
      obtain ⟨u, rs', ws', hu, hturns, htidy, hru, hwu, hset⟩ :=
        doOperationOnPipe_spec (hlinks.tidy ht) hq' hq
      refine ⟨t, u, rs', ws', hyes, ht', hlinks, hfirst, hturns, ?_, htidy, hru, hwu, hset⟩
      rw [ht', Option.bind_some, hu]
    | false =>
      obtain ⟨t, l₂, ht', hlinks, hq, hq', hfirst⟩ := enqueue_spec hr hw
        (fun hne => (h.settled.reads hne).2.1) har hnext (hdir ▸ hself) (hdir ▸ hlive)
      obtain ⟨u, rs', ws', hu, hturns, htidy, hru, hwu, hset⟩ :=
        doOperationOnPipe_spec (hlinks.tidy ht) hq hq'
      refine ⟨t, u, rs', ws', hyes, ht', hlinks, hfirst, hturns, ?_, htidy, hru, hwu, hset⟩
      rw [ht', Option.bind_some, hu]
  · exact Or.inl ⟨_, rfl, Or.inr rfl⟩

end Start

section Finish
variable {s t : PipeState} {task a : ℕ} {l rs ws : List ℕ} {write for_write : Bool} {c : ActiveCall}

theorem AtRest.answer (h : AtRest s rs ws) (request : Request) (ret : PipeReturn) :
    AtRest (s.answer request ret) rs ws where
  tidy := by
    refine ⟨h.tidy.tasks, h.tidy.addrs, h.tidy.calls, fun c hc => ?_, h.tidy.record, h.tidy.closed⟩
    simp only [PipeState.answer, List.length_append, List.length_singleton]
    exact Nat.lt_succ_of_lt (h.tidy.old c hc)
  reads := ⟨h.reads.chain, h.reads.tail, h.reads.waiting⟩
  writes := ⟨h.writes.chain, h.writes.tail, h.writes.waiting⟩
  settled := ⟨h.settled.reads, h.settled.writes⟩

def returned (s : PipeState) (task : ℕ) (c : ActiveCall) : PipeState :=
  { s with
    active := s.active.filter (fun c => c.task != task)
    results := s.results ++ [⟨c.call, if (s.ops c.addr).written ≠ 0 then .success (s.ops c.addr).written
      else .eintr (s.ops c.addr).written, c.woken⟩] }

theorem finishCall_eq (ht : Tidy s) (he : Enabled s (.finish task)) :
    ∃ c ∈ s.active, c.task = task ∧ c.woken ≠ none ∧ s.finishCall task = some (returned s task c) := by
  obtain ⟨c, hc, htask, hwoken⟩ := he
  have hfind : s.active.find? (fun c => c.task == task && c.woken != none) = some c := by
    cases hf : s.active.find? (fun c => c.task == task && c.woken != none) with
    | none =>
      have := List.find?_eq_none.mp hf c hc
      simp [htask, hwoken] at this
    | some d =>
      have hd := List.find?_some hf
      simp only [Bool.and_eq_true, beq_iff_eq] at hd
      rw [ht.eq_of_task (List.mem_of_find?_eq_some hf) hc (hd.1.trans htask.symm)]
  refine ⟨c, hc, htask, hwoken, ?_⟩
  unfold PipeState.finishCall
  rw [hfind]
  rfl

theorem Tidy.returned (ht : Tidy s) (task : ℕ) (c : ActiveCall) : Tidy (returned s task c) where
  tasks := ht.tasks.sublist (List.filter_sublist.map _)
  addrs := ht.addrs.sublist (List.filter_sublist.map _)
  calls := ht.calls.sublist (List.filter_sublist.map _)
  old := fun d hd => ht.old d (List.mem_filter.mp hd).1
  record := fun d hd => ht.record d (List.mem_filter.mp hd).1
  closed := fun h0 d hd => ht.closed h0 d (List.mem_filter.mp hd).1

theorem Queued.returned (ht : Tidy s) (hq : Queued s write l) (hc : c ∈ s.active) (htask : c.task = task)
    (hwoken : c.woken ≠ none) : Queued (Pipe.returned s task c) write l where
  chain := hq.chain
  tail := hq.tail
  waiting := by
    intro a ha
    obtain ⟨d, hd, haddr, hwrite, hwait⟩ := hq.waiting a ha
    refine ⟨d, List.mem_filter.mpr ⟨hd, ?_⟩, haddr, hwrite, hwait⟩
    rw [bne_iff_ne]
    intro h
    obtain rfl := ht.eq_of_task hd hc (h.trans htask.symm)
    exact hwoken hwait

theorem unlinkTask_skip (l₁ : List ℕ) (prev : Option ℕ) (h : ∀ b ∈ l₁, (s.ops b).wakeup ≠ task) :
    s.unlinkTask task prev (l₁ ++ l) = s.unlinkTask task (l₁.getLast?.or prev) l := by
  induction l₁ generalizing prev with
  | nil => rfl
  | cons b l₁ ih =>
    simp only [List.cons_append, PipeState.unlinkTask, if_neg (h b List.mem_cons_self)]
    rw [ih _ (fun c hc => h c (List.mem_cons_of_mem _ hc))]
    cases l₁ with
    | nil => rfl
    | cons c l₁ => rw [List.getLast?_cons_cons, List.getLast?_cons, Option.some_or, Option.some_or]

/-- The record of the task is taken out of the queue of reads, if it is there. -/
theorem unlinkTask_spec (ht : Tidy s) (hr : Queued s false rs) (hw : Queued s true ws) (hc : c ∈ s.active)
    (htask : c.task = task) :
    OnlyLinks s (s.unlinkTask task none rs) ∧ Queued (s.unlinkTask task none rs) false (rs.erase c.addr) ∧
      Queued (s.unlinkTask task none rs) true ws := by
  have hwakeup : ∀ b ∈ rs, (s.ops b).wakeup = task → b = c.addr := by
    intro b hb h
    by_contra hne
    refine hr.wakeup_ne ht hb hc rfl hne ?_
    rw [h, (ht.record c hc).1, htask]
  by_cases hmem : c.addr ∈ rs
  · obtain ⟨l₁, l₂, rfl⟩ := List.append_of_mem hmem
    have hnodup := hr.chain.nodup
    have hnot : c.addr ∉ l₁ := fun h => (List.nodup_append'.mp hnodup).2.2 h List.mem_cons_self
    have hskip : ∀ b ∈ l₁, (s.ops b).wakeup ≠ task := fun b hb h =>
      hnot (hwakeup b (List.mem_append_left _ hb) h ▸ hb)
    have hself : (s.ops c.addr).wakeup = task := by rw [(ht.record c hc).1, htask]
    have herase : (l₁ ++ c.addr :: l₂).erase c.addr = l₁ ++ l₂ := by
      rw [List.erase_append_right _ hnot, List.erase_cons_head]
    have hrest : ∀ b ∈ l₁ ++ l₂, ∃ d ∈ s.active, d.addr = b ∧ d.write = false ∧ d.woken = none := by
      intro b hb
      apply hr.waiting b
      simp only [List.mem_append, List.mem_cons] at hb ⊢
      tauto
    rw [herase, unlinkTask_skip l₁ none hskip]
    simp only [PipeState.unlinkTask, hself, if_true]
    rcases List.eq_nil_or_concat l₁ with rfl | ⟨l₃, p, rfl⟩
    · -- the record is the first one
      have hchain := hr.chain.suffix (l := [])
      simp only [List.getLast?_nil, Option.none_or, List.nil_append] at hrest ⊢
      have hq : ∀ q : WaitQueue, q.first = s.next c.addr → (l₂ ≠ [] → q.tail ≠ none) →
          OnlyLinks s { s with waiting_reads := q } ∧ Queued { s with waiting_reads := q } false l₂ ∧
            Queued { s with waiting_reads := q } true ws := by
        intro q hfirst htail
        refine ⟨⟨rfl, fun b => ⟨_, rfl⟩⟩, ⟨?_, htail, hrest⟩, ⟨hw.chain, hw.tail, hw.waiting⟩⟩
        simp only [PipeState.queue, Bool.false_eq_true, if_false, hfirst]
        exact hchain
      by_cases hnone : s.next c.addr = none
      · simp only [hnone, ↓reduceIte]
        refine hq ⟨none, none⟩ hnone.symm (fun hne => absurd (hchain.head_eq.symm.trans hnone) ?_)
        simpa using hne
      · simp only [hnone, ↓reduceIte]
        exact hq ⟨s.next c.addr, s.waiting_reads.tail⟩ rfl (fun _ => hr.tail (by simp))
    · -- the record is behind another one
      have hp : p ≠ c.addr := by
        rintro rfl
        exact hnot (by simp)
      have hfirst : (s.setNext p (s.next c.addr)).waiting_reads.first ≠ none := by
        rw [show (s.setNext p (s.next c.addr)).waiting_reads.first = _ from hr.chain.head_eq]
        simp
      simp only [List.concat_eq_append, List.getLast?_append, List.getLast?_singleton, Option.some_or]
      rw [if_neg hfirst]
      have hqueue : ∀ w, (s.setNext p (s.next c.addr)).queue w = s.queue w := fun w => by cases w <;> rfl
      have hdis : ∀ b ∈ ws, b ≠ p := by
        rintro b hb rfl
        exact hr.disjoint ht hw (by simp) hb
      rw [List.concat_eq_append, List.append_assoc, List.singleton_append] at hrest
      rw [List.concat_eq_append, List.append_assoc, List.singleton_append] at hr hnodup
      rw [List.append_assoc, List.singleton_append]
      have hchain : Chain s.next (s.next c.addr) l₂ := by
        have hall := hr.chain
        rw [← List.singleton_append, ← List.append_assoc] at hall
        exact hall.suffix
      refine ⟨onlyLinks_setNext s p _, ⟨?_, ?_, hrest⟩, hw.of_eq (hqueue _) (fun b hb => ?_) rfl⟩
      · rw [hqueue]
        refine hr.chain.splice (fun b hb => ?_) ?_
        · rw [next_setNext, if_neg]
          rintro rfl
          exact (List.nodup_append'.mp hnodup).2.2 hb List.mem_cons_self
        · rw [next_setNext, if_pos rfl]
          refine hchain.congr (fun b hb => ?_)
          rw [next_setNext, if_neg]
          rintro rfl
          have hsuffix := (List.nodup_append'.mp hnodup).2.1
          exact (List.nodup_cons.mp hsuffix).1 (List.mem_cons_of_mem _ hb)
      · rw [hqueue]
        exact fun _ => hr.tail (by simp)
      · rw [next_setNext, if_neg (hdis b hb)]
  · have hnone : s.unlinkTask task none rs = s := by
      have hskip : ∀ b ∈ rs, (s.ops b).wakeup ≠ task := fun b hb h => hmem (hwakeup b hb h ▸ hb)
      have := unlinkTask_skip (l := []) rs none hskip
      rw [List.append_nil] at this
      rw [this]
      rfl
    rw [hnone, List.erase_of_not_mem hmem]
    exact ⟨⟨rfl, fun b => ⟨_, rfl⟩⟩, hr, hw⟩

/-- A signal takes a waiting read out of its queue and wakes its task. -/
theorem handlePipeWakeup_spec (h : AtRest s rs ws) (he : Enabled s (.interrupt task))
    (hs : Spared s (.interrupt task)) :
    ∃ c ∈ s.active, c.task = task ∧ c.woken = none ∧ ∃ t, OnlyLinks s t ∧
      s.handlePipeWakeup task = some (t.wake task .signal) ∧
      AtRest (t.wake task .signal) (rs.erase c.addr) ws := by
  obtain ⟨c, hc, htask, hwait⟩ := he
  obtain ⟨hlinks, hr, hw⟩ := unlinkTask_spec h.tidy h.reads h.writes hc htask
  have hnot : c.addr ∉ ws := by
    intro hmem
    obtain ⟨d, hd, haddr, hwrite, -⟩ := h.writes.waiting _ hmem
    obtain rfl := h.tidy.eq_of_addr hd hc haddr
    exact hs d hd htask hwrite ws (h.writes.queued_eq h.tidy) hmem
  have hqueued := h.reads.queued_eq h.tidy
  have hwakeup : s.handlePipeWakeup task = (s.unlinkTask task none rs).awakenTask task .signal := by
    simp only [PipeState.handlePipeWakeup, hqueued]
    rfl
  rw [hwakeup]
  generalize s.unlinkTask task none rs = t at hlinks hr hw
  have ht := hlinks.tidy h.tidy
  have hct : c ∈ t.active := by
    rw [show t.active = s.active from (congrArg PipeState.active hlinks.rest :)]
    exact hc
  have hcount : t.count = s.count := (congrArg PipeState.count hlinks.rest :)
  have hwrite : t.write_count = s.write_count := (congrArg PipeState.write_count hlinks.rest :)
  have hne : ∀ b, b ≠ c.addr → ∀ w l, Queued t w l → b ∈ l → (t.ops b).wakeup ≠ task := by
    intro b hb w l hq hmem
    have := hq.wakeup_ne ht hmem hct rfl hb
    rw [(ht.record c hct).1, htask] at this
    exact this
  refine ⟨c, hc, htask, hwait, t, hlinks, awakenTask_eq _ hct htask hwait, ht.wake, ?_, ?_, ?_⟩
  · refine hr.wake ht (fun b hb => hne b ?_ _ _ hr hb)
    rintro rfl
    exact (List.Nodup.not_mem_erase h.reads.chain.nodup) hb
  · refine hw.wake ht (fun b hb => hne b ?_ _ _ hw hb)
    rintro rfl
    exact hnot hb
  · refine ⟨fun hne => ?_, fun hne => ?_⟩
    · have := h.settled.reads (fun h0 => hne (by rw [h0, List.erase_nil]))
      exact ⟨hcount.trans this.1, this.2.1, by rw [← hwrite] at this; exact this.2.2⟩
    · have := h.settled.writes hne
      exact ⟨by rw [← hcount] at this; exact this.1, by rw [this.2, List.erase_nil]⟩

theorem AtRest.finish (h : AtRest s rs ws) (he : Enabled s (.finish task)) :
    ∃ c ∈ s.active, c.task = task ∧ c.woken ≠ none ∧ s.finishCall task = some (returned s task c) ∧
      AtRest (returned s task c) rs ws := by
  obtain ⟨c, hc, htask, hwoken, hfin⟩ := finishCall_eq h.tidy he
  refine ⟨c, hc, htask, hwoken, hfin, h.tidy.returned _ _, ?_, ?_, h.settled.reads, h.settled.writes⟩
  · exact h.reads.returned h.tidy hc htask hwoken
  · exact h.writes.returned h.tidy hc htask hwoken

theorem AtRest.copy (h : AtRest s rs ws) (for_write : Bool) :
    AtRest (s.copyPipeSharedData for_write) rs ws where
  tidy := by
    refine ⟨h.tidy.tasks, h.tidy.addrs, h.tidy.calls, h.tidy.old, h.tidy.record, fun h0 => h.tidy.closed ?_⟩
    simp only [PipeState.copyPipeSharedData] at h0
    split_ifs at h0
    exact h0
  reads := ⟨h.reads.chain, h.reads.tail, h.reads.waiting⟩
  writes := ⟨h.writes.chain, h.writes.tail, h.writes.waiting⟩
  settled := by
    refine ⟨fun hne => ?_, h.settled.writes⟩
    obtain ⟨h0, hw, hopen⟩ := h.settled.reads hne
    refine ⟨h0, hw, ?_⟩
    simp only [PipeState.copyPipeSharedData]
    split_ifs
    · exact Nat.succ_ne_zero _
    · exact hopen

def dropped (s : PipeState) (for_write : Bool) : PipeState :=
  { s with
    ref_count := s.ref_count - 1
    write_count := if for_write then s.write_count - 1 else s.write_count }

theorem Tidy.dropped (ht : Tidy s) (he : Enabled s (.close for_write)) : Tidy (dropped s for_write) := by
  refine ⟨ht.tasks, ht.addrs, ht.calls, ht.old, ht.record, fun h0 => ?_⟩
  obtain ⟨-, -, hend⟩ := he
  cases for_write with
  | true =>
    have h0 : s.write_count - 1 = 0 := h0
    simp only [if_true] at hend
    exact hend.2 (by omega)
  | false => exact ht.closed h0

/-- Closing an end serves the queues when it was the last one for writing. -/
theorem freePipeSharedData_spec (h : AtRest s rs ws) (he : Enabled s (.close for_write)) :
    (s.freePipeSharedData for_write = some (dropped s for_write) ∧ AtRest (dropped s for_write) rs ws) ∨
    ∃ u rs' ws', s.freePipeSharedData for_write = some u ∧
      Relation.ReflTransGen Turn (dropped s for_write) u ∧ AtRest u rs' ws' := by
  have ht := h.tidy.dropped he
  have hr : Queued (dropped s for_write) false rs := ⟨h.reads.chain, h.reads.tail, h.reads.waiting⟩
  have hw : Queued (dropped s for_write) true ws := ⟨h.writes.chain, h.writes.tail, h.writes.waiting⟩
  by_cases hlast : for_write = true ∧ s.write_count - 1 = 0
  · right
    obtain ⟨u, rs', ws', hu, hturns, htu, hru, hwu, hset⟩ := doOperationOnPipe_spec ht hr hw
    refine ⟨u, rs', ws', ?_, hturns, htu, hru, hwu, hset⟩
    obtain ⟨rfl, h0⟩ := hlast
    simp only [PipeState.freePipeSharedData, if_true, h0]
    rw [← hu]
    simp only [dropped, if_true, h0]
  · left
    refine ⟨?_, ht, hr, hw, fun hne => ?_, h.settled.writes⟩
    · cases for_write with
      | true =>
        have h0 : s.write_count - 1 ≠ 0 := fun h0 => hlast ⟨rfl, h0⟩
        simp [PipeState.freePipeSharedData, dropped, h0]
      | false => rfl
    · obtain ⟨hcount, hws, hopen⟩ := h.settled.reads hne
      refine ⟨hcount, hws, ?_⟩
      cases for_write with
      | true => exact fun h0 => hlast ⟨rfl, h0⟩
      | false => exact hopen

theorem pipeStep_atRest {act : PipeAction} (h : AtRest s rs ws) (he : Enabled s act) (hs : Spared s act) :
    ∃ t rs' ws', pipeStep s act = some t ∧ AtRest t rs' ws' := by
  cases act with
  | call task a request block =>
    rcases executePipeOperation_spec h he hs with ⟨ret, hret, -⟩ | ⟨t, u, rs', ws', -, -, -, -, -, hu, hrest⟩
    · exact ⟨_, rs, ws, hret, h.answer request ret⟩
    · exact ⟨u, rs', ws', hu, hrest⟩
  | finish task =>
    obtain ⟨c, -, -, -, hfin, hrest⟩ := h.finish he
    exact ⟨_, rs, ws, hfin, hrest⟩
  | interrupt task =>
    obtain ⟨c, -, -, -, t, -, ht, hrest⟩ := handlePipeWakeup_spec h he hs
    exact ⟨_, _, ws, ht, hrest⟩
  | copy for_write => exact ⟨_, rs, ws, rfl, h.copy for_write⟩
  | close for_write =>
    rcases freePipeSharedData_spec h he with ⟨hfree, hrest⟩ | ⟨u, rs', ws', hu, -, hrest⟩
    · exact ⟨_, rs, ws, hfree, hrest⟩
    · exact ⟨u, rs', ws', hu, hrest⟩

theorem created_atRest (for_write : Bool) (buffer : ByteStore.Store) (ops : ℕ → WaitingPipeOperation) :
    AtRest (PipeState.createPipeSharedData for_write buffer ops) [] [] where
  tidy := ⟨List.nodup_nil, List.nodup_nil, List.nodup_nil, by simp [PipeState.createPipeSharedData],
    by simp [PipeState.createPipeSharedData], by simp [PipeState.createPipeSharedData]⟩
  reads := ⟨rfl, fun h => absurd rfl h, by simp⟩
  writes := ⟨rfl, fun h => absurd rfl h, by simp⟩
  settled := ⟨fun h => absurd rfl h, fun h => absurd rfl h⟩

end Finish

end SomeOs.Pipe
