import SomeOs.Pipe.Types

/-! # Serving the queues of a pipe

The records in a queue are those of waiting calls in its direction. A turn of the
service loop serves the first record of one queue and keeps this, and does some of
the work that is left, unless a reader waits on a closed pipe with writers in the queue.
-/
namespace SomeOs.Pipe
open LinkedList

/-- Calls that have not returned have different tasks and records. -/
structure Tidy (s : PipeState) : Prop where
  tasks : (s.active.map ActiveCall.task).Nodup
  addrs : (s.active.map ActiveCall.addr).Nodup
  calls : (s.active.map ActiveCall.call).Nodup
  old : ∀ c ∈ s.active, c.call < s.requests.length
  record : ∀ c ∈ s.active, (s.ops c.addr).wakeup = c.task ∧ (s.ops c.addr).call = c.call
  closed : s.write_count = 0 → ∀ c ∈ s.active, c.write = false

structure Queued (s : PipeState) (write : Bool) (l : List ℕ) : Prop where
  chain : Chain s.next (s.queue write).first l
  tail : l ≠ [] → (s.queue write).tail ≠ none
  waiting : ∀ a ∈ l, ∃ c ∈ s.active, c.addr = a ∧ c.write = write ∧ c.woken = none

section Wake
variable {s : PipeState} {task : ℕ} {why : Wake} {c : ActiveCall} {l : List ℕ} {write : Bool}

theorem Tidy.eq_of_addr (ht : Tidy s) {c d : ActiveCall} (hc : c ∈ s.active) (hd : d ∈ s.active)
    (h : c.addr = d.addr) : c = d := List.inj_on_of_nodup_map ht.addrs hc hd h

theorem Tidy.eq_of_task (ht : Tidy s) {c d : ActiveCall} (hc : c ∈ s.active) (hd : d ∈ s.active)
    (h : c.task = d.task) : c = d := List.inj_on_of_nodup_map ht.tasks hc hd h

theorem wake_map {β : Type*} (s : PipeState) (task : ℕ) (why : Wake) (f : ActiveCall → β)
    (hf : ∀ c w, f { c with woken := w } = f c) : (s.wake task why).active.map f = s.active.map f := by
  simp only [PipeState.wake, List.map_map]
  apply List.map_congr_left
  intro c _
  simp only [Function.comp]
  split_ifs
  · exact hf c _
  · rfl

theorem mem_wake : c ∈ (s.wake task why).active ↔
    ∃ d ∈ s.active, c = if d.task = task then { d with woken := some why } else d := by
  simp only [PipeState.wake, List.mem_map]
  exact exists_congr fun d => and_congr_right fun _ => eq_comm

theorem of_mem_wake (h : c ∈ (s.wake task why).active) :
    ∃ d ∈ s.active, c.addr = d.addr ∧ c.task = d.task ∧ c.call = d.call ∧ c.write = d.write := by
  obtain ⟨d, hd, rfl⟩ := mem_wake.mp h
  refine ⟨d, hd, ?_⟩
  split_ifs <;> exact ⟨rfl, rfl, rfl, rfl⟩

theorem Tidy.wake (ht : Tidy s) : Tidy (s.wake task why) where
  tasks := by
    rw [wake_map _ _ _ _ (fun _ _ => rfl)]
    exact ht.tasks
  addrs := by
    rw [wake_map _ _ _ _ (fun _ _ => rfl)]
    exact ht.addrs
  calls := by
    rw [wake_map _ _ _ _ (fun _ _ => rfl)]
    exact ht.calls
  old := by
    intro c hc
    obtain ⟨d, hd, -, -, hcall, -⟩ := of_mem_wake hc
    rw [hcall]
    exact ht.old d hd
  record := by
    intro c hc
    obtain ⟨d, hd, haddr, htask, hcall, -⟩ := of_mem_wake hc
    rw [haddr, htask, hcall]
    exact ht.record d hd
  closed := by
    intro h c hc
    obtain ⟨d, hd, -, -, -, hwrite⟩ := of_mem_wake hc
    rw [hwrite]
    exact ht.closed h d hd

theorem Queued.wake (ht : Tidy s) (hq : Queued s write l) (htask : ∀ a ∈ l, (s.ops a).wakeup ≠ task) :
    Queued (s.wake task why) write l where
  chain := hq.chain
  tail := hq.tail
  waiting := by
    intro a ha
    obtain ⟨c, hc, rfl, hwrite, hwoken⟩ := hq.waiting a ha
    have hne : c.task ≠ task := (ht.record c hc).1 ▸ htask c.addr ha
    exact ⟨c, mem_wake.mpr ⟨c, hc, by rw [if_neg hne]⟩, rfl, hwrite, hwoken⟩

variable (why) in
theorem awakenTask_eq (hc : c ∈ s.active) (htask : c.task = task) (hwait : c.woken = none) :
    s.awakenTask task why = some (s.wake task why) := by
  unfold PipeState.awakenTask
  rw [if_pos]
  rw [List.any_eq_true]
  exact ⟨c, hc, by simp [htask, hwait]⟩

end Wake

section Queues
variable {s t : PipeState} {a : ℕ} {l l' : List ℕ} {write : Bool} {why : Wake}

@[simp] theorem queue_setQueue (s : PipeState) (write : Bool) (q : WaitQueue) :
    (s.setQueue write q).queue write = q := by
  cases write <;> rfl

@[simp] theorem queue_setQueue_not (s : PipeState) (write : Bool) (q : WaitQueue) :
    (s.setQueue write q).queue (!write) = s.queue (!write) := by
  cases write <;> rfl

theorem setQueue_fields (s : PipeState) (write : Bool) (q : WaitQueue) :
    (s.setQueue write q).ops = s.ops ∧ (s.setQueue write q).active = s.active ∧
      (s.setQueue write q).requests = s.requests ∧ (s.setQueue write q).write_count = s.write_count := by
  cases write <;> exact ⟨rfl, rfl, rfl, rfl⟩

theorem Tidy.setQueue (ht : Tidy s) (write : Bool) (q : WaitQueue) : Tidy (s.setQueue write q) := by
  obtain ⟨hops, hactive, hreq, hcount⟩ := setQueue_fields s write q
  constructor
  · rw [hactive]
    exact ht.tasks
  · rw [hactive]
    exact ht.addrs
  · rw [hactive]
    exact ht.calls
  · rw [hactive, hreq]
    exact ht.old
  · rw [hactive, hops]
    exact ht.record
  · rw [hactive, hcount]
    exact ht.closed

theorem Queued.of_eq (hq : Queued s write l) (hqueue : t.queue write = s.queue write)
    (hnext : ∀ a ∈ l, t.next a = s.next a) (hactive : t.active = s.active) : Queued t write l where
  chain := by
    rw [hqueue]
    exact hq.chain.congr hnext
  tail := by
    rw [hqueue]
    exact hq.tail
  waiting := by
    rw [hactive]
    exact hq.waiting

theorem Queued.disjoint (ht : Tidy s) (hq : Queued s write l) (hq' : Queued s (!write) l') :
    List.Disjoint l l' := by
  intro a ha ha'
  obtain ⟨c, hc, hca, hcw, -⟩ := hq.waiting a ha
  obtain ⟨d, hd, hda, hdw, -⟩ := hq'.waiting a ha'
  obtain rfl := ht.eq_of_addr hc hd (hca.trans hda.symm)
  rw [hcw] at hdw
  simp at hdw

theorem Queued.wakeup_ne (ht : Tidy s) (hq : Queued s write l) {b : ℕ} (ha : a ∈ l) {c : ActiveCall}
    (hc : c ∈ s.active) (hb : c.addr = b) (hne : a ≠ b) : (s.ops a).wakeup ≠ (s.ops b).wakeup := by
  obtain ⟨d, hd, rfl, -, -⟩ := hq.waiting a ha
  subst hb
  rw [(ht.record d hd).1, (ht.record c hc).1]
  intro h
  exact hne (by rw [ht.eq_of_task hd hc h])

theorem Queued.length_le (ht : Tidy s) (hq : Queued s write l) : l.length ≤ s.requests.length := by
  have hsub : l ⊆ s.active.map ActiveCall.addr := by
    intro a ha
    obtain ⟨c, hc, rfl, -⟩ := hq.waiting a ha
    exact List.mem_map_of_mem hc
  have h1 := (hq.chain.nodup.subperm hsub).length_le
  have hsub' : s.active.map ActiveCall.call ⊆ List.range s.requests.length := by
    intro n hn
    obtain ⟨c, hc, rfl⟩ := List.mem_map.mp hn
    exact List.mem_range.mpr (ht.old c hc)
  have h2 := (ht.calls.subperm hsub').length_le
  simp only [List.length_map, List.length_range] at h1 h2
  omega

theorem Queued.queued_eq (ht : Tidy s) (hq : Queued s write l) : s.queued write = some l :=
  hq.chain.walk (hq.length_le ht)

theorem behind_first (s : PipeState) (write : Bool) (a : ℕ) : (s.behind write a).first = s.next a := by
  unfold PipeState.behind
  split_ifs with h
  · exact h.symm
  · rfl

def popped (s : PipeState) (write : Bool) (a : ℕ) (why : Wake) : PipeState :=
  (s.setQueue write (s.behind write a)).wake (s.ops a).wakeup why

/-- Taking the first record out of a queue. -/
theorem popWaiting_spec (why : Wake) (ht : Tidy s) (hq : Queued s write (a :: l)) (hq' : Queued s (!write) l') :
    s.popWaiting write a why = some (popped s write a why) ∧ Tidy (popped s write a why) ∧
      Queued (popped s write a why) write l ∧ Queued (popped s write a why) (!write) l' := by
  obtain ⟨c, hc, haddr, hwrite, hwoken⟩ := hq.waiting a List.mem_cons_self
  have hnodup := List.nodup_cons.mp hq.chain.nodup
  have hfirst := behind_first s write a
  have htail : l ≠ [] → (s.behind write a).tail ≠ none := by
    intro hne
    unfold PipeState.behind
    rw [if_neg]
    · exact hq.tail (List.cons_ne_nil _ _)
    · rw [hq.chain.2.head_eq]
      simpa using hne
  unfold popped PipeState.popWaiting
  generalize s.behind write a = q at hfirst htail
  obtain ⟨hops, hactive, -, -⟩ := setQueue_fields s write q
  have ht' := ht.setQueue write q
  refine ⟨?_, ht'.wake, Queued.wake ht' ?_ ?_, Queued.wake ht' ?_ ?_⟩
  · apply awakenTask_eq why (c := c)
    · rw [hactive]
      exact hc
    · rw [← haddr]
      exact (ht.record c hc).1.symm
    · exact hwoken
  · refine ⟨?_, ?_, fun b hb => ?_⟩
    · rw [queue_setQueue, hfirst]
      refine hq.chain.2.congr (fun b _ => ?_)
      simp only [PipeState.next, hops]
    · rw [queue_setQueue]
      exact htail
    · rw [hactive]
      exact hq.waiting b (List.mem_cons_of_mem _ hb)
  · intro b hb
    rw [hops]
    exact hq.wakeup_ne ht (List.mem_cons_of_mem _ hb) hc haddr (fun h => hnodup.1 (h ▸ hb))
  · refine hq'.of_eq (queue_setQueue_not s write q) (fun b _ => ?_) hactive
    simp only [PipeState.next, hops]
  · intro b hb
    rw [hops]
    refine hq'.wakeup_ne ht hb hc haddr ?_
    rintro rfl
    exact hq.disjoint ht hq' List.mem_cons_self hb

end Queues

/-- Nothing changed in the queues and calls. -/
structure SameControl (s t : PipeState) : Prop where
  active : t.active = s.active
  requests : t.requests = s.requests
  write_count : t.write_count = s.write_count
  queue : ∀ write, t.queue write = s.queue write
  next : ∀ b, t.next b = s.next b
  record : ∀ b, (t.ops b).wakeup = (s.ops b).wakeup ∧ (t.ops b).call = (s.ops b).call

section Transfer
variable {s t : PipeState} {a : ℕ} {l rs ws : List ℕ} {write : Bool}

theorem SameControl.tidy (h : SameControl s t) (ht : Tidy s) : Tidy t := by
  constructor
  · rw [h.active]
    exact ht.tasks
  · rw [h.active]
    exact ht.addrs
  · rw [h.active]
    exact ht.calls
  · rw [h.active, h.requests]
    exact ht.old
  · rw [h.active]
    intro c hc
    rw [(h.record _).1, (h.record _).2]
    exact ht.record c hc
  · rw [h.active, h.write_count]
    exact ht.closed

theorem SameControl.queued (h : SameControl s t) (hq : Queued s write l) : Queued t write l :=
  hq.of_eq (h.queue write) (fun b _ => h.next b) h.active

theorem sameControl_update {op : WaitingPipeOperation} (hops : t.ops = Function.update s.ops a op)
    (hnext : op.next = (s.ops a).next) (hwakeup : op.wakeup = (s.ops a).wakeup)
    (hcall : op.call = (s.ops a).call) (hactive : t.active = s.active)
    (hrequests : t.requests = s.requests) (hwrite_count : t.write_count = s.write_count)
    (hqueue : ∀ write, t.queue write = s.queue write) : SameControl s t := by
  refine ⟨hactive, hrequests, hwrite_count, hqueue, fun b => ?_, fun b => ?_⟩
  · unfold PipeState.next
    by_cases hb : b = a
    · rw [hops, hb, Function.update_self, hnext]
    · rw [hops, Function.update_of_ne hb]
  · by_cases hb : b = a
    · rw [hops, hb, Function.update_self]
      exact ⟨hwakeup, hcall⟩
    · rw [hops, Function.update_of_ne hb]
      exact ⟨rfl, rfl⟩

theorem sameControl_transferRead (s : PipeState) (a : ℕ) : SameControl s (s.transferRead a) :=
  sameControl_update rfl rfl rfl rfl rfl rfl rfl (fun write => by cases write <;> rfl)

theorem sameControl_transferWrite (s : PipeState) (a : ℕ) : SameControl s (s.transferWrite a) :=
  sameControl_update rfl rfl rfl rfl rfl rfl rfl (fun write => by cases write <;> rfl)

theorem transferRead_size : ((s.transferRead a).ops a).size = (s.ops a).size - min s.count (s.ops a).size := by
  simp [PipeState.transferRead]

theorem transferWrite_size :
    ((s.transferWrite a).ops a).size = (s.ops a).size - min (capacity - s.count) (s.ops a).size := by
  simp [PipeState.transferWrite]

end Transfer

def readWake (s : PipeState) (a : ℕ) : Wake :=
  if s.count = 0 ∧ (s.ops a).size ≠ 0 then .ended else .served

/-- What a turn of the service loop does, given the queues before it. -/
inductive Turn (s : PipeState) : PipeState → Prop
  | readMore {a : ℕ} {rs ws : List ℕ} (ht : Tidy s) (hr : Queued s false (a :: rs)) (hw : Queued s true ws)
      (hsize : ((s.transferRead a).ops a).size ≠ 0) (hopen : ws ≠ []) : Turn s (s.transferRead a)
  | readEnd {a : ℕ} {rs ws : List ℕ} (ht : Tidy s) (hr : Queued s false (a :: rs)) (hw : Queued s true ws)
      (hgo : s.count ≠ 0 ∨ s.write_count = 0) : Turn s (popped (s.transferRead a) false a (readWake s a))
  | writeMore {a : ℕ} {rs ws : List ℕ} (ht : Tidy s) (hr : Queued s false rs) (hw : Queued s true (a :: ws))
      (hsize : ((s.transferWrite a).ops a).size ≠ 0) (hroom : s.count < capacity) : Turn s (s.transferWrite a)
  | writeEnd {a : ℕ} {rs ws : List ℕ} (ht : Tidy s) (hr : Queued s false rs) (hw : Queued s true (a :: ws))
      (hsize : ((s.transferWrite a).ops a).size = 0) (hroom : s.count < capacity) :
      Turn s (popped (s.transferWrite a) true a .served)

structure Settled (s : PipeState) (rs ws : List ℕ) : Prop where
  reads : rs ≠ [] → s.count = 0 ∧ ws = [] ∧ s.write_count ≠ 0
  writes : ws ≠ [] → capacity ≤ s.count ∧ rs = []

section Loop
variable {s t : PipeState} {a : ℕ} {l rs ws : List ℕ} {write : Bool}

theorem work_congr (h : ∀ b ∈ l, (t.ops b).size = (s.ops b).size) : t.work l = s.work l := by
  unfold PipeState.work
  congr 1
  apply List.map_congr_left
  intro b hb
  rw [h b hb]

@[simp] theorem work_cons (s : PipeState) (a : ℕ) (l : List ℕ) :
    s.work (a :: l) = (s.ops a).size + 1 + s.work l := by
  simp [PipeState.work]

theorem work_update {op : WaitingPipeOperation} (hops : t.ops = Function.update s.ops a op) (ha : a ∉ l) :
    t.work l = s.work l := by
  apply work_congr
  intro b hb
  have hne : b ≠ a := fun h => ha (h ▸ hb)
  rw [hops, Function.update_of_ne hne]

/-- A turn for the first reader. -/
theorem serveRead_spec (ht : Tidy s) (hr : Queued s false (a :: rs)) (hw : Queued s true ws)
    (hgo : s.count ≠ 0 ∨ s.write_count = 0) (hclosed : s.write_count = 0 → ws = []) :
    ∃ s' rs', s.serveRead a = some s' ∧ Turn s s' ∧ Tidy s' ∧ Queued s' false rs' ∧ Queued s' true ws ∧
      s'.work rs' + s'.work ws < s.work (a :: rs) + s.work ws := by
  have hsame := sameControl_transferRead s a
  have ht' := hsame.tidy ht
  have hr' := hsame.queued hr
  have hw' := hsame.queued hw
  have hnot : a ∉ rs := (List.nodup_cons.mp hr.chain.nodup).1
  have hnot' : a ∉ ws := fun h => hr.disjoint ht hw List.mem_cons_self h
  have hrs : (s.transferRead a).work rs = s.work rs := work_update rfl hnot
  have hws : (s.transferRead a).work ws = s.work ws := work_update rfl hnot'
  have hwrites : (s.transferRead a).waiting_writes.first = ws.head? := hw'.chain.head_eq
  simp only [PipeState.serveRead]
  by_cases hend : ((s.transferRead a).ops a).size = 0 ∨ (s.transferRead a).waiting_writes.first = none
  · rw [if_pos hend]
    obtain ⟨hpop, htq, hrq, hwq⟩ := popWaiting_spec (readWake s a) ht' hr' hw'
    refine ⟨_, rs, hpop, .readEnd ht hr hw hgo, htq, hrq, hwq, ?_⟩
    have h1 : (popped (s.transferRead a) false a (readWake s a)).work rs = s.work rs := hrs
    have h2 : (popped (s.transferRead a) false a (readWake s a)).work ws = s.work ws := hws
    rw [h1, h2, work_cons]
    omega
  · rw [if_neg hend]
    push Not at hend
    have hne : ws ≠ [] := by
      rintro rfl
      exact hend.2 hwrites
    have hcount : s.count ≠ 0 := hgo.resolve_right (fun h0 => hne (hclosed h0))
    refine ⟨_, a :: rs, rfl, .readMore ht hr hw hend.1 hne, ht', hr', hw', ?_⟩
    have hsize := hend.1
    rw [transferRead_size] at hsize
    rw [work_cons, work_cons, hrs, hws, transferRead_size]
    omega

/-- A turn for the first writer. -/
theorem serveWrite_spec (ht : Tidy s) (hr : Queued s false rs) (hw : Queued s true (a :: ws))
    (hcount : s.count < capacity) :
    ∃ s' ws', s.serveWrite a = some s' ∧ Turn s s' ∧ Tidy s' ∧ Queued s' false rs ∧ Queued s' true ws' ∧
      s'.work rs + s'.work ws' < s.work rs + s.work (a :: ws) := by
  have hsame := sameControl_transferWrite s a
  have ht' := hsame.tidy ht
  have hr' := hsame.queued hr
  have hw' := hsame.queued hw
  have hnot : a ∉ ws := (List.nodup_cons.mp hw.chain.nodup).1
  have hnot' : a ∉ rs := fun h => hw.disjoint ht hr List.mem_cons_self h
  have hws : (s.transferWrite a).work ws = s.work ws := work_update rfl hnot
  have hrs : (s.transferWrite a).work rs = s.work rs := work_update rfl hnot'
  simp only [PipeState.serveWrite]
  by_cases hend : ((s.transferWrite a).ops a).size = 0
  · rw [if_pos hend]
    obtain ⟨hpop, htq, hwq, hrq⟩ := popWaiting_spec .served ht' hw' hr'
    refine ⟨_, ws, hpop, .writeEnd ht hr hw hend hcount, htq, hrq, hwq, ?_⟩
    have h1 : (popped (s.transferWrite a) true a .served).work rs = s.work rs := hrs
    have h2 : (popped (s.transferWrite a) true a .served).work ws = s.work ws := hws
    rw [h1, h2, work_cons]
    omega
  · rw [if_neg hend]
    refine ⟨_, a :: ws, rfl, .writeMore ht hr hw hend hcount, ht', hr', hw', ?_⟩
    rw [transferWrite_size] at hend
    rw [work_cons, work_cons, hrs, hws, transferWrite_size]
    omega

/-- The loop ends when it may make as many turns as there is work left. -/
theorem serviceLoop_spec {n : ℕ} (ht : Tidy s) (hr : Queued s false rs) (hw : Queued s true ws)
    (hn : s.work rs + s.work ws < n) :
    ∃ s' rs' ws', PipeState.serviceLoop n s = some s' ∧ Relation.ReflTransGen Turn s s' ∧ Tidy s' ∧
      Queued s' false rs' ∧ Queued s' true ws' ∧ Settled s' rs' ws' := by
  induction n generalizing s rs ws with
  | zero => omega
  | succ n ih =>
    have hreads : s.waiting_reads.first = rs.head? := hr.chain.head_eq
    have hwrites : s.waiting_writes.first = ws.head? := hw.chain.head_eq
    have hclosed : s.write_count = 0 → ws = [] := by
      intro h0
      by_contra hne
      obtain ⟨b, ws', rfl⟩ := List.exists_cons_of_ne_nil hne
      obtain ⟨c, hc, -, hwrite, -⟩ := hw.waiting b List.mem_cons_self
      rw [ht.closed h0 c hc] at hwrite
      cases hwrite
    simp only [PipeState.serviceLoop, PipeState.readTurn, PipeState.writeTurn, hreads, hwrites]
    by_cases hgo : rs ≠ [] ∧ (s.count ≠ 0 ∨ s.write_count = 0)
    · obtain ⟨a, rs, rfl⟩ := List.exists_cons_of_ne_nil hgo.1
      obtain ⟨s', rs', hs', hturn, ht', hr', hw', hwork⟩ :=
        serveRead_spec ht hr hw hgo.2 hclosed
      rw [if_pos hgo.2]
      simp only [List.head?_cons, hs', Option.bind_some]
      obtain ⟨u, rs', ws', hu, hturns, hrest⟩ := ih ht' hr' hw' (by omega)
      exact ⟨u, rs', ws', hu, .head hturn hturns, hrest⟩
    · have hno : (if s.count ≠ 0 ∨ s.write_count = 0 then rs.head? else none) = none := by
        split_ifs with h
        · cases rs with
          | nil => rfl
          | cons a rs => exact absurd ⟨List.cons_ne_nil _ _, h⟩ hgo
        · rfl
      rw [hno]
      by_cases hgo' : ws ≠ [] ∧ s.count < capacity
      · obtain ⟨a, ws, rfl⟩ := List.exists_cons_of_ne_nil hgo'.1
        obtain ⟨s', ws', hs', hturn, ht', hr', hw', hwork⟩ := serveWrite_spec ht hr hw hgo'.2
        rw [if_pos hgo'.2]
        simp only [List.head?_cons, hs', Option.bind_some]
        obtain ⟨u, rs', ws', hu, hturns, hrest⟩ := ih ht' hr' hw' (by omega)
        exact ⟨u, rs', ws', hu, .head hturn hturns, hrest⟩
      · have hno' : (if s.count < capacity then ws.head? else none) = none := by
          split_ifs with h
          · cases ws with
            | nil => rfl
            | cons a ws => exact absurd ⟨List.cons_ne_nil _ _, h⟩ hgo'
          · rfl
        rw [hno']
        refine ⟨s, rs, ws, rfl, .refl, ht, hr, hw, fun hne => ?_, fun hne => ?_⟩
        · have h0 : s.count = 0 ∧ s.write_count ≠ 0 := by
            by_contra h
            exact hgo ⟨hne, by omega⟩
          refine ⟨h0.1, ?_, h0.2⟩
          by_contra h
          exact hgo' ⟨h, by rw [h0.1]; decide⟩
        · have hfull : capacity ≤ s.count := by
            by_contra h
            exact hgo' ⟨hne, by omega⟩
          refine ⟨hfull, ?_⟩
          by_contra h
          exact hgo ⟨h, Or.inl (by simp only [capacity] at hfull; omega)⟩

theorem doOperationOnPipe_spec (ht : Tidy s) (hr : Queued s false rs) (hw : Queued s true ws) :
    ∃ s' rs' ws', s.doOperationOnPipe = some s' ∧ Relation.ReflTransGen Turn s s' ∧ Tidy s' ∧
      Queued s' false rs' ∧ Queued s' true ws' ∧ Settled s' rs' ws' := by
  obtain ⟨s', rs', ws', hs', hrest⟩ := serviceLoop_spec ht hr hw (Nat.lt_succ_self _)
  refine ⟨s', rs', ws', ?_, hrest⟩
  simp only [PipeState.doOperationOnPipe, hr.queued_eq ht, hw.queued_eq ht]
  exact hs'

end Loop

end SomeOs.Pipe
