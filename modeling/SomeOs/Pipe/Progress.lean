import SomeOs.Pipe.Stream

/-! # The service loop ends

Without signals that end queued writes the service loop always ends, with nothing left
to serve. A write that was ended by a signal stays in the queue when its end of the
pipe is closed, and then a reader that wants more than the ring has is served forever.
-/
namespace SomeOs.Pipe
open LinkedList Transition

/-- A step that can be taken, that does not end a queued write by a signal and that does not put
a call behind one that has returned. -/
def Orderly (s : PipeState) (act : PipeAction) : Prop := Enabled s act ∧ Spared s act

structure ServiceDone (s : PipeState) : Prop where
  reads : s.waiting_reads.first ≠ none →
    s.count = 0 ∧ s.waiting_writes.first = none ∧ s.write_count ≠ 0
  writes : s.waiting_writes.first ≠ none → s.count = capacity ∧ s.waiting_reads.first = none

section Bound
variable {s t : PipeState} {rs ws : List ℕ} {act : PipeAction}

theorem Turn.count_le (hturn : Turn s t) (h : s.count ≤ capacity) : t.count ≤ capacity := by
  cases hturn with
  | readMore ht hr hw hsize hopen => exact (Nat.sub_le _ _).trans h
  | readEnd ht hr hw hgo => exact (Nat.sub_le _ _).trans h
  | @writeMore a rs ws ht hr hw hsize hroom =>
    show s.count + min (capacity - s.count) (s.ops a).size ≤ capacity
    omega
  | @writeEnd a rs ws ht hr hw hsize hroom =>
    show s.count + min (capacity - s.count) (s.ops a).size ≤ capacity
    omega

theorem turns_count_le (hturns : Relation.ReflTransGen Turn s t) (h : s.count ≤ capacity) :
    t.count ≤ capacity := by
  induction hturns with
  | refl => exact h
  | tail _ hturn ih => exact hturn.count_le ih

theorem pipeStep_count_le (h : AtRest s rs ws) (hok : Orderly s act) (hcount : s.count ≤ capacity)
    (hstep : pipeStep s act = some t) : t.count ≤ capacity := by
  obtain ⟨he, hs⟩ := hok
  cases act with
  | call task a request block =>
    rcases executePipeOperation_spec h he hs with ⟨ret, hret, -⟩ | ⟨w, u, rs', ws', -, -, hlinks, -, hturns, hu, -⟩
    · obtain rfl := Option.some.inj (hret.symm.trans hstep)
      exact hcount
    · obtain rfl := Option.some.inj (hu.symm.trans hstep)
      refine turns_count_le hturns ?_
      rw [show w.count = s.count from (congrArg PipeState.count hlinks.rest :)]
      exact hcount
  | finish task =>
    obtain ⟨c, -, -, -, hfin, -⟩ := h.finish he
    obtain rfl := Option.some.inj (hfin.symm.trans hstep)
    exact hcount
  | interrupt task =>
    obtain ⟨c, -, -, -, w, hlinks, hw, -⟩ := handlePipeWakeup_spec h he hs
    obtain rfl := Option.some.inj (hw.symm.trans hstep)
    rw [show (w.wake task .signal).count = s.count from (congrArg PipeState.count hlinks.rest :)]
    exact hcount
  | copy for_write =>
    cases hstep
    exact hcount
  | close for_write =>
    rcases freePipeSharedData_spec h he with ⟨hfree, -⟩ | ⟨u, rs', ws', hu, hturns, -⟩
    · obtain rfl := Option.some.inj (hfree.symm.trans hstep)
      exact hcount
    · obtain rfl := Option.some.inj (hu.symm.trans hstep)
      exact turns_count_le hturns hcount

theorem AtRest.serviceDone (h : AtRest s rs ws) (hcount : s.count ≤ capacity) : ServiceDone s := by
  have hreads : s.waiting_reads.first = rs.head? := h.reads.chain.head_eq
  have hwrites : s.waiting_writes.first = ws.head? := h.writes.chain.head_eq
  constructor
  · rw [hreads, hwrites]
    intro hne
    obtain ⟨h0, rfl, hopen⟩ := h.settled.reads (by simpa using hne)
    exact ⟨h0, rfl, hopen⟩
  · rw [hreads, hwrites]
    intro hne
    obtain ⟨hfull, rfl⟩ := h.settled.writes (by simpa using hne)
    exact ⟨le_antisymm hcount hfull, rfl⟩

/-- In every state of a run without signals to queued writes, the service loop ends, alone
and as a part of every further step. -/
theorem runs_service_ends {for_write : Bool} {buffer : ByteStore.Store} {ops : ℕ → WaitingPipeOperation}
    {acts : List PipeAction}
    (hr : Runs pipeStep Orderly (PipeState.createPipeSharedData for_write buffer ops) acts t) :
    (∃ u, t.doOperationOnPipe = some u ∧ ServiceDone u) ∧ ServiceDone t ∧
      ∀ act, Orderly t act → ∃ u, pipeStep t act = some u ∧ ServiceDone u := by
  have hinv : (∃ rs ws, AtRest t rs ws) ∧ t.count ≤ capacity := by
    refine hr.invariant (I := fun s => (∃ rs ws, AtRest s rs ws) ∧ s.count ≤ capacity) ?_
      ⟨⟨[], [], created_atRest _ _ _⟩, Nat.zero_le _⟩
    rintro s act t ⟨⟨rs, ws, hrest⟩, hcount⟩ hok hstep
    obtain ⟨u, rs', ws', hu, hrest'⟩ := pipeStep_atRest hrest hok.1 hok.2
    obtain rfl := Option.some.inj (hu.symm.trans hstep)
    exact ⟨⟨rs', ws', hrest'⟩, pipeStep_count_le hrest hok hcount hstep⟩
  obtain ⟨⟨rs, ws, hrest⟩, hcount⟩ := hinv
  refine ⟨?_, hrest.serviceDone hcount, fun act hok => ?_⟩
  · obtain ⟨u, rs', ws', hu, hturns, htidy, hru, hwu, hset⟩ :=
      doOperationOnPipe_spec hrest.tidy hrest.reads hrest.writes
    have hdone : AtRest u rs' ws' := ⟨htidy, hru, hwu, hset⟩
    exact ⟨u, hu, hdone.serviceDone (turns_count_le hturns hcount)⟩
  · obtain ⟨u, rs', ws', hu, hrest'⟩ := pipeStep_atRest hrest hok.1 hok.2
    exact ⟨u, hu, hrest'.serviceDone (pipeStep_count_le hrest hok hcount hu)⟩

end Bound

section Stuck
variable {s : PipeState} {a b : ℕ}

/-- A reader that waits on a closed and empty pipe with a write in the queue. -/
structure Stuck (s : PipeState) (a b : ℕ) : Prop where
  reads : s.waiting_reads.first = some a
  writes : s.waiting_writes.first = some b
  size : (s.ops a).size ≠ 0
  count : s.count = 0
  closed : s.write_count = 0
  pos : s.read_pos < capacity

theorem Stuck.serveRead (h : Stuck s a b) : s.serveRead a = some s := by
  have hbytes : Ring.readWrapped s.buffer capacity s.read_pos 0 = [] :=
    List.eq_nil_of_length_eq_zero (readWrapped_length _ _ _ _)
  have hsame : s.transferRead a = s := by
    unfold PipeState.transferRead
    simp only [h.count, Nat.zero_min, hbytes, List.append_nil, Nat.sub_zero, Nat.add_zero,
      Function.update_eq_self, List.map_nil, Nat.mod_eq_of_lt h.pos]
    rw [← h.count]
  unfold PipeState.serveRead
  rw [hsame]
  simp [h.size, h.writes]

theorem Stuck.serviceLoop (h : Stuck s a b) (n : ℕ) : PipeState.serviceLoop n s = none := by
  induction n with
  | zero => rfl
  | succ n ih =>
    simp only [PipeState.serviceLoop, PipeState.readTurn, h.closed, or_true, if_true, h.reads, h.serveRead,
      Option.bind_some]
    exact ih

theorem serviceLoop_starved (hreads : s.waiting_reads.first = some a) (hwrites : s.waiting_writes.first = some b)
    (hmore : s.count < (s.ops a).size) (hclosed : s.write_count = 0) (n : ℕ) :
    PipeState.serviceLoop n s = none := by
  cases n with
  | zero => rfl
  | succ n =>
    have hsize : ((s.transferRead a).ops a).size ≠ 0 := by
      rw [transferRead_size]
      omega
    have hstuck : Stuck (s.transferRead a) a b := by
      refine ⟨hreads, hwrites, hsize, ?_, hclosed, Nat.mod_lt _ (by decide)⟩
      simp only [PipeState.transferRead]
      omega
    have hserve : s.serveRead a = some (s.transferRead a) := by
      unfold PipeState.serveRead
      simp [hsize, hstuck.writes]
    simp only [PipeState.serviceLoop, PipeState.readTurn, hclosed, or_true, if_true, hreads, hserve,
      Option.bind_some]
    exact hstuck.serviceLoop n

end Stuck

/-- A write of one byte more than the ring holds is ended by a signal, and its end of the
pipe is closed. -/
def interruptedWrite : List PipeAction :=
  [.copy false, .call 1 1 (.write (List.replicate 513 7)) true, .interrupt 1, .finish 1, .close true]

/-- In a state where a reader and a writer have come and gone the loop ends. -/
theorem runs_service_ends_two_bytes :
    ∃ t, execOk pipeStep Undisturbed newPipe [.copy false, .call 1 1 (.write [104, 105]) true,
      .call 2 2 (.read 10) true, .finish 1, .finish 2] = some t ∧ ServiceDone t := by
  have hsome : (execOk pipeStep Undisturbed newPipe [.copy false, .call 1 1 (.write [104, 105]) true,
      .call 2 2 (.read 10) true, .finish 1, .finish 2]).isSome := by
    decide
  obtain ⟨t, ht⟩ := Option.isSome_iff_exists.mp hsome
  have hr : Runs pipeStep Orderly newPipe _ t :=
    (Runs.of_execOk ht).mono fun s act hok => hok.orderly
  exact ⟨t, ht, (runs_service_ends hr).2.1⟩

/-- The next reader that asks for more is served forever. -/
theorem service_does_not_end :
    ∃ t, execOk pipeStep Enabled newPipe interruptedWrite = some t ∧
      Enabled t (.call 2 2 (.read 1024) true) ∧
      ∃ u, (t.startWaiting 2 2 (.read 1024)).enqueue false 2 = some u ∧
        (∀ n, PipeState.serviceLoop n u = none) ∧ pipeStep t (.call 2 2 (.read 1024) true) = none := by
  have hsome : (execOk pipeStep Enabled newPipe interruptedWrite).map (fun t =>
      [some t.count, some t.write_count, some t.ref_count, t.waiting_reads.first, t.waiting_writes.first,
        some t.active.length, t.currentReadCapacity]) =
      some [some 512, some 0, some 1, none, some 1, some 0, some 513] := by
    decide +kernel
  obtain ⟨t, ht, hfields⟩ := Option.map_eq_some_iff.mp hsome
  simp only [List.cons.injEq, Option.some.injEq, and_true] at hfields
  obtain ⟨hcount, hclosed, href, hreads, hwrites, hactive, hcapacity⟩ := hfields
  have henq : (t.startWaiting 2 2 (.read 1024)).enqueue false 2 =
      some ((t.startWaiting 2 2 (.read 1024)).setQueue false ⟨some 2, some 2⟩) := by
    have hfirst : ((t.startWaiting 2 2 (.read 1024)).queue false).first = none := hreads
    simp only [PipeState.enqueue, hfirst]
  have hforever : ∀ n, PipeState.serviceLoop n
      ((t.startWaiting 2 2 (.read 1024)).setQueue false ⟨some 2, some 2⟩) = none := by
    apply serviceLoop_starved (a := 2) (b := 1)
    · rfl
    · exact hwrites
    · have hop : ((t.startWaiting 2 2 (.read 1024)).setQueue false ⟨some 2, some 2⟩).ops 2 =
          ⟨t.requests.length, [], 1024, 0, 2, none⟩ := by
        simp [PipeState.setQueue, PipeState.startWaiting, Request.bytes, Request.size]
      rw [hop]
      show t.count < 1024
      omega
    · exact hclosed
  have hnone : ∀ u : PipeState, (∀ n, PipeState.serviceLoop n u = none) → u.doOperationOnPipe = none := by
    intro u hu
    simp only [PipeState.doOperationOnPipe, hu, Option.bind_eq_bind, Option.bind_eq_none_iff]
    simp
  have hempty : t.active = [] := List.eq_nil_of_length_eq_zero hactive
  refine ⟨t, ht, ⟨by omega, by simp [Request.isWrite], by simp [hempty]⟩, _, henq, hforever, ?_⟩
  have hstart : t.mayStart (.read 1024) true = some true := rfl
  have henq' : (t.startWaiting 2 2 (.read 1024)).enqueue (Request.read 1024).isWrite 2 = _ := henq
  simp only [pipeStep, PipeState.executePipeOperation, hcapacity, hstart, henq', Option.bind_some]
  rw [if_neg (by simp), if_pos trivial]
  exact hnone _ hforever

end SomeOs.Pipe
