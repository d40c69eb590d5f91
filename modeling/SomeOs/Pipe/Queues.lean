import SomeOs.Pipe.Progress

/-! # The wait queues of a pipe

As long as no call waits behind another one and no signal ends a write, each queue is
exactly the list of the waiting calls in its direction, with its last record as tail.
-/
namespace SomeOs.Pipe
open LinkedList Transition

/-- The records of the calls that are waiting, in the order of their arrival. -/
def waitingAddrs (s : PipeState) (write : Bool) : List ℕ :=
  (s.active.filter fun c => c.write == write && c.woken == none).map ActiveCall.addr

structure QueueOk (s : PipeState) (write : Bool) : Prop where
  chain : Chain s.next (s.queue write).first (waitingAddrs s write)
  nodup : (waitingAddrs s write).Nodup
  tail : (s.queue write).tail = (waitingAddrs s write).getLast?

/-- A call that waits finds its queue empty, and no write is ended by a signal. -/
def Alone (s : PipeState) (act : PipeAction) : Prop :=
  Enabled s act ∧
    match act with
    | .call _ _ request block => (s.queue request.isWrite).first = none ∨ s.mayStart request block = some false
    | .interrupt task => ∀ c ∈ s.active, c.task = task → c.write = false
    | _ => True

structure Exact (s : PipeState) (write : Bool) : Prop where
  chain : Chain s.next (s.queue write).first (waitingAddrs s write)
  tail : (s.queue write).tail = (waitingAddrs s write).getLast?
  one : (waitingAddrs s write).length ≤ 1

section Lists
variable {s t : PipeState} {task a : ℕ} {write w : Bool} {why : Wake} {c : ActiveCall} {request : Request}

theorem Exact.ok (h : Exact s write) : QueueOk s write := ⟨h.chain, h.chain.nodup, h.tail⟩

theorem mem_waitingAddrs : a ∈ waitingAddrs s write ↔
    ∃ c ∈ s.active, c.addr = a ∧ c.write = write ∧ c.woken = none := by
  unfold waitingAddrs
  rw [List.mem_map]
  constructor
  · rintro ⟨c, hc, rfl⟩
    obtain ⟨hc, hcond⟩ := List.mem_filter.mp hc
    simp only [Bool.and_eq_true, beq_iff_eq] at hcond
    exact ⟨c, hc, rfl, hcond⟩
  · rintro ⟨c, hc, rfl, hw, hwait⟩
    exact ⟨c, List.mem_filter.mpr ⟨hc, by simp [hw, hwait]⟩, rfl⟩

/-- Waking a task takes its record out of the list. -/
theorem waitingAddrs_wake (ht : Tidy s) (hc : c ∈ s.active) (htask : c.task = task) :
    waitingAddrs (s.wake task why) w = (waitingAddrs s w).filter (· ≠ c.addr) := by
  have hsplit : ∀ l : List ActiveCall, (∀ d ∈ l, d ∈ s.active) →
      ((l.map fun c => if c.task = task then { c with woken := some why } else c).filter
        fun c => c.write == w && c.woken == none).map ActiveCall.addr =
      ((l.filter fun c => c.write == w && c.woken == none).map ActiveCall.addr).filter (· ≠ c.addr) := by
    intro l hl
    induction l with
    | nil => rfl
    | cons d l ih =>
      have hd := hl d List.mem_cons_self
      have hrest := ih (fun e he => hl e (List.mem_cons_of_mem _ he))
      by_cases hdt : d.task = task
      · obtain rfl := ht.eq_of_task hd hc (hdt.trans htask.symm)
        rw [List.map_cons, if_pos hdt, List.filter_cons_of_neg (by simp), hrest]
        by_cases hcond : (d.write == w && d.woken == none) = true
        · rw [List.filter_cons, if_pos hcond, List.map_cons, List.filter_cons_of_neg (by simp)]
        · rw [List.filter_cons, if_neg hcond]
      · have hne : d.addr ≠ c.addr := by
          intro he
          obtain rfl := ht.eq_of_addr hd hc he
          exact hdt htask
        rw [List.map_cons, if_neg hdt]
        by_cases hcond : (d.write == w && d.woken == none) = true
        · rw [List.filter_cons, if_pos hcond, List.filter_cons, if_pos hcond, List.map_cons, List.map_cons,
            List.filter_cons_of_pos (by simpa using hne), hrest]
        · rw [List.filter_cons, if_neg hcond, List.filter_cons, if_neg hcond, hrest]
  exact hsplit s.active (fun d hd => hd)

theorem waitingAddrs_wake_other (ht : Tidy s) (hc : c ∈ s.active) (htask : c.task = task) (hw : c.write ≠ w) :
    waitingAddrs (s.wake task why) w = waitingAddrs s w := by
  rw [waitingAddrs_wake ht hc htask, List.filter_eq_self]
  intro b hb
  obtain ⟨d, hd, rfl, hdw, -⟩ := mem_waitingAddrs.mp hb
  simp only [ne_eq, decide_not, Bool.not_eq_eq_eq_not, Bool.not_true, decide_eq_false_iff_not]
  intro he
  exact hw (ht.eq_of_addr hd hc he ▸ hdw)

theorem Exact.eq_singleton (h : Exact s write) (hmem : a ∈ waitingAddrs s write) :
    waitingAddrs s write = [a] ∧ (s.queue write).first = some a ∧ s.next a = none := by
  have hone := h.one
  have hchain := h.chain
  generalize waitingAddrs s write = l at hmem hone hchain
  match l, hmem, hone with
  | [b], hmem, _ =>
    obtain rfl := List.mem_singleton.mp hmem
    exact ⟨rfl, hchain.1, hchain.2⟩

theorem Exact.of_same (h : Exact s write) (hactive : t.active = s.active) (hqueue : t.queue write = s.queue write)
    (hnext : ∀ b ∈ waitingAddrs s write, t.next b = s.next b) : Exact t write := by
  have hl : waitingAddrs t write = waitingAddrs s write := by
    unfold waitingAddrs
    rw [hactive]
  refine ⟨?_, ?_, ?_⟩
  · rw [hl, hqueue]
    exact h.chain.congr hnext
  · rw [hl, hqueue]
    exact h.tail
  · rw [hl]
    exact h.one

variable (why) in
/-- The only record of a queue is taken out. -/
theorem Exact.popped (h : Exact s write) (h' : Exact s (!write)) (ht : Tidy s) (hc : c ∈ s.active)
    (haddr : c.addr = a) (hw : c.write = write) (hwait : c.woken = none) :
    Exact (popped s write a why) write ∧ Exact (popped s write a why) (!write) := by
  obtain ⟨hl, -, hnext⟩ := h.eq_singleton (mem_waitingAddrs.mpr ⟨c, hc, haddr, hw, hwait⟩)
  have htask : c.task = (s.ops a).wakeup := by
    rw [← haddr]
    exact (ht.record c hc).1.symm
  have hbehind : s.behind write a = ⟨none, none⟩ := if_pos hnext
  have ht' := ht.setQueue write (s.behind write a)
  obtain ⟨hops, hactive, -, -⟩ := setQueue_fields s write (s.behind write a)
  have hc' : c ∈ (s.setQueue write (s.behind write a)).active := by
    rw [hactive]
    exact hc
  have hsame : ∀ w, waitingAddrs (s.setQueue write (s.behind write a)) w = waitingAddrs s w := by
    intro w
    unfold waitingAddrs
    rw [hactive]
  unfold Pipe.popped
  constructor
  · have hnone : waitingAddrs ((s.setQueue write (s.behind write a)).wake (s.ops a).wakeup why) write = [] := by
      rw [waitingAddrs_wake ht' hc' htask, hsame, hl, haddr]
      simp
    have hqueue : ((s.setQueue write (s.behind write a)).wake (s.ops a).wakeup why).queue write =
        ⟨none, none⟩ := by
      rw [← hbehind]
      exact queue_setQueue s write _
    refine ⟨?_, ?_, ?_⟩
    · rw [hnone, hqueue]
      rfl
    · rw [hnone, hqueue]
      rfl
    · rw [hnone]
      exact Nat.zero_le _
  · have hother : waitingAddrs ((s.setQueue write (s.behind write a)).wake (s.ops a).wakeup why) (!write) =
        waitingAddrs s (!write) := by
      rw [waitingAddrs_wake_other ht' hc' htask (by simp [hw]), hsame]
    have hqueue : ((s.setQueue write (s.behind write a)).wake (s.ops a).wakeup why).queue (!write) =
        s.queue (!write) := queue_setQueue_not s write _
    have hnexts : ∀ b, ((s.setQueue write (s.behind write a)).wake (s.ops a).wakeup why).next b = s.next b := by
      intro b
      simp only [PipeState.next, PipeState.wake, hops]
    refine ⟨?_, ?_, ?_⟩
    · rw [hother, hqueue]
      exact h'.chain.congr (fun b _ => hnexts b)
    · rw [hother, hqueue]
      exact h'.tail
    · rw [hother]
      exact h'.one

theorem Exact.sameControl (h : Exact s write) (hs : SameControl s t) : Exact t write :=
  h.of_same hs.active (hs.queue write) (fun b _ => hs.next b)

theorem Turn.exact (hturn : Turn s t) (hr : Exact s false) (hw : Exact s true) :
    Exact t false ∧ Exact t true := by
  cases hturn with
  | @readMore a rs ws ht hq hq' hsize hopen =>
    have hsame := sameControl_transferRead s a
    exact ⟨hr.sameControl hsame, hw.sameControl hsame⟩
  | @readEnd a rs ws ht hq hq' hgo =>
    have hsame := sameControl_transferRead s a
    obtain ⟨c, hc, haddr, hdir, hwait⟩ := (hsame.queued hq).waiting a List.mem_cons_self
    exact (hr.sameControl hsame).popped _ (hw.sameControl hsame) (hsame.tidy ht) hc haddr hdir hwait
  | @writeMore a rs ws ht hq hq' hsize hroom =>
    have hsame := sameControl_transferWrite s a
    exact ⟨hr.sameControl hsame, hw.sameControl hsame⟩
  | @writeEnd a rs ws ht hq hq' hsize hroom =>
    have hsame := sameControl_transferWrite s a
    obtain ⟨c, hc, haddr, hdir, hwait⟩ := (hsame.queued hq').waiting a List.mem_cons_self
    have h := (hw.sameControl hsame).popped .served (hr.sameControl hsame) (hsame.tidy ht) hc haddr
      hdir hwait
    exact ⟨h.2, h.1⟩

theorem turns_exact (hturns : Relation.ReflTransGen Turn s t) (hr : Exact s false) (hw : Exact s true) :
    Exact t false ∧ Exact t true := by
  induction hturns with
  | refl => exact ⟨hr, hw⟩
  | tail _ hturn ih => exact hturn.exact ih.1 ih.2

end Lists

section Done
variable {s t : PipeState} {act : PipeAction} {r : CallResult} {k : ℕ} {rs ws : List ℕ}

def SameEntries (s t : PipeState) (call : ℕ) : Prop :=
  entries t.accepted call = entries s.accepted call ∧ entries t.delivered call = entries s.delivered call

theorem Turn.sameEntries (hturn : Turn s t) (hk : ∀ c ∈ s.active, c.call ≠ k) :
    SameEntries s t k ∧ t.results = s.results ∧ ∀ c ∈ t.active, c.call ≠ k := by
  have hne : ∀ {a : ℕ} {w : Bool} {l : List ℕ}, Tidy s → Queued s w (a :: l) → k ≠ (s.ops a).call := by
    intro a w l ht hq
    obtain ⟨c, hc, rfl, -, -⟩ := hq.waiting a List.mem_cons_self
    rw [(ht.record c hc).2]
    exact Ne.symm (hk c hc)
  have hwoken : ∀ {u : PipeState} {task : ℕ} {why : Wake}, u.active = s.active →
      ∀ c ∈ (u.wake task why).active, c.call ≠ k := by
    intro u task why hu c hc
    obtain ⟨d, hd, -, -, hcall, -⟩ := of_mem_wake hc
    rw [hcall]
    exact hk d (hu ▸ hd)
  cases hturn with
  | readMore ht hr hw hsize hopen => exact ⟨⟨rfl, entries_append_ne (hne ht hr)⟩, rfl, hk⟩
  | readEnd ht hr hw hgo => exact ⟨⟨rfl, entries_append_ne (hne ht hr)⟩, rfl, hwoken rfl⟩
  | writeMore ht hr hw hsize hroom => exact ⟨⟨entries_append_ne (hne ht hw), rfl⟩, rfl, hk⟩
  | writeEnd ht hr hw hsize hroom => exact ⟨⟨entries_append_ne (hne ht hw), rfl⟩, rfl, hwoken rfl⟩

theorem turns_sameEntries (hturns : Relation.ReflTransGen Turn s t) (hk : ∀ c ∈ s.active, c.call ≠ k) :
    SameEntries s t k ∧ t.results = s.results := by
  have hall : SameEntries s t k ∧ t.results = s.results ∧ ∀ c ∈ t.active, c.call ≠ k := by
    induction hturns with
    | refl => exact ⟨⟨rfl, rfl⟩, rfl, hk⟩
    | tail _ hturn ih =>
      obtain ⟨⟨hacc, hdel⟩, hres, hk'⟩ := ih
      obtain ⟨⟨hacc', hdel'⟩, hres', hk''⟩ := hturn.sameEntries hk'
      exact ⟨⟨hacc'.trans hacc, hdel'.trans hdel⟩, hres'.trans hres, hk''⟩
  exact ⟨hall.1, hall.2.1⟩

/-- A call that has returned keeps its result and its bytes. -/
theorem pipeStep_done (h : AtRest s rs ws) (hl : Ledger s) (he : Enabled s act) (hs : Spared s act)
    (hstep : pipeStep s act = some t) (hr : r ∈ s.results) : r ∈ t.results ∧ SameEntries s t r.call := by
  obtain ⟨hgone, request, hreq, -⟩ := hl.result r hr
  have hlt : r.call < s.requests.length := (List.getElem?_eq_some_iff.mp hreq).1
  cases act with
  | call task a request block =>
    rcases executePipeOperation_spec h he hs with ⟨ret, hret, -⟩ |
      ⟨w, u, rs', ws', -, -, hlinks, -, hturns, hu, -⟩
    · obtain rfl := Option.some.inj (hret.symm.trans hstep)
      exact ⟨List.mem_append_left _ hr, rfl, rfl⟩
    · obtain rfl := Option.some.inj (hu.symm.trans hstep)
      have hactive : w.active = (s.startWaiting task a request).active :=
        (congrArg PipeState.active hlinks.rest :)
      have hresults : w.results = s.results := (congrArg PipeState.results hlinks.rest :)
      have haccepted : w.accepted = s.accepted := (congrArg PipeState.accepted hlinks.rest :)
      have hdelivered : w.delivered = s.delivered := (congrArg PipeState.delivered hlinks.rest :)
      have hk : ∀ c ∈ w.active, c.call ≠ r.call := by
        rw [hactive]
        intro c hc
        rcases List.mem_append.mp hc with hc | hc
        · exact hgone c hc
        · obtain rfl := List.mem_singleton.mp hc
          exact Nat.ne_of_gt hlt
      obtain ⟨⟨hacc, hdel⟩, hres⟩ := turns_sameEntries hturns hk
      refine ⟨?_, ?_, ?_⟩
      · rw [hres, hresults]
        exact hr
      · rw [hacc, haccepted]
      · rw [hdel, hdelivered]
  | finish task =>
    obtain ⟨c, -, -, -, hfin, -⟩ := h.finish he
    obtain rfl := Option.some.inj (hfin.symm.trans hstep)
    exact ⟨List.mem_append_left _ hr, rfl, rfl⟩
  | interrupt task =>
    obtain ⟨c, -, -, -, u, hlinks, hu, -⟩ := handlePipeWakeup_spec h he hs
    obtain rfl := Option.some.inj (hu.symm.trans hstep)
    have hresults : u.results = s.results := (congrArg PipeState.results hlinks.rest :)
    have haccepted : u.accepted = s.accepted := (congrArg PipeState.accepted hlinks.rest :)
    have hdelivered : u.delivered = s.delivered := (congrArg PipeState.delivered hlinks.rest :)
    refine ⟨?_, ?_, ?_⟩
    · exact hresults.symm ▸ hr
    · exact congrArg (entries · r.call) haccepted
    · exact congrArg (entries · r.call) hdelivered
  | copy for_write =>
    cases hstep
    exact ⟨hr, rfl, rfl⟩
  | close for_write =>
    rcases freePipeSharedData_spec h he with ⟨hfree, -⟩ | ⟨u, rs', ws', hu, hturns, -⟩
    · obtain rfl := Option.some.inj (hfree.symm.trans hstep)
      exact ⟨hr, rfl, rfl⟩
    · obtain rfl := Option.some.inj (hu.symm.trans hstep)
      have hk : ∀ c ∈ (dropped s for_write).active, c.call ≠ r.call := hgone
      obtain ⟨⟨hacc, hdel⟩, hres⟩ := turns_sameEntries hturns hk
      exact ⟨hres.symm ▸ hr, hacc, hdel⟩

end Done

section Steps
variable {s t : PipeState} {task a : ℕ} {request : Request} {block : Bool} {rs ws : List ℕ} {act : PipeAction}
  {c : ActiveCall}

theorem Alone.spared (h : Alone s act) : Spared s act := by
  cases act with
  | call task a request block =>
    intro hstart hne
    rcases h.2 with hempty | hno
    · exact absurd hempty hne
    · rw [hstart] at hno
      cases hno
  | interrupt task =>
    intro c hc htask hwrite
    rw [h.2 c hc htask] at hwrite
    cases hwrite
  | _ => trivial

/-- The first record of an empty queue. -/
theorem Exact.enqueue (h : Exact s request.isWrite) (h' : Exact s (!request.isWrite))
    (hnew : ∀ c ∈ s.active, c.task ≠ task ∧ c.addr ≠ a) (hempty : (s.queue request.isWrite).first = none)
    (ht : (s.startWaiting task a request).enqueue request.isWrite a = some t) :
    Exact t request.isWrite ∧ Exact t (!request.isWrite) := by
  have hfirst : ((s.startWaiting task a request).queue request.isWrite).first = none := hempty
  have heq : t = (s.startWaiting task a request).setQueue request.isWrite ⟨some a, some a⟩ := by
    simp only [PipeState.enqueue, hfirst, Option.some.injEq] at ht
    exact ht.symm
  subst heq
  obtain ⟨hops, hactive, -, -⟩ :=
    setQueue_fields (s.startWaiting task a request) request.isWrite ⟨some a, some a⟩
  have hnone : waitingAddrs s request.isWrite = [] := by
    have hhead := h.chain.head_eq
    rw [hempty] at hhead
    exact List.head?_eq_none_iff.mp hhead.symm
  have happend : ∀ w, waitingAddrs ((s.startWaiting task a request).setQueue request.isWrite ⟨some a, some a⟩) w =
      waitingAddrs s w ++ if request.isWrite = w then [a] else [] := by
    intro w
    unfold waitingAddrs
    rw [hactive]
    simp only [PipeState.startWaiting, List.filter_append, List.map_append]
    congr 1
    by_cases hw : request.isWrite = w <;> simp [hw]
  have hnext : ((s.startWaiting task a request).setQueue request.isWrite ⟨some a, some a⟩).next a = none := by
    simp only [PipeState.next, hops]
    simp only [PipeState.startWaiting, Function.update_self]
  constructor
  · have hl := happend request.isWrite
    rw [hnone, if_pos rfl, List.nil_append] at hl
    refine ⟨?_, ?_, ?_⟩
    · rw [hl, queue_setQueue]
      exact ⟨rfl, hnext⟩
    · rw [hl, queue_setQueue]
      rfl
    · rw [hl]
      exact le_refl 1
  · have hl := happend (!request.isWrite)
    rw [if_neg (by simp), List.append_nil] at hl
    have hkept : ∀ b ∈ waitingAddrs s (!request.isWrite),
        ((s.startWaiting task a request).setQueue request.isWrite ⟨some a, some a⟩).next b = s.next b := by
      intro b hb
      obtain ⟨d, hd, rfl, -, -⟩ := mem_waitingAddrs.mp hb
      simp only [PipeState.next, hops]
      simp only [PipeState.startWaiting, Function.update_of_ne (hnew d hd).2]
    refine ⟨?_, ?_, ?_⟩
    · rw [hl, queue_setQueue_not]
      exact h'.chain.congr hkept
    · rw [hl, queue_setQueue_not]
      exact h'.tail
    · rw [hl]
      exact h'.one

theorem Exact.returned {w : Bool} (h : Exact s w) (ht : Tidy s) (hc : c ∈ s.active) (htask : c.task = task)
    (hwoken : c.woken ≠ none) : Exact (returned s task c) w := by
  have hl : waitingAddrs (Pipe.returned s task c) w = waitingAddrs s w := by
    unfold waitingAddrs Pipe.returned
    rw [List.filter_filter]
    congr 1
    apply List.filter_congr
    intro d hd
    by_cases hdt : d.task = task
    · obtain rfl := ht.eq_of_task hd hc (hdt.trans htask.symm)
      simp [hwoken]
    · simp [hdt]
  refine ⟨?_, ?_, ?_⟩
  · rw [hl]
    exact h.chain
  · rw [hl]
    exact h.tail
  · rw [hl]
    exact h.one

/-- A signal ends the only waiting read. -/
theorem Exact.interrupt (hr : Exact s false) (hw : Exact s true) (h : AtRest s rs ws) (hc : c ∈ s.active)
    (htask : c.task = task) (hwait : c.woken = none) (hread : c.write = false)
    (hstep : s.handlePipeWakeup task = some t) : Exact t false ∧ Exact t true := by
  obtain ⟨hl, hfirst, hnext⟩ := hr.eq_singleton (mem_waitingAddrs.mpr ⟨c, hc, rfl, hread, hwait⟩)
  have hrs : rs = [c.addr] := by
    rw [← hl]
    exact h.reads.chain.unique hr.chain
  have hqueued := h.reads.queued_eq h.tidy
  have hwakeup : (s.ops c.addr).wakeup = task := by rw [(h.tidy.record c hc).1, htask]
  have hunlink : s.unlinkTask task none [c.addr] = { s with waiting_reads := ⟨none, none⟩ } := by
    simp [PipeState.unlinkTask, hwakeup, hnext]
  have heq : t = ({ s with waiting_reads := ⟨none, none⟩ } : PipeState).wake task .signal := by
    have hawake := awakenTask_eq (s := { s with waiting_reads := ⟨none, none⟩ }) .signal hc htask hwait
    simp only [PipeState.handlePipeWakeup, hqueued, hrs, Option.bind_eq_bind, Option.bind_some, hunlink,
      hawake, Option.some.injEq] at hstep
    exact hstep.symm
  subst heq
  have ht : Tidy { s with waiting_reads := ⟨none, none⟩ } := h.tidy.setQueue false ⟨none, none⟩
  have hnone : waitingAddrs (({ s with waiting_reads := ⟨none, none⟩ } : PipeState).wake task .signal) false = [] := by
    rw [waitingAddrs_wake ht hc htask]
    have hsame : waitingAddrs { s with waiting_reads := ⟨none, none⟩ } false = [c.addr] := hl
    rw [hsame]
    simp
  have hother : waitingAddrs (({ s with waiting_reads := ⟨none, none⟩ } : PipeState).wake task .signal) true =
      waitingAddrs s true := waitingAddrs_wake_other ht hc htask (by simp [hread])
  refine ⟨⟨?_, ?_, ?_⟩, ⟨?_, ?_, ?_⟩⟩
  · rw [hnone]
    rfl
  · rw [hnone]
    rfl
  · rw [hnone]
    exact Nat.zero_le 1
  · rw [hother]
    exact hw.chain
  · rw [hother]
    exact hw.tail
  · rw [hother]
    exact hw.one

theorem pipeStep_exact (h : AtRest s rs ws) (hr : Exact s false) (hw : Exact s true) (ha : Alone s act)
    (hstep : pipeStep s act = some t) : Exact t false ∧ Exact t true := by
  have he := ha.1
  have hs := ha.spared
  cases act with
  | call task a request block =>
    rcases executePipeOperation_spec h he hs with ⟨ret, hret, -⟩ |
      ⟨w, u, rs', ws', hstart, henq, -, -, hturns, hu, -⟩
    · obtain rfl := Option.some.inj (hret.symm.trans hstep)
      exact ⟨hr.of_same rfl rfl (fun b _ => rfl), hw.of_same rfl rfl (fun b _ => rfl)⟩
    · obtain rfl := Option.some.inj (hu.symm.trans hstep)
      have hempty : (s.queue request.isWrite).first = none := by
        rcases ha.2 with hempty | hno
        · exact hempty
        · rw [hstart] at hno
          cases hno
      have hboth : Exact w false ∧ Exact w true := by
        cases hdir : request.isWrite with
        | true =>
          rw [← hdir] at hw
          have h2 := hw.enqueue (by rw [hdir]; exact hr) he.2.2 hempty henq
          rw [hdir] at h2
          exact ⟨h2.2, h2.1⟩
        | false =>
          rw [← hdir] at hr
          have h2 := hr.enqueue (by rw [hdir]; exact hw) he.2.2 hempty henq
          rw [hdir] at h2
          exact h2
      exact turns_exact hturns hboth.1 hboth.2
  | finish task =>
    obtain ⟨c, hc, htask, hwoken, hfin, -⟩ := h.finish he
    obtain rfl := Option.some.inj (hfin.symm.trans hstep)
    exact ⟨hr.returned h.tidy hc htask hwoken, hw.returned h.tidy hc htask hwoken⟩
  | interrupt task =>
    obtain ⟨c, hc, htask, hwait⟩ := he
    exact hr.interrupt hw h hc htask hwait (ha.2 c hc htask) hstep
  | copy for_write =>
    cases hstep
    exact ⟨hr.of_same rfl rfl (fun b _ => rfl), hw.of_same rfl rfl (fun b _ => rfl)⟩
  | close for_write =>
    have hrd : Exact (dropped s for_write) false := hr.of_same rfl rfl (fun b _ => rfl)
    have hwd : Exact (dropped s for_write) true := hw.of_same rfl rfl (fun b _ => rfl)
    rcases freePipeSharedData_spec h he with ⟨hfree, -⟩ | ⟨u, rs', ws', hu, hturns, -⟩
    · obtain rfl := Option.some.inj (hfree.symm.trans hstep)
      exact ⟨hrd, hwd⟩
    · obtain rfl := Option.some.inj (hu.symm.trans hstep)
      exact turns_exact hturns hrd hwd

theorem created_exact (for_write : Bool) (buffer : ByteStore.Store) (ops : ℕ → WaitingPipeOperation)
    (write : Bool) : Exact (PipeState.createPipeSharedData for_write buffer ops) write := by
  cases write <;> exact ⟨rfl, rfl, Nat.zero_le 1⟩

/-- The queues are well formed, and a call that a signal has ended moves no byte from then on. -/
structure QueuesIntact (ok : PipeState → PipeAction → Prop) (s : PipeState) : Prop where
  reads : QueueOk s false
  writes : QueueOk s true
  ended : ∀ r ∈ s.results, ∀ n, r.ret = .eintr n → ∀ acts u, Runs pipeStep ok s acts u → SameEntries s u r.call

structure Lined (s : PipeState) : Prop where
  rest : ∃ rs ws, AtRest s rs ws
  ledger : Ledger s
  reads : Exact s false
  writes : Exact s true

theorem Lined.step (h : Lined s) (ha : Alone s act) (hstep : pipeStep s act = some t) : Lined t := by
  obtain ⟨rs, ws, hrest⟩ := h.rest
  obtain ⟨u, rs', ws', hu, hrest'⟩ := pipeStep_atRest hrest ha.1 ha.spared
  obtain rfl := Option.some.inj (hu.symm.trans hstep)
  obtain ⟨hr, hw⟩ := pipeStep_exact hrest h.reads h.writes ha hstep
  exact ⟨⟨rs', ws', hrest'⟩, pipeStep_ledger hrest h.ledger ha.1 ha.spared hstep, hr, hw⟩

theorem Lined.done {acts : List PipeAction} {r : CallResult} (h : Lined s) (hruns : Runs pipeStep Alone s acts t)
    (hr : r ∈ s.results) : SameEntries s t r.call := by
  have hinv : Lined t ∧ r ∈ t.results ∧ SameEntries s t r.call := by
    refine hruns.invariant (I := fun u => Lined u ∧ r ∈ u.results ∧ SameEntries s u r.call) ?_
      ⟨h, hr, rfl, rfl⟩
    rintro u act v ⟨hu, hmem, hacc, hdel⟩ ha hstep
    obtain ⟨rs, ws, hrest⟩ := hu.rest
    obtain ⟨hmem', hacc', hdel'⟩ := pipeStep_done hrest hu.ledger ha.1 ha.spared hstep hmem
    exact ⟨hu.step ha hstep, hmem', hacc'.trans hacc, hdel'.trans hdel⟩
  exact hinv.2.2

/-- In every run in which calls wait alone and no signal ends a write the queues are
exactly the waiting calls. -/
theorem runs_queues_intact {for_write : Bool} {buffer : ByteStore.Store} {ops : ℕ → WaitingPipeOperation}
    {acts : List PipeAction}
    (hr : Runs pipeStep Alone (PipeState.createPipeSharedData for_write buffer ops) acts t) :
    QueuesIntact Alone t := by
  have hinv : Lined t := by
    refine hr.invariant (I := Lined) (fun s act t h ha hstep => h.step ha hstep)
      ⟨⟨[], [], created_atRest _ _ _⟩, created_ledger _ _ _, created_exact _ _ _ _, created_exact _ _ _ _⟩
  exact ⟨hinv.reads.ok, hinv.writes.ok, fun r hmem n _ acts u hruns => hinv.done hruns hmem⟩

end Steps

instance decidableAlone (s : PipeState) : (act : PipeAction) → Decidable (Alone s act)
  | .call task a request block => inferInstanceAs (Decidable (Enabled s (.call task a request block) ∧
      ((s.queue request.isWrite).first = none ∨ s.mayStart request block = some false)))
  | .finish task => inferInstanceAs (Decidable (Enabled s (.finish task) ∧ True))
  | .interrupt task => inferInstanceAs (Decidable (Enabled s (.interrupt task) ∧
      ∀ c ∈ s.active, c.task = task → c.write = false))
  | .copy for_write => inferInstanceAs (Decidable (Enabled s (.copy for_write) ∧ True))
  | .close for_write => inferInstanceAs (Decidable (Enabled s (.close for_write) ∧ True))

/-- A reader waits, is ended by a signal, and another one waits. -/
theorem runs_queues_intact_two_readers :
    ∃ t, execOk pipeStep Alone newPipe [.copy false, .call 1 1 (.read 4) true, .interrupt 1,
      .call 2 2 (.read 4) true, .finish 1] = some t ∧ waitingAddrs t false = [2] ∧ QueuesIntact Alone t := by
  have hsome : (execOk pipeStep Alone newPipe [.copy false, .call 1 1 (.read 4) true, .interrupt 1,
      .call 2 2 (.read 4) true, .finish 1]).map (waitingAddrs · false) = some [2] := by
    decide
  obtain ⟨t, ht, hwait⟩ := Option.map_eq_some_iff.mp hsome
  exact ⟨t, ht, hwait, runs_queues_intact (.of_execOk ht)⟩

def threeReaders : List PipeAction :=
  [.copy false, .call 1 1 (.read 4) true, .call 2 2 (.read 4) true, .call 3 3 (.read 4) true]

def endedWrite : List PipeAction :=
  [.copy false, .call 1 1 (.write (List.replicate 512 7)) true, .finish 1, .call 1 1 (.write [9, 9]) true,
    .interrupt 1, .finish 1]

/-- The second of three readers is not in the queue, and a write that has returned because
of a signal is served by the next read. -/
theorem queues_not_intact :
    (∃ t, execOk pipeStep Enabled newPipe threeReaders = some t ∧ waitingAddrs t false = [1, 2, 3] ∧
      t.queued false = some [1, 3] ∧ t.waiting_reads.tail = some 1 ∧ ¬QueuesIntact Enabled t) ∧
    ∃ t, execOk pipeStep Enabled newPipe endedWrite = some t ∧ (∃ r ∈ t.results, r.call = 1 ∧ r.ret = .eintr 0) ∧
      ∃ u, execOk pipeStep Enabled t [.call 2 2 (.read 1) true] = some u ∧
        entries t.accepted 1 = [] ∧ entries u.accepted 1 = [9] := by
  constructor
  · have hsome : (execOk pipeStep Enabled newPipe threeReaders).map (fun t =>
        (waitingAddrs t false, t.queued false, t.waiting_reads.tail)) = some ([1, 2, 3], some [1, 3], some 1) := by
      decide
    obtain ⟨t, ht, hfields⟩ := Option.map_eq_some_iff.mp hsome
    simp only [Prod.mk.injEq] at hfields
    obtain ⟨hwait, hqueued, htail⟩ := hfields
    refine ⟨t, ht, hwait, hqueued, htail, fun h => ?_⟩
    have hlast : t.waiting_reads.tail = (waitingAddrs t false).getLast? := h.reads.tail
    rw [htail, hwait] at hlast
    simp at hlast
  · have hsome : (execOk pipeStep Enabled newPipe endedWrite).map (fun t =>
        (t.results.map (fun r => (r.call, match r.ret with | .eintr n => some n | _ => none)),
          entries t.accepted 1,
          (execOk pipeStep Enabled t [.call 2 2 (.read 1) true]).map fun u => entries u.accepted 1)) =
        some ([(0, none), (1, some 0)], [], some [9]) := by
      decide +kernel
    obtain ⟨t, ht, hfields⟩ := Option.map_eq_some_iff.mp hsome
    simp only [Prod.mk.injEq] at hfields
    obtain ⟨hresults, hbefore, hafter⟩ := hfields
    obtain ⟨u, hu, hlater⟩ := Option.map_eq_some_iff.mp hafter
    refine ⟨t, ht, ?_, u, hu, hbefore, hlater⟩
    have hmem : (1, some 0) ∈ t.results.map (fun r : CallResult =>
        (r.call, match r.ret with | .eintr n => some n | _ => none)) := by
      rw [hresults]
      simp
    obtain ⟨r, hr, heq⟩ := List.mem_map.mp hmem
    simp only [Prod.mk.injEq] at heq
    refine ⟨r, hr, heq.1, ?_⟩
    cases hret : r.ret with
    | eintr n => simp_all
    | success n => simp_all
    | eagain => simp_all

end SomeOs.Pipe
