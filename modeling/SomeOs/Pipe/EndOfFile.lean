import SomeOs.Pipe.Progress

/-! # Why calls return

The reason why a task was woken is not stored: a call that has transferred nothing is
taken to be ended by a signal. This is right as long as no read waits when the last
end for writing is closed and no call that asks for nothing is started.
-/
namespace SomeOs.Pipe
open LinkedList Transition

/-- No read waits when the last end for writing is closed, and a request for no bytes
is answered at once. -/
def Attended (s : PipeState) (act : PipeAction) : Prop :=
  Enabled s act ∧ Spared s act ∧
    match act with
    | .call _ _ request block => request.size ≠ 0 ∨ s.mayStart request block = some false ∨
      s.currentReadCapacity = some 0 ∧ s.write_count = 0
    | .close true => s.write_count = 1 → s.waiting_reads.first = none
    | _ => True

structure ReturnsWell (s : PipeState) : Prop where
  ended : ∀ r ∈ s.results, r.woken = some .ended → ∃ n, r.ret = .success n
  eintr : ∀ r ∈ s.results, ∀ n, r.ret = .eintr n → r.woken = some .signal
  reported : ∀ r ∈ s.results, ∃ request, s.requests[r.call]? = some request ∧ Reported s request r
  atEnd : ∀ task a size block, s.currentReadCapacity = some 0 → s.write_count = 0 →
    s.executePipeOperation task a (.read size) block = some (s.answer (.read size) (.success 0))

structure Attentive (s : PipeState) : Prop where
  size : ∀ c ∈ s.active, c.woken = none → (s.ops c.addr).size ≠ 0
  woken : ∀ c ∈ s.active, c.woken ≠ none →
    c.woken = some .signal ∨ c.woken = some .served ∧ (s.ops c.addr).written ≠ 0
  ended : s.write_count = 0 → ∀ a, s.waiting_reads.first = some a → s.count ≠ 0 ∧ s.next a = none
  ret : ∀ r ∈ s.results, r.woken ≠ some .ended ∧ ∀ n, r.ret = .eintr n → r.woken = some .signal

section Turns
variable {s t : PipeState} {a : ℕ} {op : WaitingPipeOperation} {e : ActiveCall} {rs ws : List ℕ}

/-- A record was served in part. -/
theorem Attentive.advance (h : Attentive s) (ht : Tidy s) (he : e ∈ s.active) (hwait : e.woken = none)
    (hops : t.ops = Function.update s.ops e.addr op) (hactive : t.active = s.active)
    (hresults : t.results = s.results) (hsize : op.size ≠ 0) (hopen : t.write_count ≠ 0) : Attentive t := by
  refine ⟨?_, ?_, fun h0 => absurd h0 hopen, ?_⟩
  · rw [hactive]
    intro c hc hc'
    by_cases hca : c.addr = e.addr
    · rw [hops, hca, Function.update_self]
      exact hsize
    · rw [hops, Function.update_of_ne hca]
      exact h.size c hc hc'
  · rw [hactive]
    intro c hc hc'
    have hca : c.addr ≠ e.addr := by
      intro hca
      obtain rfl := ht.eq_of_addr hc he hca
      exact hc' hwait
    rw [hops, Function.update_of_ne hca]
    exact h.woken c hc hc'
  · rw [hresults]
    exact h.ret

/-- A record was served to its end, and its task woken. -/
theorem Attentive.complete (h : Attentive s) (ht : Tidy s) (he : e ∈ s.active)
    (hops : t.ops = Function.update s.ops e.addr op) (hactive : t.active = (s.wake e.task .served).active)
    (hresults : t.results = s.results) (hwritten : op.written ≠ 0)
    (hended : t.write_count = 0 → ∀ a, t.waiting_reads.first = some a → t.count ≠ 0 ∧ t.next a = none) :
    Attentive t := by
  have hcases : ∀ c ∈ t.active, (c.woken = some .served ∧ (t.ops c.addr).written ≠ 0) ∨
      c ∈ s.active ∧ t.ops c.addr = s.ops c.addr := by
    rw [hactive]
    intro c hc
    obtain ⟨d, hd, rfl⟩ := mem_wake.mp hc
    by_cases hde : d.task = e.task
    · left
      obtain rfl := ht.eq_of_task hd he hde
      rw [if_pos rfl, hops, Function.update_self]
      exact ⟨rfl, hwritten⟩
    · right
      rw [if_neg hde]
      refine ⟨hd, ?_⟩
      rw [hops, Function.update_of_ne]
      intro hda
      exact hde (by rw [ht.eq_of_addr hd he hda])
  refine ⟨fun c hc hc' => ?_, fun c hc hc' => ?_, hended, ?_⟩
  · rcases hcases c hc with ⟨hserved, -⟩ | ⟨hold, hsame⟩
    · rw [hc'] at hserved
      cases hserved
    · rw [hsame]
      exact h.size c hold hc'
  · rcases hcases c hc with hserved | ⟨hold, hsame⟩
    · exact Or.inr hserved
    · rw [hsame]
      exact h.woken c hold hc'
  · rw [hresults]
    exact h.ret

theorem Tidy.open_of_queued (ht : Tidy s) (hw : Queued s true ws) (hne : ws ≠ []) : s.write_count ≠ 0 := by
  obtain ⟨b, l, rfl⟩ := List.exists_cons_of_ne_nil hne
  obtain ⟨c, hc, -, hwrite, -⟩ := hw.waiting b List.mem_cons_self
  intro h0
  rw [ht.closed h0 c hc] at hwrite
  cases hwrite

theorem Turn.attentive (hturn : Turn s t) (h : Attentive s) : Attentive t := by
  cases hturn with
  | @readMore a rs ws ht hr hw hsize hopen =>
    obtain ⟨e, he, rfl, -, hwait⟩ := hr.waiting a List.mem_cons_self
    have hop := transferRead_size (s := s) (a := e.addr)
    exact h.advance ht he hwait rfl rfl rfl (hop ▸ hsize) (ht.open_of_queued hw hopen)
  | @readEnd a rs ws ht hr hw hgo =>
    obtain ⟨e, he, rfl, -, hwait⟩ := hr.waiting a List.mem_cons_self
    have hfirst : s.waiting_reads.first = some e.addr := hr.chain.1
    have hsize := h.size e he hwait
    have hcount : s.count ≠ 0 := by
      rcases hgo with hcount | h0
      · exact hcount
      · exact (h.ended h0 _ hfirst).1
    have htask := (ht.record e he).1
    have hwake : readWake s e.addr = .served := if_neg (fun hend => hcount hend.1)
    refine h.complete ht he rfl ?_ rfl ?_ ?_
    · simp only [popped, PipeState.wake, hwake, PipeState.setQueue, PipeState.transferRead,
        Function.update_self, htask]
      rfl
    · simp only
      omega
    · intro h0 b hb
      have hnext := (h.ended h0 _ hfirst).2
      have hnone : (s.transferRead e.addr).next e.addr = none := by
        rw [(sameControl_transferRead s e.addr).next, hnext]
      have hbehind := (behind_first (s.transferRead e.addr) false e.addr).trans hnone
      have hb' : ((s.transferRead e.addr).behind false e.addr).first = some b := hb
      rw [hbehind] at hb'
      cases hb'
  | @writeMore a rs ws ht hr hw hsize hroom =>
    obtain ⟨e, he, rfl, -, hwait⟩ := hw.waiting a List.mem_cons_self
    have hop := transferWrite_size (s := s) (a := e.addr)
    exact h.advance ht he hwait rfl rfl rfl (hop ▸ hsize) (ht.open_of_queued hw (List.cons_ne_nil _ _))
  | @writeEnd a rs ws ht hr hw hsize hroom =>
    obtain ⟨e, he, rfl, -, hwait⟩ := hw.waiting a List.mem_cons_self
    have hopen := ht.open_of_queued hw (List.cons_ne_nil _ _)
    have hsize := h.size e he hwait
    have htask := (ht.record e he).1
    refine h.complete ht he rfl ?_ rfl ?_ (fun h0 => absurd h0 hopen)
    · simp only [popped, PipeState.wake, PipeState.setQueue, PipeState.transferWrite,
        Function.update_self, htask]
      rfl
    · simp only
      omega

theorem Attentive.turns (h : Attentive s) (hturns : Relation.ReflTransGen Turn s t) : Attentive t := by
  induction hturns with
  | refl => exact h
  | tail _ hturn ih => exact hturn.attentive ih

end Turns

section Steps
variable {s t : PipeState} {task a : ℕ} {request : Request} {block : Bool} {rs ws : List ℕ} {act : PipeAction}

theorem executePipeOperation_atEnd (hempty : s.currentReadCapacity = some 0) (hclosed : s.write_count = 0) :
    s.executePipeOperation task a request block = some (s.answer request (.success 0)) := by
  simp only [PipeState.executePipeOperation, hempty, Option.bind_some, hclosed, and_self, if_true]

theorem Attentive.answer (h : Attentive s) {ret : PipeReturn} (hret : ret = .success 0 ∨ ret = .eagain) :
    Attentive (s.answer request ret) := by
  refine ⟨h.size, h.woken, h.ended, fun r hr => ?_⟩
  rcases List.mem_append.mp hr with hr | hr
  · exact h.ret r hr
  · obtain rfl := List.mem_singleton.mp hr
    refine ⟨by simp, fun n hn => ?_⟩
    rcases hret with rfl | rfl <;> cases hn

/-- The record of a new call is linked. On a closed pipe there is something left in the ring
for it. -/
theorem Attentive.start {w : PipeState} (h : Attentive s) (hrest : AtRest s rs ws)
    (he : Enabled s (.call task a request block)) (hsize : request.size ≠ 0)
    (hmore : ¬(s.currentReadCapacity = some 0 ∧ s.write_count = 0))
    (henq : (s.startWaiting task a request).enqueue request.isWrite a = some w)
    (hlinks : OnlyLinks (s.startWaiting task a request) w) : Attentive w := by
  obtain ⟨-, hopen, hnew⟩ := he
  have hactive : w.active = s.active ++ [⟨s.requests.length, task, a, request.isWrite, none⟩] :=
    (congrArg PipeState.active hlinks.rest :)
  have hresults : w.results = s.results := (congrArg PipeState.results hlinks.rest :)
  have hold : ∀ c ∈ s.active, (w.ops c.addr).size = (s.ops c.addr).size ∧
      (w.ops c.addr).written = (s.ops c.addr).written := by
    intro c hc
    obtain ⟨n, hn⟩ := hlinks.ops c.addr
    rw [hn]
    simp only [PipeState.startWaiting, Function.update_of_ne (hnew c hc).2, and_self]
  refine ⟨fun c hc hwait => ?_, fun c hc hwoken => ?_, fun h0 b hb => ?_, ?_⟩
  · rw [hactive] at hc
    rcases List.mem_append.mp hc with hc | hc
    · rw [(hold c hc).1]
      exact h.size c hc hwait
    · obtain rfl := List.mem_singleton.mp hc
      obtain ⟨n, hn⟩ := hlinks.ops a
      rw [hn]
      simpa [PipeState.startWaiting] using hsize
  · rw [hactive] at hc
    rcases List.mem_append.mp hc with hc | hc
    · rw [(hold c hc).2]
      exact h.woken c hc hwoken
    · obtain rfl := List.mem_singleton.mp hc
      exact absurd rfl hwoken
  · -- the only record in the queue is the new one
    have hsame : w.write_count = s.write_count := (congrArg PipeState.write_count hlinks.rest :)
    have hclosed : s.write_count = 0 := hsame ▸ h0
    have hread : request.isWrite = false := by
      by_contra hwrite
      have := hopen (by simpa using hwrite)
      omega
    have hrs : rs = [] := by
      by_contra hne
      exact (hrest.settled.reads hne).2.2 hclosed
    have hws : ws = [] := by
      by_contra hne
      exact hrest.tidy.open_of_queued hrest.writes hne hclosed
    have hcount : s.count ≠ 0 := by
      intro hcount
      refine hmore ⟨?_, hclosed⟩
      simp only [PipeState.currentReadCapacity, PipeState.queuedSize, hrest.writes.queued_eq hrest.tidy, hws,
        hcount, List.map_nil, List.sum_nil, Option.map_some, Nat.add_zero]
    have hfirst : ((s.startWaiting task a request).queue false).first = none := by
      have hhead := hrest.reads.chain.head_eq
      rw [hrs] at hhead
      exact hhead
    rw [hread] at henq
    simp only [PipeState.enqueue, hfirst, Option.some.injEq] at henq
    subst henq
    have hba : a = b := Option.some.inj hb
    subst hba
    refine ⟨hcount, ?_⟩
    simp [PipeState.next, PipeState.setQueue, PipeState.startWaiting]
  · rw [hresults]
    exact h.ret

theorem Attentive.returned (h : Attentive s) {c : ActiveCall} (hc : c ∈ s.active) (hwoken : c.woken ≠ none) :
    Attentive (returned s task c) := by
  refine ⟨fun d hd => h.size d (List.mem_filter.mp hd).1, fun d hd => h.woken d (List.mem_filter.mp hd).1,
    h.ended, fun r hr => ?_⟩
  rcases List.mem_append.mp hr with hr | hr
  · exact h.ret r hr
  · obtain rfl := List.mem_singleton.mp hr
    rcases h.woken c hc hwoken with hsignal | ⟨hserved, hwritten⟩
    · exact ⟨by simp [hsignal], fun n _ => hsignal⟩
    · refine ⟨by simp [hserved], fun n hn => ?_⟩
      rw [if_pos hwritten] at hn
      cases hn

theorem Attentive.interrupt (h : Attentive s) (hlinks : OnlyLinks s t)
    (hended : t.write_count = 0 → t.waiting_reads.first = none) : Attentive (t.wake task .signal) := by
  have hactive : t.active = s.active := (congrArg PipeState.active hlinks.rest :)
  have hresults : t.results = s.results := (congrArg PipeState.results hlinks.rest :)
  have hsame : ∀ b, (t.ops b).size = (s.ops b).size ∧ (t.ops b).written = (s.ops b).written := by
    intro b
    obtain ⟨n, hn⟩ := hlinks.ops b
    rw [hn]
    exact ⟨rfl, rfl⟩
  refine ⟨fun c hc hwait => ?_, fun c hc hwoken => ?_, fun h0 b hb => ?_, fun r hr => ?_⟩
  · obtain ⟨d, hd, rfl⟩ := mem_wake.mp hc
    split_ifs at hwait ⊢
    show (t.ops d.addr).size ≠ 0
    rw [(hsame d.addr).1]
    exact h.size d (hactive ▸ hd) hwait
  · obtain ⟨d, hd, rfl⟩ := mem_wake.mp hc
    split_ifs at hwoken ⊢
    · exact Or.inl rfl
    · show d.woken = some .signal ∨ d.woken = some .served ∧ (t.ops d.addr).written ≠ 0
      rw [(hsame d.addr).2]
      exact h.woken d (hactive ▸ hd) hwoken
  · rw [show (t.wake task .signal).waiting_reads.first = none from hended h0] at hb
    cases hb
  · exact h.ret r (hresults ▸ hr)

theorem AtRest.no_reads_closed (h : AtRest s rs ws) (h0 : s.write_count = 0) : s.waiting_reads.first = none := by
  have hrs : rs = [] := by
    by_contra hne
    exact (h.settled.reads hne).2.2 h0
  have hhead := h.reads.chain.head_eq
  rw [hrs] at hhead
  exact hhead

theorem pipeStep_attentive (hrest : AtRest s rs ws) (h : Attentive s) (ha : Attended s act)
    (hstep : pipeStep s act = some t) : Attentive t := by
  obtain ⟨he, hs, hcond⟩ := ha
  cases act with
  | call task a request block =>
    by_cases hend : s.currentReadCapacity = some 0 ∧ s.write_count = 0
    · obtain rfl := Option.some.inj ((executePipeOperation_atEnd hend.1 hend.2).symm.trans hstep)
      exact h.answer (Or.inl rfl)
    · rcases executePipeOperation_spec hrest he hs with ⟨ret, hret, hkind⟩ |
        ⟨w, u, rs', ws', hstart, henq, hlinks, -, hturns, hu, -⟩
      · obtain rfl := Option.some.inj (hret.symm.trans hstep)
        exact h.answer hkind
      · obtain rfl := Option.some.inj (hu.symm.trans hstep)
        have hsize : request.size ≠ 0 := by
          rcases hcond with hsize | hno | hnot
          · exact hsize
          · rw [hstart] at hno
            cases hno
          · exact absurd hnot hend
        exact (h.start hrest he hsize hend henq hlinks).turns hturns
  | finish task =>
    obtain ⟨c, hc, -, hwoken, hfin, -⟩ := hrest.finish he
    obtain rfl := Option.some.inj (hfin.symm.trans hstep)
    exact h.returned hc hwoken
  | interrupt task =>
    obtain ⟨c, -, -, -, w, hlinks, hw, hrest'⟩ := handlePipeWakeup_spec hrest he hs
    obtain rfl := Option.some.inj (hw.symm.trans hstep)
    exact h.interrupt hlinks hrest'.no_reads_closed
  | copy for_write =>
    cases hstep
    refine ⟨h.size, h.woken, fun h0 => h.ended ?_, h.ret⟩
    simp only [PipeState.copyPipeSharedData] at h0
    split_ifs at h0
    exact h0
  | close for_write =>
    have hd : Attentive (dropped s for_write) := by
      refine ⟨h.size, h.woken, fun h0 b hb => ?_, h.ret⟩
      cases for_write with
      | true =>
        have h0 : s.write_count - 1 = 0 := h0
        have hopen := he.2.2
        simp only [if_true] at hopen
        have hfirst : s.waiting_reads.first = none := hcond (by omega)
        have hb : s.waiting_reads.first = some b := hb
        rw [hfirst] at hb
        cases hb
      | false => exact h.ended h0 b hb
    rcases freePipeSharedData_spec hrest he with ⟨hfree, -⟩ | ⟨u, rs', ws', hu, hturns, -⟩
    · obtain rfl := Option.some.inj (hfree.symm.trans hstep)
      exact hd
    · obtain rfl := Option.some.inj (hu.symm.trans hstep)
      exact hd.turns hturns

/-- In every run in which no read waits when the last end for writing is closed, and every
call that is started asks for a byte, calls return for the reason they report. -/
theorem runs_return_well {for_write : Bool} {buffer : ByteStore.Store} {ops : ℕ → WaitingPipeOperation}
    {acts : List PipeAction}
    (hr : Runs pipeStep Attended (PipeState.createPipeSharedData for_write buffer ops) acts t) :
    ReturnsWell t := by
  have hinv : (∃ rs ws, AtRest t rs ws) ∧ Ledger t ∧ Attentive t := by
    refine hr.invariant (I := fun s => (∃ rs ws, AtRest s rs ws) ∧ Ledger s ∧ Attentive s) ?_
      ⟨⟨[], [], created_atRest _ _ _⟩, created_ledger _ _ _, ?_⟩
    · rintro s act t ⟨⟨rs, ws, hrest⟩, hl, hat⟩ ha hstep
      obtain ⟨u, rs', ws', hu, hrest'⟩ := pipeStep_atRest hrest ha.1 ha.2.1
      obtain rfl := Option.some.inj (hu.symm.trans hstep)
      exact ⟨⟨rs', ws', hrest'⟩, pipeStep_ledger hrest hl ha.1 ha.2.1 hstep,
        pipeStep_attentive hrest hat ha hstep⟩
    · constructor <;> simp [PipeState.createPipeSharedData]
  obtain ⟨-, hl, hat⟩ := hinv
  refine ⟨fun r hmem hended => absurd hended (hat.ret r hmem).1, fun r hmem => (hat.ret r hmem).2,
    fun r hmem => (hl.result r hmem).2, fun task a size block hempty hclosed => ?_⟩
  exact executePipeOperation_atEnd hempty hclosed

end Steps

instance decidableAttended (s : PipeState) : (act : PipeAction) → Decidable (Attended s act)
  | .call task a request block => inferInstanceAs (Decidable (Enabled s (.call task a request block) ∧
      Spared s (.call task a request block) ∧ (request.size ≠ 0 ∨ s.mayStart request block = some false ∨
        s.currentReadCapacity = some 0 ∧ s.write_count = 0)))
  | .finish task => inferInstanceAs (Decidable (Enabled s (.finish task) ∧ Spared s (.finish task) ∧ True))
  | .interrupt task =>
    inferInstanceAs (Decidable (Enabled s (.interrupt task) ∧ Spared s (.interrupt task) ∧ True))
  | .copy for_write =>
    inferInstanceAs (Decidable (Enabled s (.copy for_write) ∧ Spared s (.copy for_write) ∧ True))
  | .close true => inferInstanceAs (Decidable (Enabled s (.close true) ∧ Spared s (.close true) ∧
      (s.write_count = 1 → s.waiting_reads.first = none)))
  | .close false => inferInstanceAs (Decidable (Enabled s (.close false) ∧ Spared s (.close false) ∧ True))

/-- A read is ended by a signal, another one is served, and the one after the last end for
writing was closed is at the end. -/
def readsToEnd : List PipeAction :=
  [.copy false, .call 1 1 (.read 4) true, .interrupt 1, .finish 1, .call 1 1 (.write [104, 105]) true, .finish 1,
    .close true, .call 2 2 (.read 4) true, .finish 2, .call 2 2 (.read 4) true]

/-- The number of bytes that calls have returned, and whether that was without an error. -/
def returns (s : PipeState) : List (ℕ × Bool × ℕ) :=
  s.results.map fun r => (r.call, match r.ret with
    | .success n => (true, n)
    | .eintr n => (false, n)
    | .eagain => (false, 0))

theorem runs_return_well_to_end :
    ∃ t, execOk pipeStep Attended newPipe readsToEnd = some t ∧
      returns t = [(0, false, 0), (1, true, 2), (2, true, 2), (3, true, 0)] ∧ ReturnsWell t := by
  have hsome : (execOk pipeStep Attended newPipe readsToEnd).map returns =
      some [(0, false, 0), (1, true, 2), (2, true, 2), (3, true, 0)] := by
    decide
  obtain ⟨t, ht, hret⟩ := Option.map_eq_some_iff.mp hsome
  exact ⟨t, ht, hret, runs_return_well (.of_execOk ht)⟩

/-- A read that waits when the last end for writing is closed returns `EINTR`, and so
does a write of nothing. -/
theorem returns_not_well :
    (∃ t, execOk pipeStep Enabled newPipe [.copy false, .call 1 1 (.read 4) true, .close true, .finish 1] = some t ∧
      ¬ReturnsWell t) ∧
    ∃ t, execOk pipeStep Enabled newPipe [.copy false, .call 1 1 (.write []) true, .finish 1] = some t ∧
      ¬ReturnsWell t := by
  have hbad : ∀ t : PipeState, ∀ w : Wake, w ≠ .signal →
      t.results.map (fun r => (r.woken, match r.ret with | .eintr n => some n | _ => none)) = [(some w, some 0)] →
      ¬ReturnsWell t := by
    intro t w hw hres h
    obtain ⟨r, hr, heq⟩ := List.mem_map.mp (hres ▸ List.mem_singleton_self (some w, some 0))
    simp only [Prod.mk.injEq] at heq
    obtain ⟨hwoken, hret⟩ := heq
    cases hkind : r.ret with
    | eintr n =>
      have := h.eintr r hr n hkind
      rw [hwoken] at this
      exact hw (Option.some.inj this)
    | success n => simp [hkind] at hret
    | eagain => simp [hkind] at hret
  constructor
  · have hsome : (execOk pipeStep Enabled newPipe
        [.copy false, .call 1 1 (.read 4) true, .close true, .finish 1]).map (fun t =>
          t.results.map fun r => (r.woken, match r.ret with | .eintr n => some n | _ => none)) =
        some [(some .ended, some 0)] := by
      decide
    obtain ⟨t, ht, hres⟩ := Option.map_eq_some_iff.mp hsome
    exact ⟨t, ht, hbad t .ended (by decide) hres⟩
  · have hsome : (execOk pipeStep Enabled newPipe [.copy false, .call 1 1 (.write []) true, .finish 1]).map (fun t =>
          t.results.map fun r => (r.woken, match r.ret with | .eintr n => some n | _ => none)) =
        some [(some .served, some 0)] := by
      decide
    obtain ⟨t, ht, hres⟩ := Option.map_eq_some_iff.mp hsome
    exact ⟨t, ht, hbad t .served (by decide) hres⟩

end SomeOs.Pipe
