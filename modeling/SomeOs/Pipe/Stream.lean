import SomeOs.Pipe.Ledger

/-! # The byte stream of a pipe

What was delivered, followed by the contents of the ring, is what was accepted. A
write that was served in part is at the head of its queue, and its bytes are the last
ones accepted.
-/
namespace SomeOs.Pipe
open LinkedList Transition

def Contiguous (call : ℕ) (l : List (ℕ × UInt8)) : Prop :=
  ∃ l₁ l₂ l₃, l = l₁ ++ l₂ ++ l₃ ∧ (∀ x ∈ l₁, x.1 ≠ call) ∧ (∀ x ∈ l₂, x.1 = call) ∧ ∀ x ∈ l₃, x.1 ≠ call

def EndsWith (call : ℕ) (l : List (ℕ × UInt8)) : Prop :=
  ∃ l₁ l₂, l = l₁ ++ l₂ ∧ (∀ x ∈ l₁, x.1 ≠ call) ∧ ∀ x ∈ l₂, x.1 = call

structure Streamed (s : PipeState) : Prop where
  pos : s.read_pos < capacity
  count : s.count ≤ capacity
  stream : s.delivered.map Prod.snd ++ Ring.contents s.buffer capacity s.read_pos s.count =
    s.accepted.map Prod.snd
  contiguous : ∀ call, Contiguous call s.accepted
  last : ∀ c ∈ s.active, c.write = true → c.woken = none → (s.ops c.addr).written ≠ 0 →
    s.waiting_writes.first = some c.addr ∧ EndsWith c.call s.accepted

section Contiguous
variable {l : List (ℕ × UInt8)} {bytes : List UInt8} {call k : ℕ}

theorem EndsWith.contiguous (h : EndsWith call l) : Contiguous call l := by
  obtain ⟨l₁, l₂, rfl, h₁, h₂⟩ := h
  exact ⟨l₁, l₂, [], by simp, h₁, h₂, by simp⟩

theorem EndsWith.append (h : EndsWith call l) (bytes : List UInt8) :
    EndsWith call (l ++ bytes.map (call, ·)) := by
  obtain ⟨l₁, l₂, rfl, h₁, h₂⟩ := h
  refine ⟨l₁, l₂ ++ bytes.map (call, ·), by simp, h₁, fun x hx => ?_⟩
  rcases List.mem_append.mp hx with hx | hx
  · exact h₂ x hx
  · obtain ⟨b, -, rfl⟩ := List.mem_map.mp hx
    rfl

theorem endsWith_of_entries (h : entries l call = []) : EndsWith call l := by
  refine ⟨l, [], by simp, fun x hx hcall => ?_, by simp⟩
  have hmem : x.2 ∈ entries l call := List.mem_map_of_mem (List.mem_filter.mpr ⟨hx, by simpa using hcall⟩)
  rw [h] at hmem
  cases hmem

theorem Contiguous.append (h : Contiguous call l) (hne : k ≠ call) (bytes : List UInt8) :
    Contiguous call (l ++ bytes.map (k, ·)) := by
  obtain ⟨l₁, l₂, l₃, rfl, h₁, h₂, h₃⟩ := h
  refine ⟨l₁, l₂, l₃ ++ bytes.map (k, ·), by simp, h₁, h₂, fun x hx => ?_⟩
  rcases List.mem_append.mp hx with hx | hx
  · exact h₃ x hx
  · obtain ⟨b, -, rfl⟩ := List.mem_map.mp hx
    exact hne

end Contiguous

section Turns
variable {s t : PipeState} {a : ℕ} {rs ws : List ℕ} {why : Wake}

theorem Streamed.transferRead (h : Streamed s) (ht : Tidy s) (hr : Queued s false (a :: rs)) :
    Streamed (s.transferRead a) := by
  have hpos := h.pos
  have hcount := h.count
  refine ⟨Nat.mod_lt _ (by decide), ?_, ?_, h.contiguous, fun c hc hwrite hwait hwritten => ?_⟩
  · simp only [PipeState.transferRead]
    omega
  · simp only [PipeState.transferRead]
    generalize hn : min s.count (s.ops a).size = n
    obtain ⟨m, hm⟩ : ∃ m, s.count = n + m := ⟨s.count - n, by omega⟩
    have hbytes : (Ring.readWrapped s.buffer capacity s.read_pos n).map
        (Prod.snd ∘ fun x => ((s.ops a).call, x)) = Ring.contents s.buffer capacity s.read_pos n := by
      rw [Ring.readWrapped_eq hpos (by omega)]
      exact List.map_id _
    have hstream := h.stream
    rw [hm, Ring.contents_add] at hstream
    rw [hm, Nat.add_sub_cancel_left, List.map_append, List.map_map, hbytes, List.append_assoc]
    exact hstream
  · have hne : c.addr ≠ a := by
      obtain ⟨d, hd, haddr, hdir, -⟩ := hr.waiting a List.mem_cons_self
      intro heq
      obtain rfl := ht.eq_of_addr hc hd (heq.trans haddr.symm)
      rw [hwrite] at hdir
      cases hdir
    simp only [PipeState.transferRead, Function.update_of_ne hne] at hwritten
    exact h.last c hc hwrite hwait hwritten

theorem Streamed.transferWrite (h : Streamed s) (hl : Ledger s) (ht : Tidy s)
    (hw : Queued s true (a :: ws)) : Streamed (s.transferWrite a) := by
  have hpos := h.pos
  have hcount := h.count
  obtain ⟨c, hc, rfl, hwrite, hwait⟩ := hw.waiting a List.mem_cons_self
  have hcall := (ht.record c hc).2
  have hfirst : s.waiting_writes.first = some c.addr := hw.chain.1
  obtain ⟨request, hreq, hdir, hrec⟩ := hl.record c hc
  rw [hwrite] at hdir
  have hbuffer := hrec.buffer
  rw [hdir] at hbuffer
  simp only [if_true] at hbuffer
  have hlen : (s.ops c.addr).buffer.length = (s.ops c.addr).size := by
    have hsize := hrec.size
    have : request.size = request.bytes.length := by
      cases request with
      | read size => cases hdir
      | write bytes => rfl
    rw [hbuffer, List.length_drop]
    omega
  -- either nothing of this write was accepted yet, or it was the last to be served
  have hends : EndsWith c.call s.accepted := by
    by_cases h0 : (s.ops c.addr).written = 0
    · apply endsWith_of_entries
      have hbytes := hrec.bytes hdir
      rw [h0, List.take_zero] at hbytes
      simpa [transferred, hdir] using hbytes
    · exact (h.last c hc hwrite hwait h0).2
  have hends' := hends.append ((s.ops c.addr).buffer.take (min (capacity - s.count) (s.ops c.addr).size))
  refine ⟨hpos, ?_, ?_, fun call => ?_, fun d hd hdw hdwait hwritten => ?_⟩
  · simp only [PipeState.transferWrite]
    omega
  · simp only [PipeState.transferWrite]
    generalize hn : min (capacity - s.count) (s.ops c.addr).size = n
    have htake : ((s.ops c.addr).buffer.take n).length = n := by
      rw [List.length_take]
      omega
    have hring := Ring.contents_writeWrapped s.buffer s.count ((s.ops c.addr).buffer.take n) hpos (by omega)
    rw [htake] at hring
    have hsnd : ((s.ops c.addr).buffer.take n).map (Prod.snd ∘ fun x => ((s.ops c.addr).call, x)) =
        (s.ops c.addr).buffer.take n := List.map_id _
    rw [hring, List.map_append, List.map_map, hsnd, ← h.stream, List.append_assoc]
  · simp only [PipeState.transferWrite, hcall]
    by_cases heq : call = c.call
    · rw [heq]
      exact hends'.contiguous
    · exact (h.contiguous call).append (Ne.symm heq) _
  · have hdc : d = c := by
      by_contra hne
      have haddr : d.addr ≠ c.addr := fun he => hne (ht.eq_of_addr hd hc he)
      simp only [PipeState.transferWrite, Function.update_of_ne haddr] at hwritten
      have := (h.last d hd hdw hdwait hwritten).1
      rw [hfirst] at this
      exact haddr (Option.some.inj this).symm
    subst hdc
    refine ⟨hfirst, ?_⟩
    simp only [PipeState.transferWrite, hcall]
    exact hends'

theorem Streamed.popped_read (h : Streamed s) : Streamed (popped s false a why) := by
  refine ⟨h.pos, h.count, h.stream, h.contiguous, fun c hc hwrite hwait hwritten => ?_⟩
  obtain ⟨d, hd, rfl⟩ := mem_wake.mp hc
  split_ifs at hwrite hwait hwritten ⊢
  exact h.last d hd hwrite hwait hwritten

theorem Streamed.popped_write (h : Streamed s) (ht : Tidy s) (hw : Queued s true (a :: ws)) :
    Streamed (popped s true a why) := by
  refine ⟨h.pos, h.count, h.stream, h.contiguous, fun c hc hwrite hwait hwritten => ?_⟩
  exfalso
  obtain ⟨d, hd, rfl⟩ := mem_wake.mp hc
  split_ifs at hwrite hwait hwritten with htask
  have haddr := (h.last d hd hwrite hwait hwritten).1
  rw [show s.waiting_writes.first = some a from hw.chain.1] at haddr
  apply htask
  rw [Option.some.inj haddr]
  exact (ht.record d hd).1.symm

theorem Turn.streamed (hturn : Turn s t) (h : Streamed s) (hl : Ledger s) : Streamed t := by
  cases hturn with
  | readMore ht hr hw hsize hopen => exact h.transferRead ht hr
  | readEnd ht hr hw hgo => exact (h.transferRead ht hr).popped_read
  | writeMore ht hr hw hsize hroom => exact h.transferWrite hl ht hw
  | @writeEnd a rs ws ht hr hw hsize hroom =>
    have hsame := sameControl_transferWrite s a
    exact (h.transferWrite hl ht hw).popped_write (hsame.tidy ht) (hsame.queued hw)

theorem Streamed.turns (h : Streamed s) (hl : Ledger s) (hturns : Relation.ReflTransGen Turn s t) :
    Streamed t := by
  have hboth : Streamed t ∧ Ledger t := by
    induction hturns with
    | refl => exact ⟨h, hl⟩
    | tail _ hturn ih => exact ⟨hturn.streamed ih.1 ih.2, hturn.ledger ih.2⟩
  exact hboth.1

end Turns

/-- A step of a run without signals. -/
def Unsignalled (s : PipeState) (act : PipeAction) : Prop :=
  Enabled s act ∧ act.isSignal = false

/-- No call is put behind one that has returned either. -/
def Undisturbed (s : PipeState) (act : PipeAction) : Prop :=
  Unsignalled s act ∧ Spared s act

instance (s : PipeState) (act : PipeAction) : Decidable (Unsignalled s act) :=
  inferInstanceAs (Decidable (_ ∧ _))

instance (s : PipeState) (act : PipeAction) : Decidable (Undisturbed s act) :=
  inferInstanceAs (Decidable (_ ∧ _))

theorem Undisturbed.orderly {s : PipeState} {act : PipeAction} (h : Undisturbed s act) :
    Enabled s act ∧ Spared s act := ⟨h.1.1, h.2⟩

/-- What readers get and what calls return, in terms of what writers gave. -/
structure StreamIntact (s : PipeState) : Prop where
  stream : s.delivered.map Prod.snd ++ Ring.contents s.buffer capacity s.read_pos s.count =
    s.accepted.map Prod.snd
  count : s.count ≤ capacity
  pos : s.read_pos < capacity
  contiguous : ∀ call, Contiguous call s.accepted
  initial : ∀ (call : ℕ) bytes, s.requests[call]? = some (.write bytes) → entries s.accepted call <+: bytes
  reported : ∀ r ∈ s.results, ∃ request, s.requests[r.call]? = some request ∧ Reported s request r

section Steps
variable {s t : PipeState} {task a : ℕ} {request : Request} {rs ws : List ℕ} {act : PipeAction}

/-- A new call has not been served, and the head of a queue stays the head. -/
theorem Streamed.startWaiting (h : Streamed s) (hnew : ∀ c ∈ s.active, c.task ≠ task ∧ c.addr ≠ a)
    (hl : OnlyLinks (s.startWaiting task a request) t)
    (hfirst : s.waiting_writes.first ≠ none → t.waiting_writes.first = s.waiting_writes.first) :
    Streamed t := by
  have hactive : t.active = (s.startWaiting task a request).active := (congrArg PipeState.active hl.rest :)
  have haccepted : t.accepted = s.accepted := (congrArg PipeState.accepted hl.rest :)
  have hdelivered : t.delivered = s.delivered := (congrArg PipeState.delivered hl.rest :)
  have hpos : t.read_pos = s.read_pos := (congrArg PipeState.read_pos hl.rest :)
  have hcount : t.count = s.count := (congrArg PipeState.count hl.rest :)
  have hbuffer : t.buffer = s.buffer := (congrArg PipeState.buffer hl.rest :)
  refine ⟨?_, ?_, ?_, ?_, fun c hc hwrite hwait hwritten => ?_⟩
  · rw [hpos]
    exact h.pos
  · rw [hcount]
    exact h.count
  · rw [hdelivered, hbuffer, hpos, hcount, haccepted]
    exact h.stream
  · rw [haccepted]
    exact h.contiguous
  · obtain ⟨n, hn⟩ := hl.ops c.addr
    rw [hn] at hwritten
    rw [hactive] at hc
    rcases List.mem_append.mp hc with hc | hc
    · simp only [PipeState.startWaiting, Function.update_of_ne (hnew c hc).2] at hwritten
      obtain ⟨hhead, hends⟩ := h.last c hc hwrite hwait hwritten
      rw [haccepted, hfirst (by rw [hhead]; simp)]
      exact ⟨hhead, hends⟩
    · obtain rfl := List.mem_singleton.mp hc
      simp [PipeState.startWaiting] at hwritten

theorem pipeStep_streamed (h : AtRest s rs ws) (hl : Ledger s) (hst : Streamed s) (he : Undisturbed s act)
    (hstep : pipeStep s act = some t) : Streamed t := by
  obtain ⟨⟨he, hno⟩, hs⟩ := he
  cases act with
  | call task a request block =>
    rcases executePipeOperation_spec h he hs with ⟨ret, hret, -⟩ |
      ⟨w, u, rs', ws', -, -, hlinks, hfirst, hturns, hu, -⟩
    · obtain rfl := Option.some.inj (hret.symm.trans hstep)
      exact ⟨hst.pos, hst.count, hst.stream, hst.contiguous, hst.last⟩
    · obtain rfl := Option.some.inj (hu.symm.trans hstep)
      have hlw := (hl.startWaiting request he.2.2).onlyLinks hlinks
      exact (hst.startWaiting he.2.2 hlinks (hfirst true)).turns hlw hturns
  | finish task =>
    obtain ⟨c, -, -, -, hfin, -⟩ := h.finish he
    obtain rfl := Option.some.inj (hfin.symm.trans hstep)
    refine ⟨hst.pos, hst.count, hst.stream, hst.contiguous, fun d hd => ?_⟩
    exact hst.last d (List.mem_filter.mp hd).1
  | interrupt task => cases hno
  | copy for_write =>
    cases hstep
    exact ⟨hst.pos, hst.count, hst.stream, hst.contiguous, hst.last⟩
  | close for_write =>
    have hd : Streamed (dropped s for_write) :=
      ⟨hst.pos, hst.count, hst.stream, hst.contiguous, hst.last⟩
    rcases freePipeSharedData_spec h he with ⟨hfree, -⟩ | ⟨u, rs', ws', hu, hturns, -⟩
    · obtain rfl := Option.some.inj (hfree.symm.trans hstep)
      exact hd
    · obtain rfl := Option.some.inj (hu.symm.trans hstep)
      exact hd.turns (hl.dropped for_write) hturns

theorem created_streamed (for_write : Bool) (buffer : ByteStore.Store) (ops : ℕ → WaitingPipeOperation) :
    Streamed (PipeState.createPipeSharedData for_write buffer ops) := by
  refine ⟨(by decide : 0 < capacity), Nat.zero_le _, rfl, fun call => ⟨[], [], [], ?_⟩, ?_⟩
  · simp [PipeState.createPipeSharedData]
  · simp [PipeState.createPipeSharedData]

/-- In every run of reads and writes without signals, in which no call is put behind one that
has returned, the stream of the pipe is intact, and every further step has a result. -/
theorem runs_stream_intact {for_write : Bool} {buffer : ByteStore.Store} {ops : ℕ → WaitingPipeOperation}
    {acts : List PipeAction}
    (hr : Runs pipeStep Undisturbed (PipeState.createPipeSharedData for_write buffer ops) acts t) :
    StreamIntact t ∧ ∀ act, Undisturbed t act → ∃ u, pipeStep t act = some u := by
  have hinv : (∃ rs ws, AtRest t rs ws) ∧ Ledger t ∧ Streamed t := by
    refine hr.invariant (I := fun s => (∃ rs ws, AtRest s rs ws) ∧ Ledger s ∧ Streamed s) ?_
      ⟨⟨[], [], created_atRest _ _ _⟩, created_ledger _ _ _, created_streamed _ _ _⟩
    rintro s act t ⟨⟨rs, ws, hrest⟩, hl, hst⟩ hok hstep
    obtain ⟨he, hs⟩ := hok.orderly
    obtain ⟨u, rs', ws', hu, hrest'⟩ := pipeStep_atRest hrest he hs
    obtain rfl := Option.some.inj (hu.symm.trans hstep)
    exact ⟨⟨rs', ws', hrest'⟩, pipeStep_ledger hrest hl he hs hstep, pipeStep_streamed hrest hl hst hok hstep⟩
  obtain ⟨⟨rs, ws, hrest⟩, hl, hst⟩ := hinv
  refine ⟨⟨hst.stream, hst.count, hst.pos, hst.contiguous, hl.initial, fun r hr => (hl.result r hr).2⟩,
    fun act hok => ?_⟩
  obtain ⟨he, hs⟩ := hok.orderly
  obtain ⟨u, -, -, hu, -⟩ := pipeStep_atRest hrest he hs
  exact ⟨u, hu⟩

end Steps

def newPipe : PipeState := PipeState.createPipeSharedData true (fun _ => 0) (fun _ => ⟨0, [], 0, 0, 0, none⟩)

/-- Two writers wait behind each other at a full ring, the first one returns. -/
def twoWriters : List PipeAction :=
  [.copy false, .call 1 1 (.write (List.replicate 513 7)) true, .call 2 2 (.write [8]) true,
    .call 3 3 (.read 1) true, .finish 1, .finish 3]

/-- Their bytes are in the ring, and the read of all of them is a step that has a result. -/
theorem runs_stream_intact_two_writers :
    ∃ t, execOk pipeStep Undisturbed newPipe twoWriters = some t ∧ t.delivered = [(2, 7)] ∧ t.count = 512 ∧
      StreamIntact t ∧ ∃ u, pipeStep t (.call 3 3 (.read 600) true) = some u := by
  have hsome : (execOk pipeStep Undisturbed newPipe twoWriters).map (fun t =>
      (t.delivered, t.count, decide (Undisturbed t (.call 3 3 (.read 600) true)))) =
      some ([(2, 7)], 512, true) := by
    decide +kernel
  obtain ⟨t, ht, hfields⟩ := Option.map_eq_some_iff.mp hsome
  simp only [Prod.mk.injEq, decide_eq_true_eq] at hfields
  obtain ⟨hdel, hcount, hok⟩ := hfields
  obtain ⟨hintact, hnext⟩ := runs_stream_intact (.of_execOk ht)
  exact ⟨t, ht, hdel, hcount, hintact, hnext _ hok⟩

/-- The record of the next writer is stored behind that of the one that has returned, which is
not memory of the pipe any more. -/
theorem stream_not_intact :
    ∃ t, execOk pipeStep Unsignalled newPipe twoWriters = some t ∧ t.queued true = some [2] ∧
      t.waiting_writes.tail = some 1 ∧ (∀ c ∈ t.active, c.addr ≠ 1) ∧ Unsignalled t (.call 3 3 (.write [9]) true) ∧
      pipeStep t (.call 3 3 (.write [9]) true) = none := by
  have hsome : (execOk pipeStep Unsignalled newPipe twoWriters).map (fun t =>
      (t.queued true, t.waiting_writes.tail, decide (∀ c ∈ t.active, c.addr ≠ 1),
        decide (Unsignalled t (.call 3 3 (.write [9]) true)),
        (pipeStep t (.call 3 3 (.write [9]) true)).isNone)) = some (some [2], some 1, true, true, true) := by
    decide +kernel
  obtain ⟨t, ht, hfields⟩ := Option.map_eq_some_iff.mp hsome
  simp only [Prod.mk.injEq, decide_eq_true_eq, Option.isNone_iff_eq_none] at hfields
  obtain ⟨hqueued, htail, hgone, hok, hnone⟩ := hfields
  exact ⟨t, ht, hqueued, htail, hgone, hok, hnone⟩

end SomeOs.Pipe
