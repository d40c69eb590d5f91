import SomeOs.Pipe.Steps

/-! # What calls have transferred

The bytes that were accepted from a write are its first ones, and the record of a call
and the result it returns count the bytes that were transferred for it.
-/
namespace SomeOs.Pipe
open LinkedList

def entries (l : List (ℕ × UInt8)) (call : ℕ) : List UInt8 :=
  (l.filter (fun x => x.1 == call)).map Prod.snd

def transferred (s : PipeState) (request : Request) (call : ℕ) : List UInt8 :=
  entries (if request.isWrite then s.accepted else s.delivered) call

structure RecordOf (s : PipeState) (op : WaitingPipeOperation) (request : Request) (call : ℕ) : Prop where
  size : op.size + op.written = request.size
  written : (transferred s request call).length = op.written
  buffer : op.buffer = if request.isWrite then request.bytes.drop op.written else transferred s request call
  bytes : request.isWrite → transferred s request call = request.bytes.take op.written

/-- The number of bytes that a call returns is that of the bytes transferred for it. -/
def Reported (s : PipeState) (request : Request) (r : CallResult) : Prop :=
  match r.ret with
  | .success ret => (transferred s request r.call).length = ret
  | .eintr ret => (transferred s request r.call).length = ret
  | .eagain => transferred s request r.call = []

structure Ledger (s : PipeState) : Prop where
  accepted : ∀ x ∈ s.accepted, x.1 < s.requests.length
  delivered : ∀ x ∈ s.delivered, x.1 < s.requests.length
  record : ∀ c ∈ s.active, ∃ request, s.requests[c.call]? = some request ∧ request.isWrite = c.write ∧
    RecordOf s (s.ops c.addr) request c.call
  result : ∀ r ∈ s.results, (∀ c ∈ s.active, c.call ≠ r.call) ∧
    ∃ request, s.requests[r.call]? = some request ∧ Reported s request r
  initial : ∀ (call : ℕ) bytes, s.requests[call]? = some (.write bytes) → entries s.accepted call <+: bytes

section Entries
variable {l : List (ℕ × UInt8)} {bytes : List UInt8} {call k : ℕ}

theorem entries_append_self : entries (l ++ bytes.map (call, ·)) call = entries l call ++ bytes := by
  simp only [entries, List.filter_append, List.map_append]
  congr 1
  induction bytes with
  | nil => rfl
  | cons b bytes ih => simpa using ih

theorem entries_append_ne (h : k ≠ call) : entries (l ++ bytes.map (call, ·)) k = entries l k := by
  simp only [entries, List.filter_append, List.map_append]
  have hnone : (bytes.map (call, ·)).filter (fun x => x.1 == k) = [] := by
    rw [List.filter_eq_nil_iff]
    intro x hx
    obtain ⟨b, -, rfl⟩ := List.mem_map.mp hx
    simpa using Ne.symm h
  rw [hnone, List.map_nil, List.append_nil]

theorem entries_eq_nil (h : ∀ x ∈ l, x.1 ≠ call) : entries l call = [] := by
  unfold entries
  rw [List.filter_eq_nil_iff.mpr, List.map_nil]
  intro x hx
  simpa using h x hx

end Entries

section Turns
variable {s t u : PipeState} {a : ℕ} {l rs ws : List ℕ} {write : Bool} {why : Wake} {task : ℕ}

theorem Ledger.wake (h : Ledger s) : Ledger (s.wake task why) where
  accepted := h.accepted
  delivered := h.delivered
  record := by
    intro c hc
    obtain ⟨d, hd, haddr, -, hcall, hwrite⟩ := of_mem_wake hc
    obtain ⟨request, hreq, hdir, hrec⟩ := h.record d hd
    rw [haddr, hcall, hwrite]
    exact ⟨request, hreq, hdir, hrec.size, hrec.written, hrec.buffer, hrec.bytes⟩
  result := by
    intro r hr
    refine ⟨fun c hc => ?_, (h.result r hr).2⟩
    obtain ⟨d, hd, -, -, hcall, -⟩ := of_mem_wake hc
    rw [hcall]
    exact (h.result r hr).1 d hd
  initial := h.initial

theorem Ledger.onlyLinks (h : Ledger s) (hl : OnlyLinks s t) : Ledger t := by
  have hactive : t.active = s.active := (congrArg PipeState.active hl.rest :)
  have hrequests : t.requests = s.requests := (congrArg PipeState.requests hl.rest :)
  have hresults : t.results = s.results := (congrArg PipeState.results hl.rest :)
  have haccepted : t.accepted = s.accepted := (congrArg PipeState.accepted hl.rest :)
  have hdelivered : t.delivered = s.delivered := (congrArg PipeState.delivered hl.rest :)
  have htrans : ∀ request call, transferred t request call = transferred s request call := by
    intro request call
    simp only [transferred, haccepted, hdelivered]
  constructor
  · rw [haccepted, hrequests]
    exact h.accepted
  · rw [hdelivered, hrequests]
    exact h.delivered
  · rw [hactive, hrequests]
    intro c hc
    obtain ⟨request, hreq, hdir, hrec⟩ := h.record c hc
    obtain ⟨n, hn⟩ := hl.ops c.addr
    refine ⟨request, hreq, hdir, ?_⟩
    rw [hn]
    exact ⟨hrec.size, by rw [htrans]; exact hrec.written, by rw [htrans]; exact hrec.buffer,
      by rw [htrans]; exact hrec.bytes⟩
  · rw [hactive, hrequests, hresults]
    intro r hr
    obtain ⟨hne, request, hreq, hrep⟩ := h.result r hr
    refine ⟨hne, request, hreq, ?_⟩
    simp only [Reported, htrans]
    exact hrep
  · rw [hrequests, haccepted]
    exact h.initial

/-- A transfer for one record, in terms of the bytes it moves. -/
theorem Ledger.transfer (bytes : List UInt8) {op : WaitingPipeOperation} {c : ActiveCall} (h : Ledger s)
    (ht : Tidy s) (hc : c ∈ s.active) (hactive : t.active = s.active)
    (hrequests : t.requests = s.requests) (hresults : t.results = s.results)
    (hops : t.ops = Function.update s.ops c.addr op)
    (haccepted : t.accepted = if c.write then s.accepted ++ bytes.map (c.call, ·) else s.accepted)
    (hdelivered : t.delivered = if c.write then s.delivered else s.delivered ++ bytes.map (c.call, ·))
    (hrec : ∀ request, s.requests[c.call]? = some request → request.isWrite = c.write →
      RecordOf s (s.ops c.addr) request c.call → RecordOf t op request c.call) : Ledger t := by
  have hlt := ht.old c hc
  have hother : ∀ request k, k ≠ c.call → transferred t request k = transferred s request k := by
    intro request k hk
    simp only [transferred, haccepted, hdelivered]
    cases c.write <;> simp only [Bool.false_eq_true, if_true, if_false] <;> split_ifs <;>
      first | rfl | exact entries_append_ne hk
  constructor
  · intro x hx
    rw [haccepted] at hx
    rw [hrequests]
    split_ifs at hx
    · rcases List.mem_append.mp hx with hx | hx
      · exact h.accepted x hx
      · obtain ⟨b, -, rfl⟩ := List.mem_map.mp hx
        exact hlt
    · exact h.accepted x hx
  · intro x hx
    rw [hdelivered] at hx
    rw [hrequests]
    split_ifs at hx
    · exact h.delivered x hx
    · rcases List.mem_append.mp hx with hx | hx
      · exact h.delivered x hx
      · obtain ⟨b, -, rfl⟩ := List.mem_map.mp hx
        exact hlt
  · rw [hactive, hrequests]
    intro d hd
    obtain ⟨request, hreq, hdir, hrecord⟩ := h.record d hd
    refine ⟨request, hreq, hdir, ?_⟩
    by_cases hdc : d = c
    · subst hdc
      rw [hops, Function.update_self]
      exact hrec request hreq hdir hrecord
    · have haddr : d.addr ≠ c.addr := fun he => hdc (ht.eq_of_addr hd hc he)
      have hcall : d.call ≠ c.call := fun he => hdc (List.inj_on_of_nodup_map ht.calls hd hc he)
      rw [hops, Function.update_of_ne haddr]
      have htr := hother request d.call hcall
      exact ⟨hrecord.size, by rw [htr]; exact hrecord.written, by rw [htr]; exact hrecord.buffer,
        by rw [htr]; exact hrecord.bytes⟩
  · rw [hactive, hrequests, hresults]
    intro r hr
    obtain ⟨hne, request, hreq, hrep⟩ := h.result r hr
    refine ⟨hne, request, hreq, ?_⟩
    simp only [Reported, hother request r.call (Ne.symm (hne c hc))]
    exact hrep
  · rw [hrequests]
    intro call bs hreq
    by_cases hcall : call = c.call
    · subst hcall
      obtain ⟨request, hreq', hdir, hrecord⟩ := h.record c hc
      have hsame : request = .write bs := by
        rw [hreq'] at hreq
        exact Option.some.inj hreq
      have hrecord' := (hrec request hreq' hdir hrecord).bytes
      subst hsame
      have heq : entries t.accepted c.call = bs.take op.written := hrecord' rfl
      rw [heq]
      exact List.take_prefix _ _
    · have heq : entries t.accepted call = entries s.accepted call := hother (.write bs) call hcall
      rw [heq]
      exact h.initial call bs hreq

theorem readWrapped_length (buf : ByteStore.Store) (cap pos n : ℕ) :
    (Ring.readWrapped buf cap pos n).length = n := by
  unfold Ring.readWrapped
  split_ifs with h <;> simp
  omega

theorem Ledger.transferRead (h : Ledger s) (ht : Tidy s) (hr : Queued s false (a :: rs)) :
    Ledger (s.transferRead a) := by
  obtain ⟨c, hc, rfl, hwrite, -⟩ := hr.waiting a List.mem_cons_self
  have hcall := (ht.record c hc).2
  refine h.transfer (Ring.readWrapped s.buffer capacity s.read_pos (min s.count (s.ops c.addr).size))
    ht hc rfl rfl rfl rfl ?_ ?_ ?_
  · simp [PipeState.transferRead, hwrite]
  · simp [PipeState.transferRead, hwrite, hcall]
  · intro request hreq hdir hrec
    rw [hwrite] at hdir
    have htr : transferred (s.transferRead c.addr) request c.call = transferred s request c.call ++
        Ring.readWrapped s.buffer capacity s.read_pos (min s.count (s.ops c.addr).size) := by
      simp only [transferred, hdir, Bool.false_eq_true, if_false, PipeState.transferRead, hcall,
        entries_append_self]
    have hsize := hrec.size
    have hbuffer := hrec.buffer
    rw [hdir] at hbuffer
    refine ⟨?_, ?_, ?_, fun h => ?_⟩
    · simp only
      omega
    · rw [htr, List.length_append, hrec.written, readWrapped_length]
    · rw [htr, hdir]
      simp only [Bool.false_eq_true, if_false] at hbuffer ⊢
      rw [hbuffer]
    · rw [hdir] at h
      cases h

theorem Ledger.transferWrite (h : Ledger s) (ht : Tidy s) (hw : Queued s true (a :: ws)) :
    Ledger (s.transferWrite a) := by
  obtain ⟨c, hc, rfl, hwrite, -⟩ := hw.waiting a List.mem_cons_self
  have hcall := (ht.record c hc).2
  refine h.transfer ((s.ops c.addr).buffer.take (min (capacity - s.count) (s.ops c.addr).size))
    ht hc rfl rfl rfl rfl ?_ ?_ ?_
  · simp [PipeState.transferWrite, hwrite, hcall]
  · simp [PipeState.transferWrite, hwrite]
  · intro request hreq hdir hrec
    rw [hwrite] at hdir
    have htr : transferred (s.transferWrite c.addr) request c.call = transferred s request c.call ++
        (s.ops c.addr).buffer.take (min (capacity - s.count) (s.ops c.addr).size) := by
      simp only [transferred, hdir, if_true, PipeState.transferWrite, hcall, entries_append_self]
    have hsize := hrec.size
    have hbuffer := hrec.buffer
    have hbytes := hrec.bytes hdir
    rw [hdir] at hbuffer
    simp only [if_true] at hbuffer
    have hlen : request.size = request.bytes.length := by
      cases request with
      | read size => cases hdir
      | write bytes => rfl
    have hrest : (s.ops c.addr).buffer.length = (s.ops c.addr).size := by
      rw [hbuffer, List.length_drop]
      omega
    refine ⟨?_, ?_, ?_, fun _ => ?_⟩
    · simp only
      omega
    · rw [htr, List.length_append, hrec.written, List.length_take, hrest]
      simp only
      omega
    · rw [hdir]
      simp only [if_true]
      rw [hbuffer, List.drop_drop]
    · rw [htr, hbytes, hbuffer, List.take_add]

theorem Ledger.popped (h : Ledger s) : Ledger (popped s write a why) := by
  have hl : OnlyLinks s (s.setQueue write (s.behind write a)) := onlyLinks_setQueue _ _ _
  exact (h.onlyLinks hl).wake

theorem Turn.ledger (hturn : Turn s t) (h : Ledger s) : Ledger t := by
  cases hturn with
  | readMore ht hr hw hsize hopen => exact h.transferRead ht hr
  | readEnd ht hr hw hgo => exact (h.transferRead ht hr).popped
  | writeMore ht hr hw hsize hroom => exact h.transferWrite ht hw
  | writeEnd ht hr hw hsize hroom => exact (h.transferWrite ht hw).popped

theorem Ledger.turns (h : Ledger s) (hturns : Relation.ReflTransGen Turn s t) : Ledger t := by
  induction hturns with
  | refl => exact h
  | tail _ hturn ih => exact hturn.ledger ih

end Turns

section Steps
variable {s t : PipeState} {task a : ℕ} {request : Request} {rs ws : List ℕ}

theorem transferred_new (h : Ledger s) (request : Request) : transferred s request s.requests.length = [] := by
  apply entries_eq_nil
  intro x hx
  split_ifs at hx
  · exact Nat.ne_of_lt (h.accepted x hx)
  · exact Nat.ne_of_lt (h.delivered x hx)

theorem getElem?_requests {requests : List Request} {call : ℕ} {r : Request} (h : requests[call]? = some r)
    (request : Request) : (requests ++ [request])[call]? = some r := by
  rw [List.getElem?_append_left (List.getElem?_eq_some_iff.mp h).1]
  exact h

theorem Ledger.initial_append (h : Ledger s) (request : Request) (call : ℕ) (bytes : List UInt8)
    (hreq : (s.requests ++ [request])[call]? = some (.write bytes)) : entries s.accepted call <+: bytes := by
  by_cases hlt : call < s.requests.length
  · rw [List.getElem?_append_left hlt] at hreq
    exact h.initial call bytes hreq
  · have hnone : entries s.accepted call = [] :=
      entries_eq_nil (fun x hx => by have := h.accepted x hx; omega)
    rw [hnone]
    exact List.nil_prefix

theorem Ledger.answer (h : Ledger s) (ht : Tidy s) {ret : PipeReturn} (hret : ret = .success 0 ∨ ret = .eagain) :
    Ledger (s.answer request ret) where
  accepted := fun x hx => by
    simp only [PipeState.answer, List.length_append]
    exact Nat.lt_add_right _ (h.accepted x hx)
  delivered := fun x hx => by
    simp only [PipeState.answer, List.length_append]
    exact Nat.lt_add_right _ (h.delivered x hx)
  record := by
    intro c hc
    obtain ⟨r, hreq, hdir, hrec⟩ := h.record c hc
    exact ⟨r, getElem?_requests hreq _, hdir, hrec.size, hrec.written, hrec.buffer, hrec.bytes⟩
  result := by
    intro r hr
    rcases List.mem_append.mp hr with hr | hr
    · obtain ⟨hne, r', hreq, hrep⟩ := h.result r hr
      exact ⟨hne, r', getElem?_requests hreq _, hrep⟩
    · obtain rfl := List.mem_singleton.mp hr
      refine ⟨fun c hc => Nat.ne_of_lt (ht.old c hc), request, by simp [PipeState.answer], ?_⟩
      have hnew : transferred (s.answer request ret) request s.requests.length = [] :=
        transferred_new h request
      rcases hret with rfl | rfl
      · simp only [Reported, hnew, List.length_nil]
      · exact hnew
  initial := h.initial_append request

variable (request) in
theorem Ledger.startWaiting (h : Ledger s) (hnew : ∀ c ∈ s.active, c.task ≠ task ∧ c.addr ≠ a) :
    Ledger (s.startWaiting task a request) where
  accepted := fun x hx => by
    simp only [PipeState.startWaiting, List.length_append]
    exact Nat.lt_add_right _ (h.accepted x hx)
  delivered := fun x hx => by
    simp only [PipeState.startWaiting, List.length_append]
    exact Nat.lt_add_right _ (h.delivered x hx)
  record := by
    intro c hc
    rcases List.mem_append.mp hc with hc | hc
    · obtain ⟨r, hreq, hdir, hrec⟩ := h.record c hc
      refine ⟨r, getElem?_requests hreq _, hdir, ?_⟩
      simp only [PipeState.startWaiting, Function.update_of_ne (hnew c hc).2]
      exact ⟨hrec.size, hrec.written, hrec.buffer, hrec.bytes⟩
    · obtain rfl := List.mem_singleton.mp hc
      refine ⟨request, by simp [PipeState.startWaiting], rfl, ?_⟩
      have hnone : transferred (s.startWaiting task a request) request s.requests.length = [] :=
        transferred_new h request
      have hop : (s.startWaiting task a request).ops a =
          ⟨s.requests.length, request.bytes, request.size, 0, task, none⟩ := Function.update_self ..
      rw [hop]
      refine ⟨rfl, ?_, ?_, fun _ => ?_⟩
      · rw [hnone]
        rfl
      · rw [hnone]
        cases request <;> rfl
      · rw [hnone]
        rfl
  result := by
    intro r hr
    obtain ⟨hne, r', hreq, hrep⟩ := h.result r hr
    refine ⟨fun c hc => ?_, r', getElem?_requests hreq _, hrep⟩
    rcases List.mem_append.mp hc with hc | hc
    · exact hne c hc
    · obtain rfl := List.mem_singleton.mp hc
      exact Ne.symm (Nat.ne_of_lt (List.getElem?_eq_some_iff.mp hreq).1)
  initial := h.initial_append request

theorem Ledger.returned (h : Ledger s) (ht : Tidy s) {c : ActiveCall} (hc : c ∈ s.active)
    (htask : c.task = task) : Ledger (Pipe.returned s task c) where
  accepted := h.accepted
  delivered := h.delivered
  record := by
    intro d hd
    obtain ⟨r, hreq, hdir, hrec⟩ := h.record d (List.mem_filter.mp hd).1
    exact ⟨r, hreq, hdir, hrec.size, hrec.written, hrec.buffer, hrec.bytes⟩
  result := by
    intro r hr
    rcases List.mem_append.mp hr with hr | hr
    · obtain ⟨hne, hrep⟩ := h.result r hr
      exact ⟨fun d hd => hne d (List.mem_filter.mp hd).1, hrep⟩
    · obtain rfl := List.mem_singleton.mp hr
      obtain ⟨request, hreq, hdir, hrec⟩ := h.record c hc
      refine ⟨fun d hd hcall => ?_, request, hreq, ?_⟩
      · obtain ⟨hd, hne⟩ := List.mem_filter.mp hd
        obtain rfl := List.inj_on_of_nodup_map ht.calls hd hc hcall
        simp [htask] at hne
      · have hwritten : (transferred (Pipe.returned s task c) request c.call).length = (s.ops c.addr).written :=
          hrec.written
        simp only [Reported]
        split_ifs <;> exact hwritten
  initial := h.initial

theorem Ledger.dropped (h : Ledger s) (for_write : Bool) : Ledger (dropped s for_write) := by
  refine ⟨h.accepted, h.delivered, fun c hc => ?_, h.result, h.initial⟩
  obtain ⟨r, hreq, hdir, hrec⟩ := h.record c hc
  exact ⟨r, hreq, hdir, hrec.size, hrec.written, hrec.buffer, hrec.bytes⟩

/-- Every step keeps the ledger. -/
theorem pipeStep_ledger {act : PipeAction} (h : AtRest s rs ws) (hl : Ledger s) (he : Enabled s act)
    (hs : Spared s act) (hstep : pipeStep s act = some t) : Ledger t := by
  cases act with
  | call task a request block =>
    rcases executePipeOperation_spec h he hs with ⟨ret, hret, hkind⟩ | ⟨w, u, rs', ws', -, -, hlinks, -, hturns, hu, -⟩
    · obtain rfl := Option.some.inj (hret.symm.trans hstep)
      exact hl.answer h.tidy hkind
    · obtain rfl := Option.some.inj (hu.symm.trans hstep)
      exact ((hl.startWaiting request he.2.2).onlyLinks hlinks).turns hturns
  | finish task =>
    obtain ⟨c, hc, htask, -, hfin, -⟩ := h.finish he
    obtain rfl := Option.some.inj (hfin.symm.trans hstep)
    exact hl.returned h.tidy hc htask
  | interrupt task =>
    obtain ⟨c, -, -, -, w, hlinks, hw, -⟩ := handlePipeWakeup_spec h he hs
    obtain rfl := Option.some.inj (hw.symm.trans hstep)
    exact (hl.onlyLinks hlinks).wake
  | copy for_write =>
    cases hstep
    refine ⟨hl.accepted, hl.delivered, fun c hc => ?_, hl.result, hl.initial⟩
    obtain ⟨r, hreq, hdir, hrec⟩ := hl.record c hc
    exact ⟨r, hreq, hdir, hrec.size, hrec.written, hrec.buffer, hrec.bytes⟩
  | close for_write =>
    have hd := hl.dropped for_write
    rcases freePipeSharedData_spec h he with ⟨hfree, -⟩ | ⟨u, rs', ws', hu, hturns, -⟩
    · obtain rfl := Option.some.inj (hfree.symm.trans hstep)
      exact hd
    · obtain rfl := Option.some.inj (hu.symm.trans hstep)
      exact hd.turns hturns

theorem created_ledger (for_write : Bool) (buffer : ByteStore.Store) (ops : ℕ → WaitingPipeOperation) :
    Ledger (PipeState.createPipeSharedData for_write buffer ops) := by
  constructor <;> simp [PipeState.createPipeSharedData]

end Steps

end SomeOs.Pipe
