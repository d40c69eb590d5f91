import SomeOs.Pipe.EndOfFile

/-! # Calls that must not wait

A call that may not wait is refused unless the ring and the calls in the other queue
have enough for it. For a write this is enough to be served at once. A read for more
than there is ends with the last write in the queue, and keeps waiting when this one
has no bytes.
-/
namespace SomeOs.Pipe
open LinkedList Transition

def PipeState.pipeIsReady (s : PipeState) (write : Bool) : Option Bool :=
  if write then s.currentWriteCapacity.map fun n => decide (n ≠ 0)
  else s.currentReadCapacity.map fun n => decide (n ≠ 0 ∨ s.write_count = 0)

def wanted (s : PipeState) (l : List ℕ) : ℕ := (l.map fun b => (s.ops b).size).sum

/-- A turn of the service loop, with the queues before and after it. A reader goes first
when there is something to read. -/
inductive Serving (s : PipeState) : List ℕ → List ℕ → PipeState → List ℕ → List ℕ → Prop
  | readMore {a : ℕ} {rs ws : List ℕ} (hsize : ((s.transferRead a).ops a).size ≠ 0) (hopen : ws ≠ []) :
      Serving s (a :: rs) ws (s.transferRead a) (a :: rs) ws
  | readEnd {a : ℕ} {rs ws : List ℕ} (hgo : s.count ≠ 0 ∨ s.write_count = 0)
      (hend : ((s.transferRead a).ops a).size = 0 ∨ ws = []) :
      Serving s (a :: rs) ws (popped (s.transferRead a) false a (readWake s a)) rs ws
  | writeMore {a : ℕ} {rs ws : List ℕ} (hidle : rs ≠ [] → s.count = 0)
      (hsize : ((s.transferWrite a).ops a).size ≠ 0) (hroom : s.count < capacity) :
      Serving s rs (a :: ws) (s.transferWrite a) rs (a :: ws)
  | writeEnd {a : ℕ} {rs ws : List ℕ} (hidle : rs ≠ [] → s.count = 0)
      (hsize : ((s.transferWrite a).ops a).size = 0) (hroom : s.count < capacity) :
      Serving s rs (a :: ws) (popped (s.transferWrite a) true a .served) rs ws

section Loop
variable {s t u : PipeState} {a : ℕ} {l rs ws rs' ws' : List ℕ} {write : Bool} {why : Wake}

theorem serveRead_serving (ht : Tidy s) (hr : Queued s false (a :: rs)) (hw : Queued s true ws)
    (hgo : s.count ≠ 0 ∨ s.write_count = 0) (h : s.serveRead a = some t) :
    ∃ rs', Serving s (a :: rs) ws t rs' ws ∧ Tidy t ∧ Queued t false rs' ∧ Queued t true ws := by
  have hsame := sameControl_transferRead s a
  have ht' := hsame.tidy ht
  have hr' := hsame.queued hr
  have hw' := hsame.queued hw
  have hfirst : (s.transferRead a).waiting_writes.first = ws.head? := hw'.chain.head_eq
  simp only [PipeState.serveRead] at h
  by_cases hend : ((s.transferRead a).ops a).size = 0 ∨ (s.transferRead a).waiting_writes.first = none
  · rw [if_pos hend] at h
    obtain ⟨hpop, htq, hrq, hwq⟩ := popWaiting_spec (readWake s a) ht' hr' hw'
    obtain rfl := Option.some.inj (hpop.symm.trans h)
    rw [hfirst, List.head?_eq_none_iff] at hend
    exact ⟨rs, .readEnd hgo hend, htq, hrq, hwq⟩
  · rw [if_neg hend] at h
    obtain rfl := Option.some.inj h
    rw [hfirst, List.head?_eq_none_iff, not_or] at hend
    exact ⟨a :: rs, .readMore hend.1 hend.2, ht', hr', hw'⟩

theorem serveWrite_serving (ht : Tidy s) (hr : Queued s false rs) (hw : Queued s true (a :: ws))
    (hidle : rs ≠ [] → s.count = 0) (hroom : s.count < capacity) (h : s.serveWrite a = some t) :
    ∃ ws', Serving s rs (a :: ws) t rs ws' ∧ Tidy t ∧ Queued t false rs ∧ Queued t true ws' := by
  have hsame := sameControl_transferWrite s a
  have ht' := hsame.tidy ht
  have hr' := hsame.queued hr
  have hw' := hsame.queued hw
  simp only [PipeState.serveWrite] at h
  split_ifs at h with hend
  · obtain ⟨hpop, htq, hwq, hrq⟩ := popWaiting_spec .served ht' hw' hr'
    obtain rfl := Option.some.inj (hpop.symm.trans h)
    exact ⟨ws, .writeEnd hidle hend hroom, htq, hrq, hwq⟩
  · obtain rfl := Option.some.inj h
    exact ⟨a :: ws, .writeMore hidle hend hroom, ht', hr', hw'⟩

/-- What every turn keeps holds when the loop has ended. -/
theorem serviceLoop_keeps {I : PipeState → List ℕ → List ℕ → Prop}
    (hI : ∀ {v rs ws w rs' ws'}, Tidy v → Queued v false rs → Queued v true ws → I v rs ws →
      Serving v rs ws w rs' ws' → I w rs' ws')
    {n : ℕ} (ht : Tidy s) (hr : Queued s false rs) (hw : Queued s true ws) (hs : I s rs ws)
    (h : PipeState.serviceLoop n s = some u) : ∃ rs' ws', AtRest u rs' ws' ∧ I u rs' ws' := by
  induction n generalizing s rs ws with
  | zero => cases h
  | succ n ih =>
    have hreads : s.waiting_reads.first = rs.head? := hr.chain.head_eq
    have hwrites : s.waiting_writes.first = ws.head? := hw.chain.head_eq
    simp only [PipeState.serviceLoop] at h
    split at h
    · next a hturn =>
      obtain ⟨t, hserve, h⟩ := Option.bind_eq_some_iff.mp h
      simp only [PipeState.readTurn, Option.ite_none_right_eq_some, hreads] at hturn
      obtain ⟨l, rfl⟩ := List.head?_eq_some_iff.mp hturn.2
      obtain ⟨rs', hturn', ht', hr', hw'⟩ := serveRead_serving ht hr hw hturn.1 hserve
      exact ih ht' hr' hw' (hI ht hr hw hs hturn') h
    · next hturn =>
      have hidle : rs ≠ [] → s.count = 0 ∧ s.write_count ≠ 0 := by
        intro hne
        by_contra hgo
        rw [PipeState.readTurn, if_pos (by omega), hreads, List.head?_eq_none_iff] at hturn
        exact hne hturn
      split at h
      · next a hturn' =>
        obtain ⟨t, hserve, h⟩ := Option.bind_eq_some_iff.mp h
        simp only [PipeState.writeTurn, Option.ite_none_right_eq_some, hwrites] at hturn'
        obtain ⟨l, rfl⟩ := List.head?_eq_some_iff.mp hturn'.2
        obtain ⟨ws', hserving, ht', hr', hw'⟩ :=
          serveWrite_serving ht hr hw (fun hne => (hidle hne).1) hturn'.1 hserve
        exact ih ht' hr' hw' (hI ht hr hw hs hserving) h
      · next hturn' =>
        obtain rfl := Option.some.inj h
        have hfull : ws ≠ [] → capacity ≤ s.count := by
          intro hne
          by_contra hroom
          rw [PipeState.writeTurn, if_pos (by omega), hwrites, List.head?_eq_none_iff] at hturn'
          exact hne hturn'
        refine ⟨rs, ws, ⟨ht, hr, hw, fun hne => ?_, fun hne => ⟨hfull hne, ?_⟩⟩, hs⟩
        · obtain ⟨h0, hopen⟩ := hidle hne
          refine ⟨h0, by_contra fun hws => ?_, hopen⟩
          have hle := hfull hws
          rw [h0] at hle
          exact absurd hle (by decide)
        · by_contra hrs
          have hle := hfull hne
          rw [(hidle hrs).1] at hle
          exact absurd hle (by decide)

end Loop

section Turns
variable {s t : PipeState} {a b : ℕ} {l l' rs ws rs' ws' : List ℕ} {write : Bool} {why : Wake} {c : ActiveCall}

@[simp] theorem popped_ops (s : PipeState) (write : Bool) (a : ℕ) (why : Wake) :
    (popped s write a why).ops = s.ops := by
  cases write <;> rfl

@[simp] theorem popped_count (s : PipeState) (write : Bool) (a : ℕ) (why : Wake) :
    (popped s write a why).count = s.count := by
  cases write <;> rfl

@[simp] theorem popped_write_count (s : PipeState) (write : Bool) (a : ℕ) (why : Wake) :
    (popped s write a why).write_count = s.write_count := by
  cases write <;> rfl

@[simp] theorem popped_requests (s : PipeState) (write : Bool) (a : ℕ) (why : Wake) :
    (popped s write a why).requests = s.requests := by
  cases write <;> rfl

@[simp] theorem popped_results (s : PipeState) (write : Bool) (a : ℕ) (why : Wake) :
    (popped s write a why).results = s.results := by
  cases write <;> rfl

theorem popped_active (s : PipeState) (write : Bool) (a : ℕ) (why : Wake) :
    (popped s write a why).active = (s.wake (s.ops a).wakeup why).active := by
  cases write <;> rfl

theorem transferRead_ops (s : PipeState) (h : b ≠ a) : (s.transferRead a).ops b = s.ops b :=
  Function.update_of_ne h _ _

theorem transferWrite_ops (s : PipeState) (h : b ≠ a) : (s.transferWrite a).ops b = s.ops b :=
  Function.update_of_ne h _ _

theorem transferRead_written (s : PipeState) (a : ℕ) :
    ((s.transferRead a).ops a).written = (s.ops a).written + min s.count (s.ops a).size := by
  simp [PipeState.transferRead]

theorem transferWrite_written (s : PipeState) (a : ℕ) :
    ((s.transferWrite a).ops a).written = (s.ops a).written + min (capacity - s.count) (s.ops a).size := by
  simp [PipeState.transferWrite]

theorem transferRead_count (s : PipeState) (a : ℕ) :
    (s.transferRead a).count = s.count - min s.count (s.ops a).size := rfl

theorem transferWrite_count (s : PipeState) (a : ℕ) :
    (s.transferWrite a).count = s.count + min (capacity - s.count) (s.ops a).size := rfl

theorem wanted_congr (h : ∀ b ∈ l, (t.ops b).size = (s.ops b).size) : wanted t l = wanted s l := by
  unfold wanted
  rw [List.map_congr_left h]

@[simp] theorem wanted_cons (s : PipeState) (a : ℕ) (l : List ℕ) :
    wanted s (a :: l) = (s.ops a).size + wanted s l := by
  simp [wanted]

@[simp] theorem wanted_nil (s : PipeState) : wanted s [] = 0 := rfl

theorem mem_popped (ht : Tidy s) (hc : c ∈ s.active) (haddr : c.addr = a) :
    { c with woken := some why } ∈ (popped s write a why).active := by
  rw [popped_active]
  refine mem_wake.mpr ⟨c, hc, ?_⟩
  rw [if_pos]
  rw [← haddr]
  exact (ht.record c hc).1.symm

theorem mem_popped_other (ht : Tidy s) (hq : Queued s write (a :: l)) (hc : c ∈ s.active) (hne : c.addr ≠ a) :
    c ∈ (popped s write a why).active := by
  obtain ⟨d, hd, rfl, -, -⟩ := hq.waiting a List.mem_cons_self
  rw [popped_active]
  refine mem_wake.mpr ⟨c, hc, ?_⟩
  rw [if_neg]
  intro h
  rw [(ht.record d hd).1] at h
  exact hne (by rw [ht.eq_of_task hc hd h])

theorem Queued.ne_head (hq : Queued s write (a :: l)) : ∀ b ∈ l, b ≠ a := by
  rintro b hb rfl
  exact (List.nodup_cons.mp hq.chain.nodup).1 hb

theorem Queued.ne_across (ht : Tidy s) (hq : Queued s write l) (hq' : Queued s (!write) (a :: l')) :
    ∀ b ∈ l, b ≠ a := by
  rintro b hb rfl
  exact hq.disjoint ht hq' hb List.mem_cons_self

theorem Queued.ne_woken (ht : Tidy s) (hq : Queued s write (a :: l)) (hc : c ∈ s.active) (hwoken : c.woken ≠ none) :
    c.addr ≠ a := by
  obtain ⟨d, hd, rfl, -, hwait⟩ := hq.waiting a List.mem_cons_self
  intro h
  obtain rfl := ht.eq_of_addr hc hd h
  exact hwoken hwait

theorem Serving.woken (h : Serving s rs ws t rs' ws') (ht : Tidy s) (hr : Queued s false rs)
    (hw : Queued s true ws) (hc : c ∈ s.active) (hwoken : c.woken ≠ none) :
    c ∈ t.active ∧ t.ops c.addr = s.ops c.addr := by
  cases h with
  | readMore => exact ⟨hc, transferRead_ops s (hr.ne_woken ht hc hwoken)⟩
  | @readEnd a =>
    have hsame := sameControl_transferRead s a
    have hne := hr.ne_woken ht hc hwoken
    refine ⟨mem_popped_other (hsame.tidy ht) (hsame.queued hr) hc hne, ?_⟩
    rw [popped_ops, transferRead_ops s hne]
  | writeMore => exact ⟨hc, transferWrite_ops s (hw.ne_woken ht hc hwoken)⟩
  | @writeEnd a =>
    have hsame := sameControl_transferWrite s a
    have hne := hw.ne_woken ht hc hwoken
    refine ⟨mem_popped_other (hsame.tidy ht) (hsame.queued hw) hc hne, ?_⟩
    rw [popped_ops, transferWrite_ops s hne]

theorem Turn.logs (h : Turn s t) : t.requests = s.requests ∧ t.results = s.results := by
  cases h <;> simp [PipeState.transferRead, PipeState.transferWrite]

theorem turns_logs (h : Relation.ReflTransGen Turn s t) : t.requests = s.requests ∧ t.results = s.results := by
  induction h with
  | refl => exact ⟨rfl, rfl⟩
  | tail _ hturn ih => exact ⟨hturn.logs.1.trans ih.1, hturn.logs.2.trans ih.2⟩

end Turns

def Served (s : PipeState) (c : ActiveCall) : Prop := { c with woken := some .served } ∈ s.active

/-- The only reader waits for `n` bytes; it and all writers have `total` bytes to give. The
last writer has none, or else the ring has some when there are no more writers. -/
structure Reading (c : ActiveCall) (n total : ℕ) (dry : Prop) (s : PipeState) (rs ws : List ℕ) : Prop where
  reads : rs = [c.addr]
  waiting : c ∈ s.active
  size : (s.ops c.addr).size ≠ 0
  asked : (s.ops c.addr).written + (s.ops c.addr).size = n
  given : (s.ops c.addr).written + s.count + wanted s ws = total
  live : s.count = 0 → s.write_count ≠ 0
  drained : ws = [] → (s.count = 0 ↔ dry)
  last : ∀ b, ws.getLast? = some b → ((s.ops b).size = 0 ↔ dry)

/-- The only writer waits, and there is room for all its bytes in the ring and with the readers. -/
structure Writing (c : ActiveCall) (n : ℕ) (s : PipeState) (rs ws : List ℕ) : Prop where
  writes : ws = [c.addr]
  waiting : c ∈ s.active
  size : (s.ops c.addr).size ≠ 0
  asked : (s.ops c.addr).written + (s.ops c.addr).size = n
  room : (s.ops c.addr).size ≤ capacity - s.count + wanted s rs
  count : s.count ≤ capacity

section Alone
variable {s t u : PipeState} {c : ActiveCall} {n total : ℕ} {dry : Prop} {rs ws rs' ws' : List ℕ}

theorem Served.step (h : Served s c) (ht : Tidy s) (hr : Queued s false rs) (hw : Queued s true ws)
    (hturn : Serving s rs ws t rs' ws') : Served t c ∧ t.ops c.addr = s.ops c.addr :=
  hturn.woken ht hr hw h (Option.some_ne_none _)

/-- The reader waits on, or has got something unless it had to get more than there is and
the last writer has nothing. -/
theorem Reading.step (h : Reading c n total dry s rs ws) (ht : Tidy s) (hr : Queued s false rs)
    (hw : Queued s true ws) (hturn : Serving s rs ws t rs' ws') :
    Reading c n total dry t rs' ws' ∨
      Served t c ∧ 0 < (t.ops c.addr).written ∧ (t.ops c.addr).written ≤ n ∧ ¬(dry ∧ total < n) := by
  obtain ⟨rfl, hwaiting, hsize, hasked, hgiven, hlive, hdrained, hlast⟩ := h
  have hdis := hw.ne_across ht hr
  cases hturn with
  | readMore hmore hopen =>
    have hsame : ∀ b ∈ ws, ((s.transferRead c.addr).ops b).size = (s.ops b).size := fun b hb => by
      rw [transferRead_ops s (hdis b hb)]
    rw [transferRead_size] at hmore
    left
    refine ⟨rfl, hwaiting, ?_, ?_, ?_, fun _ => ht.open_of_queued hw hopen, fun h => absurd h hopen, fun b hb => ?_⟩
    · rw [transferRead_size]
      exact hmore
    · rw [transferRead_size, transferRead_written]
      omega
    · rw [transferRead_written, transferRead_count, wanted_congr hsame]
      omega
    · rw [hsame b (List.mem_of_getLast? hb)]
      exact hlast b hb
  | readEnd hgo hend =>
    have hcount : s.count ≠ 0 := hgo.elim id fun h0 hc => hlive hc h0
    have hwake : readWake s c.addr = .served := if_neg fun h => hcount h.1
    right
    rw [transferRead_size] at hend
    refine ⟨?_, ?_, ?_, fun ⟨hdry, hmore⟩ => ?_⟩
    · rw [hwake]
      exact mem_popped ((sameControl_transferRead s c.addr).tidy ht) hwaiting rfl
    · rw [popped_ops, transferRead_written]
      omega
    · rw [popped_ops, transferRead_written]
      omega
    · rcases hend with hend | hend
      · omega
      · exact hcount ((hdrained hend).mpr hdry)
  | @writeMore b _ ws₁ hidle hmore hroom =>
    have hb : c.addr ≠ b := (hdis b List.mem_cons_self).symm
    have h0 : s.count = 0 := hidle (List.cons_ne_nil _ _)
    have hsame : ∀ d ∈ ws₁, ((s.transferWrite b).ops d).size = (s.ops d).size := fun d hd => by
      rw [transferWrite_ops s (hw.ne_head d hd)]
    left
    rw [wanted_cons] at hgiven
    have hiff : ∀ d ∈ b :: ws₁, (((s.transferWrite b).ops d).size = 0 ↔ (s.ops d).size = 0) := by
      intro d hd
      rcases List.mem_cons.mp hd with rfl | hd
      · rw [transferWrite_size] at hmore ⊢
        omega
      · rw [hsame d hd]
    refine ⟨rfl, hwaiting, ?_, ?_, ?_, fun _ => hlive h0, fun h => absurd h (List.cons_ne_nil _ _), fun d hd => ?_⟩
    · rw [transferWrite_ops s hb]
      exact hsize
    · rw [transferWrite_ops s hb]
      exact hasked
    · rw [transferWrite_ops s hb, transferWrite_count, wanted_cons, wanted_congr hsame, transferWrite_size]
      omega
    · rw [hiff d (List.mem_of_getLast? hd)]
      exact hlast d hd
  | @writeEnd b _ _ hidle hend hroom =>
    have hb : c.addr ≠ b := (hdis b List.mem_cons_self).symm
    have h0 : s.count = 0 := hidle (List.cons_ne_nil _ _)
    have hsame : ∀ d ∈ ws', ((popped (s.transferWrite b) true b .served).ops d).size = (s.ops d).size := fun d hd => by
      rw [popped_ops, transferWrite_ops s (hw.ne_head d hd)]
    have hsame' := sameControl_transferWrite s b
    rw [transferWrite_size] at hend
    rw [wanted_cons] at hgiven
    left
    refine ⟨rfl, mem_popped_other (hsame'.tidy ht) (hsame'.queued hw) hwaiting hb, ?_, ?_, ?_, fun _ => ?_,
      fun hnil => ?_, fun d hd => ?_⟩
    · rw [popped_ops, transferWrite_ops s hb]
      exact hsize
    · rw [popped_ops, transferWrite_ops s hb]
      exact hasked
    · rw [wanted_congr hsame, popped_ops, popped_count, transferWrite_ops s hb, transferWrite_count]
      omega
    · rw [popped_write_count]
      exact hlive h0
    · subst hnil
      rw [← hlast b rfl, popped_count, transferWrite_count]
      omega
    · rw [hsame d (List.mem_of_getLast? hd)]
      refine hlast d ?_
      rw [List.getLast?_cons, hd]
      rfl

/-- The writer waits on with room for all its bytes, or has written them all. -/
theorem Writing.step (h : Writing c n s rs ws) (ht : Tidy s) (hr : Queued s false rs)
    (hw : Queued s true ws) (hturn : Serving s rs ws t rs' ws') :
    Writing c n t rs' ws' ∨ Served t c ∧ (t.ops c.addr).written = n := by
  obtain ⟨rfl, hwaiting, hsize, hasked, hroom, hcount⟩ := h
  cases hturn with
  | @readMore b rs hmore =>
    have hb : c.addr ≠ b := hw.ne_across ht hr c.addr List.mem_cons_self
    have hsame : ∀ d ∈ rs, ((s.transferRead b).ops d).size = (s.ops d).size := fun d hd => by
      rw [transferRead_ops s (hr.ne_head d hd)]
    rw [wanted_cons] at hroom
    left
    refine ⟨rfl, hwaiting, ?_, ?_, ?_, ?_⟩
    · rw [transferRead_ops s hb]
      exact hsize
    · rw [transferRead_ops s hb]
      exact hasked
    · rw [transferRead_ops s hb, transferRead_count, wanted_cons, wanted_congr hsame, transferRead_size]
      omega
    · rw [transferRead_count]
      omega
  | @readEnd b _ _ hgo hend =>
    have hb : c.addr ≠ b := hw.ne_across ht hr c.addr List.mem_cons_self
    have hsame : ∀ d ∈ rs', ((popped (s.transferRead b) false b (readWake s b)).ops d).size = (s.ops d).size :=
      fun d hd => by rw [popped_ops, transferRead_ops s (hr.ne_head d hd)]
    have hsame' := sameControl_transferRead s b
    have hend := hend.resolve_right (List.cons_ne_nil _ _)
    rw [transferRead_size] at hend
    rw [wanted_cons] at hroom
    left
    refine ⟨rfl, mem_popped_other (hsame'.tidy ht) (hsame'.queued hr) hwaiting hb, ?_, ?_, ?_, ?_⟩
    · rw [popped_ops, transferRead_ops s hb]
      exact hsize
    · rw [popped_ops, transferRead_ops s hb]
      exact hasked
    · rw [wanted_congr hsame, popped_ops, popped_count, transferRead_ops s hb, transferRead_count]
      omega
    · rw [popped_count, transferRead_count]
      omega
  | writeMore hidle hmore hfree =>
    have hsame : ∀ d ∈ rs, ((s.transferWrite c.addr).ops d).size = (s.ops d).size := fun d hd => by
      rw [transferWrite_ops s (hr.ne_across ht hw d hd)]
    rw [transferWrite_size] at hmore
    left
    refine ⟨rfl, hwaiting, ?_, ?_, ?_, ?_⟩
    · rw [transferWrite_size]
      exact hmore
    · rw [transferWrite_size, transferWrite_written]
      omega
    · rw [wanted_congr hsame, transferWrite_size, transferWrite_count]
      omega
    · rw [transferWrite_count]
      omega
  | writeEnd hidle hend hfree =>
    rw [transferWrite_size] at hend
    right
    refine ⟨mem_popped ((sameControl_transferWrite s c.addr).tidy ht) hwaiting rfl, ?_⟩
    rw [popped_ops, transferWrite_written]
    omega

/-- A reader that still waits when the loop has ended has got all there was, and the last
writer had nothing. -/
theorem Reading.starved (h : Reading c n total dry s rs ws) (hset : Settled s rs ws) : dry ∧ total < n := by
  obtain ⟨hcount, hws, -⟩ := hset.reads (by rw [h.reads]; exact List.cons_ne_nil _ _)
  have hgiven := h.given
  have hasked := h.asked
  have hsize := h.size
  rw [hws, wanted_nil] at hgiven
  exact ⟨(h.drained hws).mp hcount, by omega⟩

theorem Writing.not_settled (h : Writing c n s rs ws) : ¬Settled s rs ws := by
  intro hset
  obtain ⟨hfull, hrs⟩ := hset.writes (by rw [h.writes]; exact List.cons_ne_nil _ _)
  have hroom := h.room
  have hsize := h.size
  rw [hrs, wanted_nil] at hroom
  omega

/-- A call that every turn leaves waiting or serves is one or the other after the loop. -/
theorem serviceLoop_serves {I : PipeState → List ℕ → List ℕ → Prop} {F : WaitingPipeOperation → Prop} {m : ℕ}
    (hI : ∀ {v rs ws w rs' ws'}, Tidy v → Queued v false rs → Queued v true ws → I v rs ws →
      Serving v rs ws w rs' ws' → I w rs' ws' ∨ Served w c ∧ F (w.ops c.addr))
    (ht : Tidy s) (hr : Queued s false rs) (hw : Queued s true ws) (hs : I s rs ws)
    (hloop : PipeState.serviceLoop m s = some u) :
    ∃ rs' ws', AtRest u rs' ws' ∧ (I u rs' ws' ∨ Served u c ∧ F (u.ops c.addr)) := by
  refine serviceLoop_keeps (I := fun v rs ws => I v rs ws ∨ Served v c ∧ F (v.ops c.addr)) ?_ ht hr hw (Or.inl hs) hloop
  intro v rs ws w rs' ws' ht hr hw hv hturn
  rcases hv with hv | ⟨hserved, hrest⟩
  · exact hI ht hr hw hv hturn
  · obtain ⟨hserved', hops⟩ := hserved.step ht hr hw hturn
    rw [hops]
    exact Or.inr ⟨hserved', hrest⟩

/-- The only reader is served in the loop, unless the last writer has nothing and it wants
more than there is. -/
theorem Reading.serviceLoop {m : ℕ} (h : Reading c n total dry s rs ws) (ht : Tidy s) (hr : Queued s false rs)
    (hw : Queued s true ws) (hloop : PipeState.serviceLoop m s = some u) :
    (c ∈ u.active ∧ dry ∧ total < n) ∨
      Served u c ∧ 0 < (u.ops c.addr).written ∧ (u.ops c.addr).written ≤ n ∧ ¬(dry ∧ total < n) := by
  obtain ⟨rs', ws', hrest, hu⟩ := serviceLoop_serves
    (F := fun op => 0 < op.written ∧ op.written ≤ n ∧ ¬(dry ∧ total < n)) (fun ht hr hw h => h.step ht hr hw) ht hr hw h hloop
  exact hu.imp_left fun h => ⟨h.waiting, h.starved hrest.settled⟩

theorem Writing.serviceLoop {m : ℕ} (h : Writing c n s rs ws) (ht : Tidy s) (hr : Queued s false rs)
    (hw : Queued s true ws) (hloop : PipeState.serviceLoop m s = some u) :
    Served u c ∧ (u.ops c.addr).written = n := by
  obtain ⟨rs', ws', hrest, hu⟩ := serviceLoop_serves
    (F := fun op => op.written = n) (fun ht hr hw h => h.step ht hr hw) ht hr hw h hloop
  exact hu.resolve_left fun h => h.not_settled hrest.settled

end Alone

def startAlone (s : PipeState) (task a : ℕ) (request : Request) : PipeState :=
  (s.startWaiting task a request).setQueue request.isWrite ⟨some a, some a⟩

def Admitted (s : PipeState) (request : Request) (rs ws : List ℕ) : Prop :=
  if request.isWrite then request.size ≤ capacity - s.count + wanted s rs else 0 < s.count + wanted s ws

instance (s : PipeState) (request : Request) (rs ws : List ℕ) : Decidable (Admitted s request rs ws) :=
  inferInstanceAs (Decidable (ite _ _ _))

section Start
variable {s u : PipeState} {task a : ℕ} {request : Request} {rs ws l : List ℕ}

theorem AtRest.readCapacity (h : AtRest s rs ws) : s.currentReadCapacity = some (s.count + wanted s ws) := by
  simp only [PipeState.currentReadCapacity, PipeState.queuedSize, h.writes.queued_eq h.tidy, Option.map_some,
    wanted]

theorem AtRest.writeCapacity (h : AtRest s rs ws) :
    s.currentWriteCapacity = some (capacity - s.count + wanted s rs) := by
  simp only [PipeState.currentWriteCapacity, PipeState.queuedSize, h.reads.queued_eq h.tidy, Option.map_some,
    wanted]

theorem AtRest.execute (h : AtRest s rs ws) (task a : ℕ) (request : Request) :
    s.executePipeOperation task a request false =
      if s.count + wanted s ws = 0 ∧ s.write_count = 0 then some (s.answer request (.success 0))
      else if Admitted s request rs ws then
        ((s.startWaiting task a request).enqueue request.isWrite a).bind PipeState.doOperationOnPipe
      else some (s.answer request .eagain) := by
  have hstart : s.mayStart request false = some (decide (Admitted s request rs ws)) := by
    simp only [PipeState.mayStart, h.readCapacity, h.writeCapacity, Admitted, Bool.false_eq_true, if_false,
      Option.map_some]
    split_ifs <;> rfl
  simp only [PipeState.executePipeOperation, h.readCapacity, hstart, Option.bind_some, decide_eq_true_eq]

theorem AtRest.alone (h : AtRest s rs ws) (hin : Admitted s request rs ws)
    (hsize : request.isWrite → 0 < request.size) : (s.queue request.isWrite).first = none := by
  unfold Admitted at hin
  split_ifs at hin with hdir
  · have hpos := hsize hdir
    have hnil : ws = [] := by
      by_contra hne
      obtain ⟨hfull, hrs⟩ := h.settled.writes hne
      rw [hrs, wanted_nil] at hin
      omega
    rw [hdir]
    exact h.writes.chain.head_eq.trans (by rw [hnil]; rfl)
  · have hnil : rs = [] := by
      by_contra hne
      obtain ⟨h0, hws, -⟩ := h.settled.reads hne
      rw [hws, wanted_nil] at hin
      omega
    rw [Bool.eq_false_of_not_eq_true hdir]
    exact h.reads.chain.head_eq.trans (by rw [hnil]; rfl)

theorem AtRest.spared (h : AtRest s rs ws) (hin : Admitted s request rs ws)
    (hsize : request.isWrite → 0 < request.size) : Spared s (.call task a request false) :=
  fun _ hne => absurd (h.alone hin hsize) hne

theorem startAlone_ops (s : PipeState) (task a : ℕ) (request : Request) :
    (startAlone s task a request).ops = Function.update s.ops a
      ⟨s.requests.length, request.bytes, request.size, 0, task, none⟩ :=
  (setQueue_fields _ _ _).1

theorem startAlone_active (s : PipeState) (task a : ℕ) (request : Request) :
    (startAlone s task a request).active =
      s.active ++ [⟨s.requests.length, task, a, request.isWrite, none⟩] :=
  (setQueue_fields _ _ _).2.1

theorem startAlone_rest (s : PipeState) (task a : ℕ) (request : Request) :
    (startAlone s task a request).count = s.count ∧ (startAlone s task a request).results = s.results ∧
      (startAlone s task a request).requests = s.requests ++ [request] ∧
      (startAlone s task a request).write_count = s.write_count := by
  unfold startAlone
  cases request.isWrite <;> exact ⟨rfl, rfl, rfl, rfl⟩

theorem startAlone_queued (hq : Queued s (!request.isWrite) l) (hnew : ∀ c ∈ s.active, c.task ≠ task ∧ c.addr ≠ a) :
    Queued (startAlone s task a request) request.isWrite [a] ∧
      Queued (startAlone s task a request) (!request.isWrite) l ∧ a ∉ l := by
  obtain ⟨hq', hnot⟩ := hq.startWaiting request hnew
  refine ⟨⟨?_, ?_, fun b hb => ?_⟩, hq'.of_eq (queue_setQueue_not _ _ _) (fun b _ => ?_) (setQueue_fields _ _ _).2.1,
    hnot⟩
  · rw [startAlone, queue_setQueue]
    refine ⟨rfl, ?_⟩
    simp only [PipeState.next, (setQueue_fields _ _ _).1, PipeState.startWaiting, Function.update_self]
    rfl
  · rw [startAlone, queue_setQueue]
    exact fun _ => Option.some_ne_none _
  · obtain rfl := List.mem_singleton.mp hb
    rw [startAlone_active]
    exact ⟨_, List.mem_append_right _ List.mem_cons_self, rfl, rfl, rfl⟩
  · simp only [startAlone, PipeState.next, (setQueue_fields _ _ _).1]

/-- A call that is let in has its queue served. -/
theorem AtRest.started (h : AtRest s rs ws) (he : Enabled s (.call task a request false))
    (hempty : (s.queue request.isWrite).first = none) :
    ∃ u rs' ws' m, ((s.startWaiting task a request).enqueue request.isWrite a).bind PipeState.doOperationOnPipe =
        some u ∧ Tidy (startAlone s task a request) ∧
      PipeState.serviceLoop m (startAlone s task a request) = some u ∧ AtRest u rs' ws' ∧
      u.requests = s.requests ++ [request] ∧ u.results = s.results := by
  obtain ⟨-, hopen, hnew⟩ := he
  have hfirst : ((s.startWaiting task a request).queue request.isWrite).first = none := hempty
  have henq : (s.startWaiting task a request).enqueue request.isWrite a = some (startAlone s task a request) := by
    simp only [PipeState.enqueue, hfirst, startAlone]
  have ht : Tidy (startAlone s task a request) := (h.tidy.startWaiting hnew hopen).setQueue _ _
  have hboth : ∃ rs ws, Queued (startAlone s task a request) false rs ∧
      Queued (startAlone s task a request) true ws := by
    cases hdir : request.isWrite with
    | false =>
      obtain ⟨hself, hother, -⟩ := @startAlone_queued s task a request _ (by rw [hdir]; exact h.writes) hnew
      rw [hdir] at hself hother
      exact ⟨[a], ws, hself, hother⟩
    | true =>
      obtain ⟨hself, hother, -⟩ := @startAlone_queued s task a request _ (by rw [hdir]; exact h.reads) hnew
      rw [hdir] at hself hother
      exact ⟨rs, [a], hother, hself⟩
  obtain ⟨rs₁, ws₁, hr, hw⟩ := hboth
  obtain ⟨u, rs', ws', hu, hturns, hdone⟩ := doOperationOnPipe_spec ht hr hw
  obtain ⟨-, hresults, hrequests, -⟩ := startAlone_rest s task a request
  obtain ⟨hreq, hres⟩ := turns_logs hturns
  have hloop := hu
  simp only [PipeState.doOperationOnPipe, hr.queued_eq ht, hw.queued_eq ht] at hloop
  refine ⟨u, rs', ws', _, ?_, ht, hloop, ⟨hdone.1, hdone.2.1, hdone.2.2.1, hdone.2.2.2⟩, hreq.trans hrequests,
    hres.trans hresults⟩
  rw [henq]
  exact hu

end Start

/-- A read is for more than there is, and the last write in the queue has no bytes. -/
def Starved (s : PipeState) (request : Request) : Prop :=
  request.isWrite = false ∧ ∃ ws, s.queued true = some ws ∧ (∃ b, ws.getLast? = some b ∧ (s.ops b).size = 0) ∧
    s.count + wanted s ws < request.size

def Refused (s u : PipeState) (request : Request) : Prop := u = s.answer request .eagain

/-- The call was served before its task could wait, a read with some bytes and a write with all
of its bytes, and will return their number. -/
structure Completed (s u : PipeState) (task : ℕ) (request : Request) : Prop where
  served : ∃ c ∈ u.active, c.call = s.requests.length ∧ c.task = task ∧ c.woken = some .served
  amount : if request.isWrite then transferred u request s.requests.length = request.bytes
    else 0 < (transferred u request s.requests.length).length ∧
      (transferred u request s.requests.length).length ≤ request.size
  returns : ∃ v, pipeStep u (.finish task) = some v ∧ v.results =
    u.results ++ [⟨s.requests.length, .success (transferred u request s.requests.length).length, some .served⟩]

/-- A call that may not wait is refused, or reads the end of the file, or completes. -/
def NonBlocking (s : PipeState) (task a : ℕ) (request : Request) : Prop :=
  ∃ u, pipeStep s (.call task a request false) = some u ∧
    (Refused s u request ∨ (request.isWrite = false ∧ u = s.answer request (.success 0)) ∨
      Completed s u task request)

/-- A pipe is ready when a read, or a write of one byte, that may not wait is not refused. -/
def Truthful (s : PipeState) (write : Bool) : Prop :=
  ∃ ready, s.pipeIsReady write = some ready ∧ ∀ task a request, request.isWrite = write →
    (write = true → request.size = 1) → Enabled s (.call task a request false) →
    ∃ u, pipeStep s (.call task a request false) = some u ∧ (ready = true ↔ ¬Refused s u request)

section Calls
variable {s u : PipeState} {task a : ℕ} {request : Request} {rs ws : List ℕ} {write : Bool} {c : ActiveCall}

theorem not_refused_success : ¬Refused s (s.answer request (.success 0)) request := by
  intro heq
  have hresults := congrArg PipeState.results heq
  simp [PipeState.answer] at hresults

theorem not_refused_of_results (h : u.results = s.results) : ¬Refused s u request := by
  rintro rfl
  simp [PipeState.answer] at h

theorem AtRest.truthful (h : AtRest s rs ws) (write : Bool) : Truthful s write := by
  have hready : s.pipeIsReady write = some (if write then decide (capacity - s.count + wanted s rs ≠ 0)
      else decide (s.count + wanted s ws ≠ 0 ∨ s.write_count = 0)) := by
    unfold PipeState.pipeIsReady
    rw [h.readCapacity, h.writeCapacity]
    split_ifs <;> rfl
  refine ⟨_, hready, fun task a request hdir hone he => ?_⟩
  have hsize : request.isWrite → 0 < request.size := fun hw => by
    rw [hone (hdir.symm.trans hw)]
    exact Nat.one_pos
  have hexec := h.execute task a request
  have hopen := he.2.1
  split_ifs at hexec with hend hin
  · refine ⟨_, hexec, iff_of_true ?_ not_refused_success⟩
    cases write with
    | true => exact absurd hend.2 (hopen hdir).ne'
    | false => simp [hend.2]
  · obtain ⟨u, _, _, _, hu, -, -, -, -, hresults⟩ := h.started he (h.alone hin hsize)
    refine ⟨u, hexec.trans hu, iff_of_true ?_ (not_refused_of_results hresults)⟩
    unfold Admitted at hin
    rw [hdir] at hin
    cases write with
    | true =>
      rw [if_pos rfl, hone rfl] at hin
      rw [if_pos rfl, decide_eq_true_eq]
      omega
    | false =>
      rw [if_neg Bool.false_ne_true] at hin ⊢
      rw [decide_eq_true_eq]
      exact Or.inl hin.ne'
  · refine ⟨_, hexec, iff_of_false ?_ (fun h => h rfl)⟩
    unfold Admitted at hin
    rw [hdir] at hin
    cases write with
    | true =>
      rw [if_pos rfl, hone rfl] at hin
      rw [if_pos rfl, decide_eq_true_eq]
      omega
    | false =>
      rw [if_neg Bool.false_ne_true] at hin ⊢
      rw [decide_eq_true_eq]
      omega

/-- What is known of a call that was served. -/
theorem Served.completed (h : Served u c) (hrest : AtRest u rs ws) (hl : Ledger u)
    (hreq : u.requests = s.requests ++ [request]) (hcall : c.call = s.requests.length) (htask : c.task = task)
    (hpos : 0 < (u.ops c.addr).written)
    (hamount : if request.isWrite then (u.ops c.addr).written = request.size
      else (u.ops c.addr).written ≤ request.size) : Completed s u task request := by
  obtain ⟨request', hget, -, hrecord⟩ := hl.record _ h
  have hsame : request' = request := by
    simp only [hreq, hcall, List.getElem?_concat_length, Option.some.injEq] at hget
    exact hget.symm
  subst hsame
  simp only [hcall] at hrecord
  have hwritten := hrecord.written
  refine ⟨⟨_, h, hcall, htask, rfl⟩, ?_, ?_⟩
  · split_ifs at hamount ⊢ with hdir
    · rw [hrecord.bytes hdir, hamount]
      cases request' with
      | read size => cases hdir
      | write bytes => exact List.take_length
    · rw [hwritten]
      exact ⟨hpos, hamount⟩
  · obtain ⟨d, hd, hdtask, -, hfin, -⟩ := hrest.finish ⟨_, h, htask, Option.some_ne_none _⟩
    obtain rfl := hrest.tidy.eq_of_task hd h (hdtask.trans htask.symm)
    refine ⟨_, hfin, ?_⟩
    simp only [returned, if_pos hpos.ne', hcall, hwritten]

theorem startAlone_record (s : PipeState) (task a : ℕ) (request : Request) :
    ((startAlone s task a request).ops a).size = request.size ∧
      ((startAlone s task a request).ops a).written = 0 := by
  rw [startAlone_ops, Function.update_self]
  exact ⟨rfl, rfl⟩

theorem startAlone_wanted {l : List ℕ} (h : a ∉ l) : wanted (startAlone s task a request) l = wanted s l := by
  apply wanted_congr
  intro b hb
  rw [startAlone_ops, Function.update_of_ne]
  rintro rfl
  exact h hb

/-- A write that was let in is served. -/
theorem AtRest.write_completed (h : AtRest s rs ws) (hl : Ledger s) (hcount : s.count ≤ capacity)
    (he : Enabled s (.call task a request false)) (hdir : request.isWrite = true) (hsize : 0 < request.size)
    (hin : Admitted s request rs ws) (hstep : pipeStep s (.call task a request false) = some u) :
    Completed s u task request := by
  obtain ⟨v, rs', ws', m, hv, ht, hloop, hdone, hreq, -⟩ := h.started he (h.alone hin fun _ => hsize)
  have hopen := he.2.1 hdir
  have hexec := h.execute task a request
  rw [if_neg (fun hend => hopen.ne' hend.2), if_pos hin, hv] at hexec
  obtain rfl := Option.some.inj (hexec.symm.trans hstep)
  have hl' := pipeStep_ledger h hl he (h.spared hin fun _ => hsize) hstep
  obtain ⟨hself, hother, hnot⟩ := @startAlone_queued s task a request _ (by rw [hdir]; exact h.reads) he.2.2
  rw [hdir] at hself hother
  obtain ⟨hrecord, hzero⟩ := startAlone_record s task a request
  have hstart : Writing ⟨s.requests.length, task, a, request.isWrite, none⟩ request.size
      (startAlone s task a request) rs [a] := by
    refine ⟨rfl, ?_, ?_, ?_, ?_, ?_⟩
    · rw [startAlone_active]
      exact List.mem_append_right _ List.mem_cons_self
    · rw [hrecord]
      exact hsize.ne'
    · rw [hrecord, hzero, Nat.zero_add]
    · rw [hrecord, startAlone_wanted hnot, (startAlone_rest s task a request).1]
      simpa only [Admitted, hdir, if_true] using hin
    · rw [(startAlone_rest s task a request).1]
      exact hcount
  obtain ⟨hserved, hall⟩ := hstart.serviceLoop ht hother hself hloop
  have hpos := hsize.trans_eq hall.symm
  refine hserved.completed hdone hl' hreq rfl rfl hpos ?_
  rw [if_pos hdir]
  exact hall

/-- A read that was let in is served, unless the last write has no bytes and it is for more
than there is. -/
theorem AtRest.read_completed (h : AtRest s rs ws) (hl : Ledger s) (he : Enabled s (.call task a request false))
    (hdir : request.isWrite = false) (hsize : 0 < request.size) (hin : Admitted s request rs ws)
    (hstep : pipeStep s (.call task a request false) = some u) :
    u.results = s.results ∧ ((⟨s.requests.length, task, a, false, none⟩ ∈ u.active ∧ Starved s request) ∨
      Completed s u task request ∧ ¬Starved s request) := by
  obtain ⟨v, rs', ws', m, hv, ht, hloop, hdone, hreq, hres⟩ := h.started he (h.alone hin fun _ => hsize)
  have hsome : 0 < s.count + wanted s ws := by
    rw [Admitted, hdir, if_neg Bool.false_ne_true] at hin
    exact hin
  have hexec := h.execute task a request
  rw [if_neg (fun hend => hsome.ne' hend.1), if_pos hin, hv] at hexec
  obtain rfl := Option.some.inj (hexec.symm.trans hstep)
  have hl' := pipeStep_ledger h hl he (h.spared hin fun _ => hsize) hstep
  have hcount : s.count ≠ 0 := by
    intro h0
    have hnil : ws = [] := by
      by_contra hne
      have hfull := (h.settled.writes hne).1
      rw [h0] at hfull
      exact absurd hfull (by decide)
    rw [h0, hnil, wanted_nil] at hsome
    exact absurd hsome (by decide)
  obtain ⟨hself, hother, hnot⟩ := @startAlone_queued s task a request _ (by rw [hdir]; exact h.writes) he.2.2
  rw [hdir] at hself hother
  obtain ⟨hrecord, hzero⟩ := startAlone_record s task a request
  obtain ⟨hcount', -, -, -⟩ := startAlone_rest s task a request
  have hstarved : (∃ b, ws.getLast? = some b ∧ (s.ops b).size = 0) ∧ s.count + wanted s ws < request.size ↔
      Starved s request := by
    constructor
    · exact fun hdry => ⟨hdir, ws, h.writes.queued_eq h.tidy, hdry⟩
    · rintro ⟨-, ws', hws', hdry⟩
      obtain rfl := Option.some.inj ((h.writes.queued_eq h.tidy).symm.trans hws')
      exact hdry
  have hstart : Reading ⟨s.requests.length, task, a, request.isWrite, none⟩ request.size (s.count + wanted s ws)
      (∃ b, ws.getLast? = some b ∧ (s.ops b).size = 0) (startAlone s task a request) [a] ws := by
    refine ⟨rfl, ?_, ?_, ?_, ?_, ?_, ?_, fun b hb => ?_⟩
    · rw [startAlone_active]
      exact List.mem_append_right _ List.mem_cons_self
    · rw [hrecord]
      exact hsize.ne'
    · rw [hrecord, hzero, Nat.zero_add]
    · rw [hzero, startAlone_wanted hnot, hcount', Nat.zero_add]
    · rw [hcount']
      exact fun h0 => absurd h0 hcount
    · rw [hcount']
      rintro rfl
      exact iff_of_false hcount (by simp)
    · have hne : b ≠ a := by
        rintro rfl
        exact hnot (List.mem_of_getLast? hb)
      rw [startAlone_ops, Function.update_of_ne hne]
      simp [hb]
  rcases hstart.serviceLoop ht hself hother hloop with ⟨hwaits, hdry⟩ | ⟨hserved, hpos, hle, hwet⟩
  · rw [hdir] at hwaits
    exact ⟨hres, Or.inl ⟨hwaits, hstarved.mp hdry⟩⟩
  · refine ⟨hres, Or.inr ⟨hserved.completed hdone hl' hreq rfl rfl hpos ?_, fun h => hwet (hstarved.mpr h)⟩⟩
    rw [if_neg (Bool.eq_false_iff.mp hdir)]
    exact hle

theorem AtRest.starved_pos (h : AtRest s rs ws) (hs : Starved s request) :
    request.isWrite = false ∧ 0 < s.count + wanted s ws := by
  obtain ⟨hdir, ws', hws', ⟨b, hb, -⟩, -⟩ := hs
  obtain rfl := Option.some.inj ((h.writes.queued_eq h.tidy).symm.trans hws')
  have hne : ws ≠ [] := List.ne_nil_of_mem (List.mem_of_getLast? hb)
  have hfull := (h.settled.writes hne).1
  simp only [capacity] at hfull
  exact ⟨hdir, by omega⟩

theorem not_nonBlocking (ht : Tidy u) (hstep : pipeStep s (.call task a request false) = some u)
    (hres : u.results = s.results) (hwaits : ⟨s.requests.length, task, a, false, none⟩ ∈ u.active) :
    ¬NonBlocking s task a request := by
  rintro ⟨v, hv, hdone⟩
  obtain rfl := Option.some.inj (hv.symm.trans hstep)
  rcases hdone with hrefused | ⟨-, hend⟩ | hdone
  · exact not_refused_of_results hres hrefused
  · rw [hend] at hres
    simp [PipeState.answer] at hres
  · obtain ⟨c, hc, hcall, -, hwoken⟩ := hdone.served
    obtain rfl := List.inj_on_of_nodup_map ht.calls hc hwaits hcall
    cases hwoken

/-- A call that may not wait does not wait unless it is starved. -/
theorem AtRest.nonBlocking_iff (h : AtRest s rs ws) (hl : Ledger s) (hcount : s.count ≤ capacity)
    (he : Enabled s (.call task a request false)) (hsize : 0 < request.size) :
    NonBlocking s task a request ↔ ¬Starved s request := by
  have hexec := h.execute task a request
  split_ifs at hexec with hend hin
  · have hdir : request.isWrite = false := by
      by_contra hdir
      exact (he.2.1 (by simpa using hdir)).ne' hend.2
    refine iff_of_true ⟨_, hexec, Or.inr (Or.inl ⟨hdir, rfl⟩)⟩ fun hs => ?_
    exact (h.starved_pos hs).2.ne' hend.1
  · obtain ⟨u, rs', ws', hstep, hrest⟩ := pipeStep_atRest h he (h.spared hin fun _ => hsize)
    cases hdir : request.isWrite with
    | true =>
      refine iff_of_true ⟨u, hstep, Or.inr (Or.inr (h.write_completed hl hcount he hdir hsize hin hstep))⟩ fun hs => ?_
      rw [hs.1] at hdir
      cases hdir
    | false =>
      obtain ⟨hres, ⟨hwaits, hs⟩ | ⟨hdone, hs⟩⟩ := h.read_completed hl he hdir hsize hin hstep
      · exact iff_of_false (not_nonBlocking hrest.tidy hstep hres hwaits) fun hn => hn hs
      · exact iff_of_true ⟨u, hstep, Or.inr (Or.inr hdone)⟩ hs
  · refine iff_of_true ⟨_, hexec, Or.inl rfl⟩ fun hs => hin ?_
    obtain ⟨hdir, hpos⟩ := h.starved_pos hs
    rw [Admitted, hdir, if_neg Bool.false_ne_true]
    exact hpos

/-- In every state of a run without signals the pipe tells the truth about its readiness, and
the calls that may not wait do not, except the reads that starve. -/
theorem runs_nonBlocking_iff {for_write : Bool} {buffer : ByteStore.Store} {ops : ℕ → WaitingPipeOperation}
    {acts : List PipeAction}
    (hr : Runs pipeStep Undisturbed (PipeState.createPipeSharedData for_write buffer ops) acts s) :
    (∀ write, Truthful s write) ∧ ∀ task a request, 0 < request.size → Enabled s (.call task a request false) →
      (NonBlocking s task a request ↔ ¬Starved s request) := by
  have hinv : (∃ rs ws, AtRest s rs ws) ∧ Ledger s ∧ s.count ≤ capacity := by
    refine hr.invariant (I := fun s => (∃ rs ws, AtRest s rs ws) ∧ Ledger s ∧ s.count ≤ capacity) ?_
      ⟨⟨[], [], created_atRest _ _ _⟩, created_ledger _ _ _, Nat.zero_le _⟩
    rintro s act t ⟨⟨rs, ws, hrest⟩, hl, hcount⟩ hok hstep
    obtain ⟨u, rs', ws', hu, hrest'⟩ := pipeStep_atRest hrest hok.orderly.1 hok.orderly.2
    obtain rfl := Option.some.inj (hu.symm.trans hstep)
    exact ⟨⟨rs', ws', hrest'⟩, pipeStep_ledger hrest hl hok.orderly.1 hok.orderly.2 hstep,
      pipeStep_count_le hrest hok.orderly hcount hstep⟩
  obtain ⟨⟨rs, ws, hrest⟩, hl, hcount⟩ := hinv
  exact ⟨hrest.truthful, fun task a request hsize he => hrest.nonBlocking_iff hl hcount he hsize⟩

end Calls

def emptyWrite : List PipeAction :=
  [.copy false, .call 1 1 (.write (List.replicate 512 7)) true, .finish 1, .call 1 1 (.write []) true]

/-- A read of as much as the ring has is served though a write of no bytes waits. -/
theorem runs_nonBlocking_full_ring :
    ∃ t, execOk pipeStep Undisturbed newPipe emptyWrite = some t ∧ Truthful t false ∧
      NonBlocking t 2 2 (.read 512) := by
  have hsome : (execOk pipeStep Undisturbed newPipe emptyWrite).map (fun t =>
      (t.count, t.queued true, (t.ops 1).size, decide (Enabled t (.call 2 2 (.read 512) false)))) =
      some (512, some [1], 0, true) := by
    decide +kernel
  obtain ⟨t, ht, hfields⟩ := Option.map_eq_some_iff.mp hsome
  simp only [Prod.mk.injEq, decide_eq_true_eq] at hfields
  obtain ⟨hcount, hqueued, hsize, he⟩ := hfields
  obtain ⟨htruth, hiff⟩ := runs_nonBlocking_iff (.of_execOk ht)
  refine ⟨t, ht, htruth false, (hiff 2 2 (.read 512) (by decide) he).mpr ?_⟩
  rintro ⟨-, ws, hws, -, hmore⟩
  obtain rfl := Option.some.inj (hqueued.symm.trans hws)
  rw [hcount, wanted_cons, hsize, wanted_nil] at hmore
  exact absurd hmore (by decide)

/-- A read of one byte more is let in and waits. -/
theorem nonBlocking_read_waits :
    ∃ t, execOk pipeStep Undisturbed newPipe emptyWrite = some t ∧ Enabled t (.call 2 2 (.read 513) false) ∧
      ∃ u, pipeStep t (.call 2 2 (.read 513) false) = some u ∧ ¬Refused t u (.read 513) ∧
        (∃ c ∈ u.active, c.task = 2 ∧ c.woken = none) ∧ ¬NonBlocking t 2 2 (.read 513) := by
  have hsome : (execOk pipeStep Undisturbed newPipe emptyWrite).map (fun t =>
      (decide (Enabled t (.call 2 2 (.read 513) false)), t.results.length)) = some (true, 1) := by
    decide +kernel
  have hsome' : ((execOk pipeStep Undisturbed newPipe emptyWrite).bind
      (pipeStep · (.call 2 2 (.read 513) false))).map (fun u => (u.results.length, u.active)) =
      some (1, [⟨1, 1, 1, true, some .served⟩, ⟨2, 2, 2, false, none⟩]) := by
    decide +kernel
  obtain ⟨t, ht, hfields⟩ := Option.map_eq_some_iff.mp hsome
  simp only [Prod.mk.injEq, decide_eq_true_eq] at hfields
  obtain ⟨he, hresults⟩ := hfields
  rw [ht, Option.bind_some] at hsome'
  obtain ⟨u, hu, hafter⟩ := Option.map_eq_some_iff.mp hsome'
  simp only [Prod.mk.injEq] at hafter
  obtain ⟨hresults', hactive⟩ := hafter
  have hlength : ∀ ret, u ≠ t.answer (.read 513) ret := by
    rintro ret rfl
    simp only [PipeState.answer, List.length_append, List.length_singleton] at hresults'
    omega
  refine ⟨t, ht, he, u, hu, hlength _, ⟨⟨2, 2, 2, false, none⟩, by simp [hactive], rfl, rfl⟩, ?_⟩
  rintro ⟨v, hv, hdone⟩
  obtain rfl := Option.some.inj (hv.symm.trans hu)
  rcases hdone with hrefused | ⟨-, hend⟩ | hdone
  · exact hlength _ hrefused
  · exact hlength _ hend
  · obtain ⟨c, hc, -, htask, hwoken⟩ := hdone.served
    rw [hactive] at hc
    simp only [List.mem_cons, List.not_mem_nil, or_false] at hc
    rcases hc with rfl | rfl
    · cases htask
    · cases hwoken

end SomeOs.Pipe
