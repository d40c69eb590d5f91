import SomeOs.Devices.Requests

/-! # The invariant of the request queue

The counters of the rings go with the numbers of requests that have been sent, completed and
freed, and the entries of the rings between them are the first descriptors of these requests.
-/
namespace SomeOs.Devices
open Transition VirtIODevice

structure QueueOk (d : BlockDevice) : Prop where
  idle : d.sending = none → d.sent = d.accepted
  sending : ∀ r, d.sending = some r → r = d.sent ∧ d.accepted = d.sent + 1
  availableIndex : d.virtio.availableIndex = d.sent % 2 ^ 16
  usedIndex : d.virtio.usedIndex = d.completed.length % 2 ^ 16
  ackIndex : d.virtio.ackIndex = d.finished.length % 2 ^ 16
  freed : d.finished.length ≤ d.completed.length
  taken : d.taken ≤ d.sent
  nodup : d.completed.Nodup
  completed : ∀ r ∈ d.completed, r < d.taken
  busy : ∀ p ∈ d.busy, p.1 < d.taken ∧ p.1 ∉ d.completed ∧ p.2 = (d.request p.1).head
  requests : d.requests.Nodup
  mem : ∀ r, r ∈ d.requests ↔ r < d.accepted ∧ r ∉ d.completed.take d.finished.length
  count : d.requests.length + d.finished.length = d.accepted
  few : d.requests.length ≤ ringSize
  heads : ∀ i ∈ d.requests, ∀ j ∈ d.requests, (d.request i).head = (d.request j).head → i = j
  available : ∀ j, d.taken ≤ j → j < d.sent → d.virtio.availableRing (j % ringSize) = (d.request j).head
  used : ∀ k, d.finished.length ≤ k → k < d.completed.length →
    d.virtio.usedRing (k % ringSize) = (d.request (d.completed.getD k 0)).head
  laid : ∀ r, Outstanding d r → Laid d.virtio (d.request r).head (d.request r).parts
  head_lt : ∀ r, Outstanding d r → (d.request r).head < ringSize
  fits : ∀ r, Outstanding d r → (d.request r).parts.length ≤ ringSize
  lengths : ∀ r, Outstanding d r → ∀ part ∈ (d.request r).data, part.length < 2 ^ 32
  covers : ∀ r, Outstanding d r → ((d.request r).data.map (·.length)).sum = (d.request r).size
  matched : ∀ p ∈ d.finished, p.2 = some p.1

theorem length_le_of_lt {l : List ℕ} {n : ℕ} (hl : l.Nodup) (hlt : ∀ r ∈ l, r < n) : l.length ≤ n := by
  have hsub : l ⊆ List.range n := fun r hr => List.mem_range.mpr (hlt r hr)
  simpa using (List.subperm_of_subset hl hsub).length_le

section Facts
variable {d : BlockDevice}

theorem QueueOk.sent_le (h : QueueOk d) : d.sent ≤ d.accepted := by
  cases hs : d.sending with
  | none => exact (h.idle hs).le
  | some r =>
    have := (h.sending r hs).2
    omega

theorem QueueOk.completed_le (h : QueueOk d) : d.completed.length ≤ d.taken := length_le_of_lt h.nodup h.completed

theorem QueueOk.room (h : QueueOk d) : d.accepted - d.taken ≤ ringSize := by
  have h1 := h.count
  have h2 := h.few
  have h3 := h.freed
  have h4 := h.completed_le
  omega

theorem QueueOk.intact (h : QueueOk d) : Intact d := by
  refine ⟨fun r hr => ⟨?_, h.covers r hr⟩, ?_, h.matched⟩
  · exact chain_eq parts_chained (parts_lengths (h.lengths r hr)) (h.laid r hr) (h.head_lt r hr) (h.fits r hr)
  · have h1 := h.room
    have h2 := h.sent_le
    omega

theorem mod_ring (n : ℕ) : n % 2 ^ 16 % ringSize = n % ringSize := by
  simp only [ringSize]
  omega

theorem ring_ne {i j : ℕ} (hlt : i < j) (hclose : j - i < ringSize) : i % ringSize ≠ j % ringSize := by
  simp only [ringSize] at *
  omega

end Facts

section Steps
variable {d : BlockDevice} {r : ℕ}

theorem QueueOk.send (h : QueueOk d) (hs : d.sending = some r) : QueueOk (d.send r) := by
  obtain ⟨rfl, hacc⟩ := h.sending r hs
  have hroom := h.room
  have htaken := h.taken
  have hring : ∀ j, d.taken ≤ j → j < d.sent + 1 →
      (d.send d.sent).virtio.availableRing (j % ringSize) = (d.request j).head := by
    intro j hj hlt
    show Function.update d.virtio.availableRing (d.virtio.availableIndex % ringSize) _ (j % ringSize) = _
    rw [h.availableIndex, mod_ring]
    rcases Nat.lt_succ_iff_lt_or_eq.mp hlt with hlt | rfl
    · rw [Function.update_of_ne (ring_ne hlt (by omega))]
      exact h.available j hj hlt
    · rw [Function.update_self]
  have hindex : (d.send d.sent).virtio.availableIndex = (d.sent + 1) % 2 ^ 16 := by
    show (d.virtio.availableIndex + 1) % 2 ^ 16 = _
    rw [h.availableIndex]
    omega
  exact { h with
    idle := fun _ => hacc.symm
    sending := fun r hr => by cases hr
    availableIndex := hindex
    taken := Nat.le_succ_of_le h.taken
    available := hring }

theorem QueueOk.take (h : QueueOk d) (hne : d.taken % 2 ^ 16 ≠ d.virtio.availableIndex) :
    QueueOk { d with
      busy := d.busy ++ [(d.taken, d.virtio.availableRing (d.taken % ringSize))]
      taken := d.taken + 1 } := by
  have hlt : d.taken < d.sent := by
    refine lt_of_le_of_ne h.taken ?_
    intro heq
    rw [h.availableIndex, heq] at hne
    exact hne rfl
  refine { h with taken := hlt, completed := ?_, busy := ?_, available := ?_ }
  · intro r hr
    exact Nat.lt_succ_of_lt (h.completed r hr)
  · intro p hp
    rcases List.mem_append.mp hp with hp | hp
    · obtain ⟨h1, h2, h3⟩ := h.busy p hp
      exact ⟨Nat.lt_succ_of_lt h1, h2, h3⟩
    · cases List.mem_singleton.mp hp
      refine ⟨Nat.lt_succ_self _, fun hmem => ?_, h.available d.taken le_rfl hlt⟩
      exact absurd (h.completed _ hmem) (lt_irrefl _)
  · intro j hj hjs
    exact h.available j (Nat.le_of_succ_le hj) hjs

theorem QueueOk.complete (h : QueueOk d) {head : ℕ} (hbusy : (r, head) ∈ d.busy) :
    QueueOk { d with
      virtio := { d.virtio with
        usedRing := Function.update d.virtio.usedRing (d.virtio.usedIndex % ringSize) head
        usedIndex := (d.virtio.usedIndex + 1) % 2 ^ 16 }
      busy := d.busy.filter (·.1 ≠ r)
      completed := d.completed ++ [r] } := by
  obtain ⟨hlt, hnew, hhead⟩ := h.busy _ hbusy
  have hcount := h.count
  have hfew := h.few
  have hfreed := h.freed
  have htaken := h.taken
  have hsent := h.sent_le
  have hlen : d.completed.length + 1 ≤ d.taken := by
    have hnodup : (r :: d.completed).Nodup := List.nodup_cons.mpr ⟨hnew, h.nodup⟩
    refine length_le_of_lt (l := r :: d.completed) hnodup fun x hx => ?_
    rcases List.mem_cons.mp hx with rfl | hx
    · exact hlt
    · exact h.completed x hx
  have htake : (d.completed ++ [r]).take d.finished.length = d.completed.take d.finished.length :=
    List.take_append_of_le_length h.freed
  have hout : ∀ x, (x < d.accepted ∧ x ∉ d.completed ++ [r]) → Outstanding d x := by
    intro x hx
    exact ⟨hx.1, fun hmem => hx.2 (List.mem_append_left _ hmem)⟩
  refine { h with
    usedIndex := ?_, freed := ?_, nodup := ?_, completed := ?_, busy := ?_, mem := ?_, used := ?_
    laid := fun x hx => h.laid x (hout x hx), head_lt := fun x hx => h.head_lt x (hout x hx)
    fits := fun x hx => h.fits x (hout x hx), lengths := fun x hx => h.lengths x (hout x hx)
    covers := fun x hx => h.covers x (hout x hx) }
  · show (d.virtio.usedIndex + 1) % 2 ^ 16 = (d.completed ++ [r]).length % 2 ^ 16
    rw [h.usedIndex, List.length_append, List.length_singleton]
    omega
  · show d.finished.length ≤ (d.completed ++ [r]).length
    rw [List.length_append]
    omega
  · refine List.nodup_append.mpr ⟨h.nodup, List.nodup_singleton r, ?_⟩
    intro a ha b hb
    rw [List.mem_singleton.mp hb]
    rintro rfl
    exact hnew ha
  · intro x hx
    rcases List.mem_append.mp hx with hx | hx
    · exact h.completed x hx
    · rw [List.mem_singleton.mp hx]
      exact hlt
  · intro p hp
    obtain ⟨hp, hpr⟩ := List.mem_filter.mp hp
    obtain ⟨h1, h2, h3⟩ := h.busy p hp
    refine ⟨h1, fun hmem => ?_, h3⟩
    rcases List.mem_append.mp hmem with hmem | hmem
    · exact h2 hmem
    · have hne : p.1 ≠ r := by simpa using hpr
      exact hne (List.mem_singleton.mp hmem)
  · intro x
    show x ∈ d.requests ↔ x < d.accepted ∧ x ∉ (d.completed ++ [r]).take d.finished.length
    rw [htake]
    exact h.mem x
  · intro k hk hlt'
    have hfirst : d.finished.length ≤ k := hk
    show Function.update d.virtio.usedRing (d.virtio.usedIndex % ringSize) head (k % ringSize) =
      (d.request ((d.completed ++ [r]).getD k 0)).head
    rw [h.usedIndex, mod_ring]
    rw [List.length_append, List.length_singleton] at hlt'
    rcases Nat.lt_succ_iff_lt_or_eq.mp hlt' with hlt' | rfl
    · rw [Function.update_of_ne (ring_ne hlt' (by omega)), List.getD_append _ _ _ _ hlt']
      exact h.used k hfirst hlt'
    · rw [Function.update_self, List.getD_append_right _ _ _ _ le_rfl, Nat.sub_self]
      exact hhead

/-- One used element: the request is found that the device has completed. -/
theorem QueueOk.free_one (h : QueueOk d) (hlt : d.finished.length < d.completed.length) :
    QueueOk { d with
      virtio := { d.virtio with ackIndex := (d.virtio.ackIndex + 1) % 2 ^ 16 }
      requests := d.requests.eraseP fun r => (d.request r).head = d.virtio.usedRing (d.virtio.ackIndex % ringSize)
      finished := d.finished ++ [(d.completed.getD d.finished.length 0, d.requests.find? fun r =>
        (d.request r).head = d.virtio.usedRing (d.virtio.ackIndex % ringSize))] } := by
  set k := d.finished.length with hk
  have hid : d.virtio.usedRing (d.virtio.ackIndex % ringSize) = (d.request (d.completed.getD k 0)).head := by
    rw [h.ackIndex, mod_ring]
    exact h.used k le_rfl hlt
  rw [hid]
  set j := d.completed.getD k 0 with hj
  have hget : d.completed[k] = j := by rw [hj, List.getD_eq_getElem _ _ hlt]
  have hcompleted : j ∈ d.completed := by rw [← hget]; exact List.getElem_mem hlt
  have hnotfreed : j ∉ d.completed.take k := by
    intro hmem
    obtain ⟨i, hi, heq⟩ := List.mem_take_iff_getElem.mp hmem
    have : i = k := (List.Nodup.getElem_inj_iff h.nodup).mp (heq.trans hget.symm)
    omega
  have hsent := h.sent_le
  have htaken := h.taken
  have hjlt := h.completed j hcompleted
  have hmem : j ∈ d.requests := (h.mem j).mpr ⟨by omega, hnotfreed⟩
  have honly : ∀ r ∈ d.requests, (d.request r).head = (d.request j).head → r = j := fun r hr => h.heads r hr j hmem
  have hfind : d.requests.find? (fun r => (d.request r).head = (d.request j).head) = some j := by
    cases hf : d.requests.find? (fun r => (d.request r).head = (d.request j).head) with
    | none =>
      have := List.find?_eq_none.mp hf j hmem
      simp at this
    | some r =>
      rw [honly r (List.mem_of_find?_eq_some hf) (by simpa using List.find?_some hf)]
  obtain ⟨a, l₁, l₂, -, ha, hsplit, herase⟩ := List.exists_of_eraseP (p := fun r =>
    decide ((d.request r).head = (d.request j).head)) hmem (by simp)
  have haj : a = j := honly a (by rw [hsplit]; simp) (by simpa using ha)
  subst haj
  have hnodup := h.requests
  rw [hsplit] at hnodup
  have herased : (l₁ ++ l₂).Nodup ∧ j ∉ l₁ ++ l₂ := by
    have := (List.perm_middle.nodup_iff.mp hnodup)
    rw [List.nodup_cons] at this
    exact ⟨this.2, this.1⟩
  have hiff : ∀ r, r ∈ l₁ ++ l₂ ↔ r ∈ d.requests ∧ r ≠ j := by
    intro r
    rw [hsplit, List.perm_middle.mem_iff, List.mem_cons]
    constructor
    · intro hr
      refine ⟨Or.inr hr, ?_⟩
      rintro rfl
      exact herased.2 hr
    · rintro ⟨rfl | hr, hne⟩
      · exact absurd rfl hne
      · exact hr
  have htake : d.completed.take (k + 1) = d.completed.take k ++ [j] := by
    rw [List.take_add_one, List.getElem?_eq_getElem hlt, hget]
    rfl
  have hlength : (l₁ ++ l₂).length + 1 = d.requests.length := by
    rw [hsplit]
    simp only [List.length_append, List.length_cons]
    omega
  have hcount := h.count
  have hfew := h.few
  have hfinished : (d.finished ++ [(j, some j)]).length = k + 1 := by
    rw [List.length_append, List.length_singleton]
  rw [hfind, herase]
  refine { h with
    ackIndex := ?_, freed := ?_, requests := herased.1, mem := ?_, count := ?_, few := ?_, heads := ?_, used := ?_
    matched := ?_ }
  · show (d.virtio.ackIndex + 1) % 2 ^ 16 = (d.finished ++ [(j, some j)]).length % 2 ^ 16
    rw [h.ackIndex, hfinished]
    omega
  · show (d.finished ++ [(j, some j)]).length ≤ d.completed.length
    rw [hfinished]
    exact hlt
  · intro r
    show r ∈ l₁ ++ l₂ ↔ r < d.accepted ∧ r ∉ d.completed.take (d.finished ++ [(j, some j)]).length
    rw [hfinished, htake, hiff, h.mem]
    simp only [List.mem_append, List.mem_singleton, not_or]
    tauto
  · show (l₁ ++ l₂).length + (d.finished ++ [(j, some j)]).length = d.accepted
    rw [hfinished]
    omega
  · show (l₁ ++ l₂).length ≤ ringSize
    omega
  · intro i hi m hm
    exact h.heads i ((hiff i).mp hi).1 m ((hiff m).mp hm).1
  · intro m hm hlt'
    have hm' : (d.finished ++ [(j, some j)]).length ≤ m := hm
    rw [hfinished] at hm'
    exact h.used m (by omega) hlt'
  · intro p hp
    rcases List.mem_append.mp hp with hp | hp
    · exact h.matched p hp
    · rw [List.mem_singleton.mp hp]

theorem QueueOk.freePending (h : QueueOk d) (n : ℕ) (hn : d.finished.length + n ≤ d.completed.length) :
    QueueOk (d.freePending n) := by
  induction n generalizing d with
  | zero => exact h
  | succ n ih =>
    refine ih (h.free_one (by omega)) ?_
    show (d.finished ++ [_]).length + n ≤ d.completed.length
    rw [List.length_append, List.length_singleton]
    omega

theorem QueueOk.free (h : QueueOk d) : QueueOk d.virtIOBlockFreePendingRequests := by
  refine h.freePending _ ?_
  have h1 := h.count
  have h2 := h.few
  have h3 := h.freed
  have h4 := h.completed_le
  have h5 := h.taken
  have h6 := h.sent_le
  rw [h.usedIndex, h.ackIndex]
  simp only [ringSize] at h2
  omega

/-- The device after a request has been prepared. -/
def prepared (d : BlockDevice) (r : VirtIOBlockRequest) : BlockDevice where
  virtio := fillAll r.parts d.virtio
  request := Function.update d.request d.accepted r
  requests := d.accepted :: d.requests
  readOnly := d.readOnly
  sending := some d.accepted
  accepted := d.accepted + 1
  sent := d.sent
  taken := d.taken
  busy := d.busy
  completed := d.completed
  finished := d.finished

/-- A request is refused, or it is prepared. -/
theorem operation_cases (d : BlockDevice) (header status : ℕ) (data : List BufferPart) (offset size : ℕ)
    (write : Bool) :
    d.virtIOBlockDeviceOperation header status data offset size write = d ∨
      d.virtIOBlockDeviceOperation header status data offset size write =
        prepared d ⟨header, data, status, size, write, d.virtio.nextHead⟩ := by
  unfold BlockDevice.virtIOBlockDeviceOperation
  by_cases hwrite : write ∧ d.readOnly
  · rw [if_pos hwrite]
    exact Or.inl rfl
  rw [if_neg hwrite]
  by_cases haligned : size % blockSectorSize ≠ 0 ∨ offset % blockSectorSize ≠ 0
  · rw [if_pos haligned]
    exact Or.inl rfl
  rw [if_neg haligned]
  by_cases hfull : (d.virtio.availableIndex : ℤ) - d.virtio.ackIndex ≥ ringSize
  · rw [if_pos hfull]
    exact Or.inl rfl
  rw [if_neg hfull]
  refine Or.inr ?_
  unfold prepared
  rw [← fillAll_parts]

theorem QueueOk.prepared {q : VirtIOBlockRequest} (h : QueueOk d) (hidle : d.sending = none)
    (hhead : q.head = d.virtio.nextHead) (hfits : q.parts.length ≤ ringSize)
    (hslots : ∀ r, Outstanding d r → ∀ i ∈ (d.request r).slots, i ∉ slots d.virtio.nextHead q.parts.length)
    (hheads : ∀ r ∈ d.requests, (d.request r).head ≠ d.virtio.nextHead) (hfew : d.requests.length < ringSize)
    (hcovers : (q.data.map (·.length)).sum = q.size) (hlengths : ∀ part ∈ q.data, part.length < 2 ^ 32) :
    QueueOk (prepared d q) ∧ Undisturbed d (Devices.prepared d q) := by
  have hsent := h.idle hidle
  have htaken := h.taken
  have hself : (Devices.prepared d q).request d.accepted = q := Function.update_self ..
  have hold : ∀ r, r < d.accepted → (Devices.prepared d q).request r = d.request r := fun r hr =>
    Function.update_of_ne (Nat.ne_of_lt hr) ..
  have hcompleted : ∀ r ∈ d.completed, r < d.accepted := fun r hr => by
    have := h.completed r hr
    omega
  have hmem : ∀ r ∈ d.requests, r < d.accepted := fun r hr => ((h.mem r).mp hr).1
  have hnew : d.accepted ∉ d.completed := fun hin => absurd (hcompleted _ hin) (lt_irrefl _)
  obtain ⟨hfill, hkeep⟩ := fillAll_descriptors (d := d.virtio) hfits
  obtain ⟨hr1, hr2, hr3, hr4, hr5⟩ := fillAll_rings (d := d.virtio) (l := q.parts)
  have hundisturbed : Undisturbed d (Devices.prepared d q) := fun r hr i hi => hkeep i (hslots r hr i hi)
  have hcases : ∀ r, Outstanding (Devices.prepared d q) r → r = d.accepted ∨ Outstanding d r := by
    intro r hr
    rcases Nat.lt_succ_iff_lt_or_eq.mp hr.1 with hlt | heq
    · exact Or.inr ⟨hlt, hr.2⟩
    · exact Or.inl heq
  refine ⟨⟨fun hs => (by cases hs), ?_, hr2.trans h.availableIndex, hr4.trans h.usedIndex, hr5.trans h.ackIndex, h.freed,
    h.taken, h.nodup, h.completed, ?_, ?_, ?_, ?_, ?_, ?_, ?_, ?_, ?_, ?_, ?_, ?_, ?_, h.matched⟩, hundisturbed⟩
  · intro r hr
    cases hr
    exact ⟨hsent.symm, by show d.accepted + 1 = d.sent + 1; rw [hsent]⟩
  · intro p hp
    obtain ⟨h1, h2, h3⟩ := h.busy p hp
    refine ⟨h1, h2, ?_⟩
    rw [hold p.1 (by omega)]
    exact h3
  · exact List.nodup_cons.mpr ⟨fun hin => absurd (hmem _ hin) (lt_irrefl _), h.requests⟩
  · intro r
    show r ∈ d.accepted :: d.requests ↔ r < d.accepted + 1 ∧ r ∉ d.completed.take d.finished.length
    rw [List.mem_cons, h.mem]
    constructor
    · rintro (rfl | ⟨h1, h2⟩)
      · exact ⟨Nat.lt_succ_self _, fun hin => hnew (List.mem_of_mem_take hin)⟩
      · exact ⟨Nat.lt_succ_of_lt h1, h2⟩
    · rintro ⟨h1, h2⟩
      rcases Nat.lt_succ_iff_lt_or_eq.mp h1 with hlt | heq
      · exact Or.inr ⟨hlt, h2⟩
      · exact Or.inl heq
  · show (d.accepted :: d.requests).length + d.finished.length = d.accepted + 1
    have := h.count
    rw [List.length_cons]
    omega
  · exact hfew
  · intro i hi j hj heq
    rcases List.mem_cons.mp hi with rfl | hi
    · rcases List.mem_cons.mp hj with rfl | hj
      · rfl
      · rw [hself, hold j (hmem j hj), hhead] at heq
        exact absurd heq.symm (hheads j hj)
    · rcases List.mem_cons.mp hj with rfl | hj
      · rw [hself, hold i (hmem i hi), hhead] at heq
        exact absurd heq (hheads i hi)
      · rw [hold i (hmem i hi), hold j (hmem j hj)] at heq
        exact h.heads i hi j hj heq
  · intro j hj hlt
    have hlt' : j < d.sent := hlt
    rw [hold j (by omega)]
    show (fillAll q.parts d.virtio).availableRing _ = _
    rw [hr1]
    exact h.available j hj hlt
  · intro k hk hlt
    have hget : d.completed.getD k 0 ∈ d.completed := by
      have hlt' : k < d.completed.length := hlt
      rw [List.getD_eq_getElem _ _ hlt']
      exact List.getElem_mem hlt'
    show (fillAll q.parts d.virtio).usedRing _ = ((Devices.prepared d q).request (d.completed.getD k 0)).head
    rw [hold _ (hcompleted _ hget), hr3]
    exact h.used k hk hlt
  · intro r hr
    rcases hcases r hr with rfl | hr
    · rw [hself, hhead]
      exact hfill
    · rw [hold r hr.1]
      intro k hk
      have hslot : ((d.request r).head + k) % ringSize ∈ (d.request r).slots :=
        List.mem_map.mpr ⟨k, List.mem_range.mpr hk, rfl⟩
      rw [hundisturbed r hr _ hslot]
      exact h.laid r hr k hk
  · intro r hr
    rcases hcases r hr with rfl | hr
    · rw [hself, hhead]
      exact Nat.mod_lt _ (by decide)
    · rw [hold r hr.1]
      exact h.head_lt r hr
  · intro r hr
    rcases hcases r hr with rfl | hr
    · rw [hself]
      exact hfits
    · rw [hold r hr.1]
      exact h.fits r hr
  · intro r hr
    rcases hcases r hr with rfl | hr
    · rw [hself]
      exact hlengths
    · rw [hold r hr.1]
      exact h.lengths r hr
  · intro r hr
    rcases hcases r hr with rfl | hr
    · rw [hself]
      exact hcovers
    · rw [hold r hr.1]
      exact h.covers r hr

theorem freePending_virtio (n : ℕ) : (d.freePending n).virtio.descriptors = d.virtio.descriptors := by
  induction n generalizing d with
  | zero => rfl
  | succ n ih => exact ih

theorem QueueOk.step {d' : BlockDevice} {a : BlockAction} (h : QueueOk d) (hg : BlockGuarded d a)
    (hs : blockStep d a = some d') : QueueOk d' ∧ Undisturbed d d' := by
  cases a with
  | operation header status data offset size write =>
    obtain ⟨hidle, hs⟩ := Option.ite_none_right_eq_some.mp hs
    cases hs
    obtain ⟨hfits, hslots, hheads, hfew, hcovers, hlengths⟩ := hg
    rcases operation_cases d header status data offset size write with hd | hd
    · rw [hd]
      exact ⟨h, fun _ _ _ _ => rfl⟩
    · rw [hd]
      refine h.prepared hidle rfl ?_ ?_ hheads hfew hcovers hlengths
      · rw [parts_length]
        exact hfits
      · rw [parts_length]
        exact hslots
  | send =>
    obtain ⟨r, hr, rfl⟩ := Option.map_eq_some_iff.mp hs
    exact ⟨h.send hr, fun _ _ _ _ => rfl⟩
  | take =>
    obtain ⟨hne, hs⟩ := Option.ite_none_right_eq_some.mp hs
    cases hs
    exact ⟨h.take hne, fun _ _ _ _ => rfl⟩
  | complete r =>
    obtain ⟨⟨r', head⟩, hfind, rfl⟩ := Option.map_eq_some_iff.mp hs
    exact ⟨h.complete (List.mem_of_find?_eq_some hfind), fun _ _ _ _ => rfl⟩
  | freePending =>
    obtain ⟨-, hs⟩ := Option.ite_none_right_eq_some.mp hs
    cases hs
    refine ⟨h.free, fun r _ i _ => ?_⟩
    exact congrFun (freePending_virtio _) i

theorem freshDevice_ok (readOnly : Bool) : QueueOk (freshDevice readOnly) where
  idle _ := rfl
  sending r h := by cases h
  availableIndex := rfl
  usedIndex := rfl
  ackIndex := rfl
  freed := le_rfl
  taken := le_rfl
  nodup := List.nodup_nil
  completed r h := by cases h
  busy p h := by cases h
  requests := List.nodup_nil
  mem r := ⟨fun h => (by cases h), fun h => absurd h.1 (Nat.not_lt_zero r)⟩
  count := rfl
  few := Nat.zero_le _
  heads i h := by cases h
  available j _ h := absurd h (Nat.not_lt_zero j)
  used k _ h := absurd h (Nat.not_lt_zero k)
  laid r h := absurd h.1 (Nat.not_lt_zero r)
  head_lt r h := absurd h.1 (Nat.not_lt_zero r)
  fits r h := absurd h.1 (Nat.not_lt_zero r)
  lengths r h := absurd h.1 (Nat.not_lt_zero r)
  covers r h := absurd h.1 (Nat.not_lt_zero r)
  matched p h := by cases h

/-- Over every run of guarded requests with any completions, chains, rings and completions are right,
and the next step does not write a descriptor of an outstanding request. -/
theorem requests_intact {readOnly : Bool} {acts : List BlockAction}
    (hr : Runs blockStep BlockGuarded (freshDevice readOnly) acts d) :
    Intact d ∧ ∀ a d', BlockGuarded d a → blockStep d a = some d' → Undisturbed d d' := by
  have hd : QueueOk d := hr.invariant (fun _ _ _ hs hok hst => (hs.step hok hst).1) (freshDevice_ok readOnly)
  exact ⟨hd.intact, fun a d' hg hs => (hd.step hg hs).2⟩

end Steps

instance (d : BlockDevice) (a : BlockAction) : Decidable (BlockGuarded d a) :=
  match a with
  | .operation _ _ data _ size _ => decidable_of_iff
      (data.length + 2 ≤ ringSize ∧
        (∀ r < d.accepted, r ∉ d.completed → ∀ i ∈ (d.request r).slots, i ∉ slots d.virtio.nextHead (data.length + 2)) ∧
        (∀ r ∈ d.requests, (d.request r).head ≠ d.virtio.nextHead) ∧ d.requests.length < ringSize ∧
        (data.map (·.length)).sum = size ∧ ∀ part ∈ data, part.length < 2 ^ 32)
      (by simp only [BlockGuarded, Outstanding, and_imp])
  | .send | .take | .complete _ | .freePending => isTrue trivial

/-- A read and a write in two parts are both at the device, and the second one is completed first. -/
theorem requests_intact_two : ∃ d, Runs blockStep BlockGuarded (freshDevice false)
    [.operation 4096 8192 [⟨12288, 512⟩] 0 512 false, .send, .operation 4112 8193 [⟨16128, 256⟩, ⟨20480, 256⟩] 512 512 true,
      .take, .send, .take, .complete 1, .freePending, .complete 0] d ∧ Intact d ∧ d.finished = [(1, some 1)] := by
  have hfinished : (execOk blockStep BlockGuarded (freshDevice false)
      [.operation 4096 8192 [⟨12288, 512⟩] 0 512 false, .send, .operation 4112 8193 [⟨16128, 256⟩, ⟨20480, 256⟩] 512 512 true,
        .take, .send, .take, .complete 1, .freePending, .complete 0]).map (·.finished) = some [(1, some 1)] := by
    decide
  obtain ⟨d, hexec, hfinished⟩ := Option.map_eq_some_iff.mp hfinished
  have hr := Runs.of_execOk hexec
  exact ⟨d, hr, (requests_intact hr).1, hfinished⟩

/-- The status of a request for a buffer of 127 parts takes the descriptor of its header. -/
theorem request_overwritten :
    ∃ d, Runs blockStep (fun _ _ => True) (freshDevice false)
      [.operation 4096 8192 (List.replicate 127 ⟨12288, 4096⟩) 0 520192 false] d ∧ ¬Intact d := by
  refine ⟨_, .cons trivial rfl (.nil _), fun hintact => ?_⟩
  set q : VirtIOBlockRequest := ⟨4096, List.replicate 127 ⟨12288, 4096⟩, 8192, 520192, false, 1⟩ with hq
  have hprepared : (freshDevice false).virtIOBlockDeviceOperation 4096 8192 (List.replicate 127 ⟨12288, 4096⟩) 0 520192
      false = prepared (freshDevice false) q := by
    unfold BlockDevice.virtIOBlockDeviceOperation
    rw [if_neg (by decide), if_neg (by decide), if_neg (by decide)]
    unfold prepared
    rw [← fillAll_parts]
    rfl
  rw [hprepared] at hintact
  have hchain := (hintact.chains 0 ⟨by decide, by rintro ⟨⟩⟩).1
  have hself : (prepared (freshDevice false) q).request 0 = q := rfl
  rw [hself] at hchain
  have hlast : (fillAll q.parts (freshDevice false).virtio).descriptors 1 = descriptorFor (⟨8192, 1⟩, descWrite) 1 := by
    have hsplit : q.parts = ((⟨4096, 16⟩, descNext) :: q.data.map (·, descNext ||| descWrite)) ++ [(⟨8192, 1⟩, descWrite)] :=
      rfl
    have hnext : (fillAll ((⟨4096, 16⟩, descNext) :: q.data.map (·, descNext ||| descWrite))
        (freshDevice false).virtio).nextHead = 1 := by
      rw [fillAll_nextHead, List.length_cons, List.length_map, hq, List.length_replicate]
      rfl
    rw [hsplit, fillAll, List.foldl_append]
    show (fill (fillAll _ _) _).descriptors 1 = _
    unfold fill
    dsimp only
    rw [hnext, Function.update_self]
  have hfirst := congrArg List.head? hchain
  rw [chain_head? (by decide)] at hfirst
  change some ((⟨((fillAll q.parts (freshDevice false).virtio).descriptors 1).address,
    ((fillAll q.parts (freshDevice false).virtio).descriptors 1).length⟩ : BufferPart),
    ((fillAll q.parts (freshDevice false).virtio).descriptors 1).flags) = _ at hfirst
  rw [hlast] at hfirst
  cases hfirst

end SomeOs.Devices
