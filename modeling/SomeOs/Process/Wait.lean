import SomeOs.Process.Tree

/-! # What a wait returns

The scan of a wait with everything that it reads and writes: the status that is
handed to the caller, the times of the child and the pending signals. It is compared
with the selection of children that waiting for a process, a group or any child asks
for. For a process group the scan looks at the group of the caller.
-/
namespace SomeOs.Process
open LinkedList
variable {P : Type*}

/-- `SIGCHLD` -/
abbrev SIGCHLD : ℕ := 20

structure TaskTimes where
  user_time : UInt64
  user_child_time : UInt64
  system_time : UInt64
  system_child_time : UInt64

structure PendingSignal where
  signal : ℕ
  child_pid : ℤ

/-- The processes with their times, the times of the waiting task, the pending
signals of its process and the status written through the pointer of the call. -/
structure Waiting (P : Type*) where
  processes : Processes P
  processTimes : P → TaskTimes
  times : TaskTimes
  signals : List PendingSignal
  written : Option ℕ

namespace Processes

def Selected (s : Processes P) (p : P) (pid : ℤ) (child : P) : Prop :=
  pid = -1 ∨ (pid = 0 ∧ s.pgid child = s.pgid p) ∨ (pid < -1 ∧ s.pgid child = -pid) ∨ (0 < pid ∧ s.pid child = pid)

/-- The condition on a wait for a group. In the group of the caller the first child
with something to report, or else any child if there are children, is of the group;
of another group there is no child. -/
def GroupSound (s : Processes P) (p : P) (pid : ℤ) (flags : ℕ) (kids : List P) : Prop :=
  pid < -1 →
    if s.pgid p = -pid then
      match kids.find? (s.reports flags) with
      | some child => s.pgid child = -pid
      | none => kids = [] ∨ ∃ child ∈ kids, s.pgid child = -pid
    else ∀ child ∈ kids, s.pgid child ≠ -pid

theorem status_ne_zero {s : Processes P} {flags : ℕ} {child : P} (h : s.reports flags child = true)
    (htasks : s.tasks child = true) : s.status child ≠ 0 := by
  intro h0
  simp [reports, htasks, h0] at h

/-- The test of the scan is the right one, except that for a group it looks at the
group of the caller. -/
theorem asksFor_iff (s : Processes P) (p : P) (pid : ℤ) (child : P) :
    s.asksFor p pid child = true ↔ if pid < -1 then s.pgid p = -pid else s.Selected p pid child := by
  unfold asksFor Selected
  split_ifs with hgroup
  · have h1 : pid ≠ -1 := by omega
    have h2 : pid ≠ 0 := by omega
    have h3 : ¬0 < pid := by omega
    simp [h1, h2, h3, hgroup]
  · simp only [Bool.or_eq_true, Bool.and_eq_true, beq_iff_eq, decide_eq_true_eq, hgroup, false_and, false_or,
      or_false, or_assoc, eq_comm (a := s.pgid p), gt_iff_lt]

theorem selected_group (s : Processes P) (p child : P) {pid : ℤ} (hgroup : pid < -1) :
    s.Selected p pid child ↔ s.pgid child = -pid := by
  have h1 : pid ≠ -1 := by omega
  have h2 : pid ≠ 0 := by omega
  have h3 : ¬0 < pid := by omega
  simp [Selected, h1, h2, h3, hgroup]

end Processes

variable [DecidableEq P]

namespace Waiting

def clearPendingChildSignals (w : Waiting P) (child_pid : ℤ) : Waiting P :=
  { w with signals := w.signals.filter fun s => !(s.signal == SIGCHLD && s.child_pid == child_pid) }

/-- The child is reported, and unlinked at `current` if it has ended. -/
def report (w : Waiting P) (p child : P) (current : Option P) : Waiting P :=
  let s := w.processes
  let w := { w with
    written := some (s.status child)
    times := { w.times with
      user_child_time := w.times.user_child_time +
        ((w.processTimes child).user_time + (w.processTimes child).user_child_time)
      system_child_time := w.times.system_child_time +
        ((w.processTimes child).system_time + (w.processTimes child).system_child_time) } }
  let w := w.clearPendingChildSignals (s.pid child)
  let t := { s with status := Function.update s.status child 0 }
  { w with
    processes := if s.tasks child then t
      else Processes.deallocProcess { t.unlinkChild p child current with
        phase := Function.update s.phase child .reaped } child }

def basicProcessWait (p : P) (pid : ℤ) (flags : ℕ) : ℕ → Waiting P → (current : Option P) → (found : ℕ) →
    Option (Waiting P × Except WaitError ℤ)
  | fuel, w, current, found =>
    match current.elim (w.processes.children p) w.processes.childNext, fuel with
    | none, _ => some (w, .error (if found ≠ 0 then (if flags.testBit 0 then .EAGAIN else .EINTR) else .ECHILD))
    | some _, 0 => none
    | some child, fuel + 1 =>
      if w.processes.asksFor p pid child then
        if w.processes.reports flags child then some (w.report p child current, .ok (w.processes.pid child))
        else basicProcessWait p pid flags fuel w (some child) (found + 1)
      else basicProcessWait p pid flags fuel w (some child) found

end Waiting

/-- What a report of a child changes: its status is handed over and forgotten, its
times are added and its signals cleared, and it leaves the list if it has ended. -/
structure Reported (w w' : Waiting P) (p child : P) (kids : List P) : Prop where
  written : w'.written = some (w.processes.status child)
  status : w'.processes.status = Function.update w.processes.status child 0
  times : w'.times = { w.times with
    user_child_time := w.times.user_child_time +
      ((w.processTimes child).user_time + (w.processTimes child).user_child_time)
    system_child_time := w.times.system_child_time +
      ((w.processTimes child).system_time + (w.processTimes child).system_child_time) }
  signals : w'.signals = (w.clearPendingChildSignals (w.processes.pid child)).signals
  children : Chain w'.processes.childNext (w'.processes.children p)
    (if w.processes.tasks child then kids else kids.erase child)
  finalizing : w'.processes.finalizing = w.processes.finalizing ++ if w.processes.tasks child then [] else [child]

def WaitRight (w w' : Waiting P) (p : P) (pid : ℤ) (flags : ℕ) (kids : List P) : Except WaitError ℤ → Prop
  | .ok r => ∃ child ∈ kids, w.processes.Selected p pid child ∧ w.processes.reports flags child = true ∧
      r = w.processes.pid child ∧ Reported w w' p child kids
  | .error e => w' = w ∧ (∀ child ∈ kids, w.processes.Selected p pid child → w.processes.reports flags child = false) ∧
      (e = .ECHILD ↔ ∀ child ∈ kids, ¬w.processes.Selected p pid child)

section Scan
variable {w : Waiting P} {p : P} {pid : ℤ} {flags fuel found : ℕ} {kids l₁ l₂ : List P}

/-- The scan takes the first child that it asks for and that has something to report. -/
theorem basicProcessWait_scan (hkids : Chain w.processes.childNext (w.processes.children p) (l₁ ++ l₂))
    (hskip : ∀ c ∈ l₁, (w.processes.asksFor p pid c && w.processes.reports flags c) = false)
    (hfound : found = l₁.countP (w.processes.asksFor p pid)) (hfuel : l₂.length ≤ fuel) :
    (∃ l₃ child l₄, l₁ ++ l₂ = l₃ ++ child :: l₄ ∧
      (l₁ ++ l₂).find? (fun c => w.processes.asksFor p pid c && w.processes.reports flags c) = some child ∧
      w.basicProcessWait p pid flags fuel l₁.getLast? found =
        some (w.report p child l₃.getLast?, .ok (w.processes.pid child))) ∨
    ((l₁ ++ l₂).find? (fun c => w.processes.asksFor p pid c && w.processes.reports flags c) = none ∧
      w.basicProcessWait p pid flags fuel l₁.getLast? found =
        some (w, .error (if (l₁ ++ l₂).countP (w.processes.asksFor p pid) ≠ 0 then
          (if flags.testBit 0 then .EAGAIN else .EINTR) else .ECHILD))) := by
  induction l₂ generalizing l₁ fuel found with
  | nil =>
    right
    rw [List.append_nil] at hkids ⊢
    have hcur := Chain.current (show Chain _ _ (l₁ ++ []) by rwa [List.append_nil])
    refine ⟨List.find?_eq_none.mpr (by simpa using hskip), ?_⟩
    unfold Waiting.basicProcessWait
    rw [hcur, hfound]
    cases fuel <;> rfl
  | cons child l₂ ih =>
    obtain ⟨fuel, rfl⟩ : ∃ n, fuel = n + 1 := ⟨fuel - 1, by simp only [List.length_cons] at hfuel; omega⟩
    have hcur := hkids.current
    have hnext : l₁ ++ child :: l₂ = (l₁ ++ [child]) ++ l₂ := by simp
    have hlast : some child = (l₁ ++ [child]).getLast? := by simp
    unfold Waiting.basicProcessWait
    rw [hcur, List.head?_cons]
    dsimp only
    have hlater (hno : (w.processes.asksFor p pid child && w.processes.reports flags child) = false) :
        ∀ c ∈ l₁ ++ [child], (w.processes.asksFor p pid c && w.processes.reports flags c) = false := by
      intro c hc
      rcases List.mem_append.mp hc with hc | hc
      · exact hskip c hc
      · rw [List.mem_singleton.mp hc, hno]
    by_cases hasks : w.processes.asksFor p pid child
    · rw [if_pos hasks]
      by_cases hreports : w.processes.reports flags child
      · rw [if_pos hreports]
        left
        refine ⟨l₁, child, l₂, rfl, ?_, rfl⟩
        rw [List.find?_append, List.find?_eq_none.mpr (by simpa using hskip)]
        simp [hasks, hreports]
      · rw [if_neg hreports, hnext, hlast]
        rw [hnext] at hkids
        exact ih hkids (hlater (by simp [hreports])) (by simp [hfound, hasks]) (by simpa using hfuel)
    · rw [if_neg hasks, hnext, hlast]
      rw [hnext] at hkids
      exact ih hkids (hlater (by simp [hasks])) (by simp [hfound, hasks]) (by simpa using hfuel)

theorem report_reported {child : P}
    (hkids : Chain w.processes.childNext (w.processes.children p) (l₁ ++ child :: l₂)) :
    Reported w (w.report p child l₁.getLast?) p child (l₁ ++ child :: l₂) := by
  cases htasks : w.processes.tasks child with
  | true =>
    constructor
    case children => simpa [Waiting.report, htasks] using hkids
    all_goals simp [Waiting.report, Waiting.clearPendingChildSignals, htasks]
  | false =>
    constructor
    case children =>
      have hnodup := hkids.nodup
      rw [List.nodup_middle, List.nodup_cons, List.mem_append, not_or] at hnodup
      have hunlink := hkids.unlink
      simp only [Waiting.report, Waiting.clearPendingChildSignals, htasks, Bool.false_eq_true, if_false,
        Processes.deallocProcess, Processes.unlinkChild]
      rw [List.erase_append_right _ hnodup.1.1, List.erase_cons_head]
      split_ifs at hunlink ⊢ with hfirst
      · rw [Function.update_self]
        exact hunlink
      · exact hunlink
    all_goals
      simp [Waiting.report, Waiting.clearPendingChildSignals, htasks, Processes.deallocProcess,
        Processes.unlinkChild]

theorem Reported.unique {w' : Waiting P} {c d : P} (hc : Reported w w' p c kids) (hd : Reported w w' p d kids)
    (hrc : w.processes.reports flags c = true) (hrd : w.processes.reports flags d = true) : c = d := by
  have hfin := hc.finalizing.symm.trans hd.finalizing
  have hstatus := hc.status.symm.trans hd.status
  cases htc : w.processes.tasks c with
  | true =>
    by_contra hne
    have := congrFun hstatus c
    rw [Function.update_self, Function.update_of_ne hne] at this
    exact Processes.status_ne_zero hrc htc this.symm
  | false =>
    cases htd : w.processes.tasks d with
    | true =>
      by_contra hne
      have := congrFun hstatus d
      rw [Function.update_self, Function.update_of_ne (Ne.symm hne)] at this
      exact Processes.status_ne_zero hrd htd this
    | false => simpa [htc, htd] using hfin

end Scan

section Right
variable {w : Waiting P} {p : P} {kids : List P}

/-- A wait does what is asked for if and only if the group of the caller is no
mistake for the group of the children. -/
theorem basicProcessWait_right_iff (pid : ℤ) (flags fuel : ℕ)
    (hkids : Chain w.processes.childNext (w.processes.children p) kids) (hfuel : kids.length ≤ fuel) :
    ∃ w' result, w.basicProcessWait p pid flags fuel none 0 = some (w', result) ∧
      (WaitRight w w' p pid flags kids result ↔ w.processes.GroupSound p pid flags kids) := by
  have hscan := @basicProcessWait_scan P _ w p pid flags fuel 0 [] kids hkids (by simp)
    List.countP_nil.symm hfuel
  rw [List.nil_append] at hscan
  rcases hscan with ⟨l₃, child, l₄, hsplit, hfind, hrun⟩ | ⟨hfind, hrun⟩
  · refine ⟨_, _, hrun, ?_⟩
    have hmem : child ∈ kids := List.mem_of_find?_eq_some hfind
    have htest := List.find?_some hfind
    rw [Bool.and_eq_true, Processes.asksFor_iff] at htest
    have hreported : Reported w (w.report p child l₃.getLast?) p child kids := by
      rw [hsplit] at hkids ⊢
      exact report_reported hkids
    have hright : WaitRight w (w.report p child l₃.getLast?) p pid flags kids (.ok (w.processes.pid child)) ↔
        w.processes.Selected p pid child := by
      constructor
      · rintro ⟨c, -, hsel, hrep, -, hrc⟩
        rwa [hreported.unique hrc htest.2 hrep]
      · exact fun hsel => ⟨child, hmem, hsel, htest.2, rfl, hreported⟩
    rw [hright]
    unfold Processes.GroupSound
    by_cases hgroup : pid < -1
    · rw [if_pos hgroup] at htest
      have hfirst : kids.find? (w.processes.reports flags) = some child := by
        rw [← hfind]
        congr 1
        funext c
        simp [(Processes.asksFor_iff w.processes p pid c).mpr (by rw [if_pos hgroup]; exact htest.1)]
      simp only [hfirst, if_pos htest.1]
      rw [Processes.selected_group _ _ _ hgroup]
      exact ⟨fun h _ => h, fun h => h hgroup⟩
    · rw [if_neg hgroup] at htest
      exact ⟨fun _ h => absurd h hgroup, fun _ => htest.1⟩
  · refine ⟨_, _, hrun, ?_⟩
    have hnone : ∀ c ∈ kids, w.processes.asksFor p pid c = true → w.processes.reports flags c = false := by
      simpa [List.find?_eq_none] using hfind
    have hchild : (if kids.countP (w.processes.asksFor p pid) ≠ 0 then
        (if flags.testBit 0 then WaitError.EAGAIN else .EINTR) else .ECHILD) = .ECHILD ↔
        ∀ c ∈ kids, ¬w.processes.asksFor p pid c = true := by
      rw [← List.countP_eq_zero]
      split_ifs <;> simp_all
    simp only [WaitRight, hchild, true_and]
    unfold Processes.GroupSound
    by_cases hgroup : pid < -1
    · simp only [hgroup, forall_const, Processes.selected_group _ _ _ hgroup]
      simp only [Processes.asksFor_iff, if_pos hgroup] at hnone ⊢
      split_ifs with hown
      · have hall : kids.find? (w.processes.reports flags) = none :=
          List.find?_eq_none.mpr fun c hc => by simp [hnone c hc hown]
        simp only [hall]
        refine ⟨fun h => ?_, fun h => ⟨fun c hc _ => hnone c hc hown, ?_⟩⟩
        · rw [or_iff_not_imp_right]
          intro hno
          push Not at hno
          exact List.eq_nil_iff_forall_not_mem.mpr fun c hc => h.2.mpr hno c hc hown
        · rcases h with rfl | ⟨c, hc, hgc⟩
          · simp
          · exact ⟨fun h => absurd hown (h c hc), fun h => absurd hgc (h c hc)⟩
      · refine ⟨fun h => h.2.mp fun _ _ => hown, fun h => ⟨fun c hc hgc => absurd hgc (h c hc), ?_⟩⟩
        exact ⟨fun _ => h, fun _ _ _ => hown⟩
    · simp only [hgroup, IsEmpty.forall_iff, iff_true]
      simp only [Processes.asksFor_iff, if_neg hgroup] at hnone ⊢
      exact ⟨hnone, trivial⟩

end Right

/-- A process 1 of the group 1, with a child 2 that is alone in its group and has
ended with the exit code 7. -/
def endedChild : Waiting ℕ where
  processes := { noProcesses ℕ with
    pid := Int.ofNat
    pgid := Int.ofNat
    status := fun c => if c = 2 then 7 else 0
    tasks := fun c => c = 1
    parent := fun c => if c = 2 then some 1 else none
    children := fun c => if c = 1 then some 2 else none
    phase := fun c => if c = 1 ∨ c = 2 then .alive else .absent }
  processTimes := fun _ => ⟨3, 0, 2, 0⟩
  times := ⟨0, 0, 0, 0⟩
  signals := [⟨SIGCHLD, 2⟩]
  written := none

/-- Waiting for the child by its pid. -/
theorem basicProcessWait_right_iff_ended :
    ∃ w' result, endedChild.basicProcessWait 1 2 0 1 none 0 = some (w', result) ∧
      (WaitRight endedChild w' 1 2 0 [2] result ↔ endedChild.processes.GroupSound 1 2 0 [2]) :=
  basicProcessWait_right_iff 2 0 1 (by simp [endedChild, noProcesses]) le_rfl

/-- A wait for the group 2 finds no child, though one is in it. -/
theorem wait_group_misses :
    ¬∀ (w : Waiting ℕ) (p : ℕ) (pid : ℤ) (flags fuel : ℕ) (kids : List ℕ) (w' : Waiting ℕ)
      (result : Except WaitError ℤ), Chain w.processes.childNext (w.processes.children p) kids →
      kids.length ≤ fuel → w.basicProcessWait p pid flags fuel none 0 = some (w', result) →
      WaitRight w w' p pid flags kids result := by
  intro h
  have hright := h endedChild 1 (-2) 0 1 [2] endedChild (.error .ECHILD) (by simp [endedChild, noProcesses]) le_rfl rfl
  exact hright.2.2.mp rfl 2 (by simp) (Or.inr (Or.inr (Or.inl ⟨by decide, rfl⟩)))

end SomeOs.Process
