import SomeOs.Base.Transition

/-! # Process groups and sessions

Registered processes by their pids, which are not used again. A process that has exited stays
registered until it is finalized, and its children then get other parents. `setsid` and
`setpgid` look at the process that has the pid of a group, and not at the members of the group.
-/
namespace SomeOs.Process
open Transition

structure Member where
  pgid : ℤ
  sid : ℤ
  parent : Option ℤ
  running : Bool

structure Sessions where
  nextPid : ℤ
  process : ℤ → Option Member

inductive GroupError where
  | ESRCH
  | EPERM

namespace Sessions

def setMember (s : Sessions) (pid : ℤ) (m : Member) : Sessions :=
  { s with process := Function.update s.process pid (some m) }

/-- `createUserProcess` with a parent. -/
def createUserProcess (s : Sessions) (parent : ℤ) (m : Member) : Sessions :=
  { s.setMember s.nextPid { pgid := m.pgid, sid := m.sid, parent := some parent, running := true } with
    nextPid := s.nextPid + 1 }

def unregisterProcess (s : Sessions) (pid : ℤ) (parents : ℤ → Option ℤ) : Sessions :=
  { s with process := fun q => if q = pid then none else (s.process q).map fun m => { m with parent := parents q } }

def setSidSyscall (s : Sessions) (pid : ℤ) (m : Member) : Except GroupError Sessions :=
  if pid = m.pgid then .error .EPERM else .ok (s.setMember pid { m with sid := pid, pgid := pid })

def getSid (s : Sessions) (pid : ℤ) : Except GroupError ℤ :=
  match s.process pid with
  | none => .error .ESRCH
  | some m => .ok m.sid

/-- The task of the process `caller` changes the group of the process `pid`. -/
def setPgidSyscallCallback (s : Sessions) (caller pid : ℤ) (m : Member) (pgid : ℤ) : Except GroupError Sessions :=
  if pid ≠ caller ∧ m.parent ≠ some caller then .error .ESRCH
  else
    let group := if pgid = 0 then pid else pgid
    match (if pgid = 0 then .ok m.sid else s.getSid pgid) with
    | .error e => .error e
    | .ok newSid => if m.sid ≠ newSid then .error .EPERM else .ok (s.setMember pid { m with pgid := group })

def setPgidSyscall (s : Sessions) (caller pid pgid : ℤ) : Except GroupError Sessions :=
  let pid := if pid = 0 then caller else pid
  match s.process pid with
  | none => .error .ESRCH
  | some m => s.setPgidSyscallCallback caller pid m pgid

end Sessions

/-- The parents that the children of a finalized process get are given by the action. -/
inductive SessionAction where
  | fork (caller : ℤ)
  | exit (caller : ℤ)
  | finalize (pid : ℤ) (parents : ℤ → Option ℤ)
  | setSid (caller : ℤ)
  | setPgid (caller pid pgid : ℤ)

/-- Processes make calls until they exit. A call that is refused changes nothing. -/
def sessionStep (s : Sessions) : SessionAction → Option Sessions
  | .fork caller => ((s.process caller).filter (·.running)).map fun m => s.createUserProcess caller m
  | .exit caller => ((s.process caller).filter (·.running)).map fun m => s.setMember caller { m with running := false }
  | .finalize pid parents => ((s.process pid).filter (!·.running)).map fun _ => s.unregisterProcess pid parents
  | .setSid caller => ((s.process caller).filter (·.running)).map fun m => match s.setSidSyscall caller m with
    | .ok t => t
    | .error _ => s
  | .setPgid caller pid pgid => ((s.process caller).filter (·.running)).map fun _ =>
    match s.setPgidSyscall caller pid pgid with
    | .ok t => t
    | .error _ => s

/-- `createUserProcess` without a parent, for the first process. -/
def firstProcess : Sessions where
  nextPid := 2
  process pid := if pid = 1 then some { pgid := 1, sid := 1, parent := none, running := true } else none

/-- Processes of one group are in one session, and the leader of a session leads its group. -/
structure GroupsInSessions (s : Sessions) : Prop where
  session : ∀ p q m n, s.process p = some m → s.process q = some n → m.pgid = n.pgid → m.sid = n.sid
  leader : ∀ p m, s.process p = some m → m.sid = p → m.pgid = p

/-- A new session or group has no members of another session, and no leader of a session is moved to
the group of another process. -/
def GroupsGuarded (s : Sessions) : SessionAction → Prop
  | .setSid caller => ∀ q n, s.process q = some n → q ≠ caller → n.pgid = caller → n.sid = caller
  | .setPgid caller pid pgid => ∀ m, s.process (if pid = 0 then caller else pid) = some m →
    (∀ q n, s.process q = some n →
      n.pgid = (if pgid = 0 then (if pid = 0 then caller else pid) else pgid) → n.sid = m.sid) ∧
    (m.sid = (if pid = 0 then caller else pid) → pgid ≠ 0 → pgid = m.sid)
  | _ => True

section Steps
variable {s t : Sessions} {a : SessionAction} {p q : ℤ} {m n : Member}

def PidsBelow (s : Sessions) : Prop := ∀ p m, s.process p = some m → p < s.nextPid ∧ m.sid < s.nextPid

theorem setMember_cases (h : (s.setMember p m).process q = some n) :
    (q = p ∧ n = m) ∨ (q ≠ p ∧ s.process q = some n) := by
  by_cases hqp : q = p
  · subst hqp
    have hm : (s.setMember q m).process q = some m := Function.update_self ..
    rw [hm] at h
    cases h
    exact Or.inl ⟨rfl, rfl⟩
  · exact Or.inr ⟨hqp, (Function.update_of_ne hqp ..).symm.trans h⟩

theorem PidsBelow.setMember (h : PidsBelow s) (hp : p < s.nextPid) (hm : m.sid < s.nextPid) :
    PidsBelow (s.setMember p m) := by
  intro q n hq
  rcases setMember_cases hq with ⟨rfl, rfl⟩ | ⟨-, hq⟩
  · exact ⟨hp, hm⟩
  · exact h q n hq

theorem GroupsInSessions.setMember (h : GroupsInSessions s)
    (hsession : ∀ q n, s.process q = some n → q ≠ p → n.pgid = m.pgid → n.sid = m.sid)
    (hleader : m.sid = p → m.pgid = p) : GroupsInSessions (s.setMember p m) := by
  constructor
  · intro q r n k hq hr hgroup
    rcases setMember_cases hq with ⟨rfl, rfl⟩ | ⟨hqp, hq'⟩
    · rcases setMember_cases hr with ⟨rfl, rfl⟩ | ⟨hrp, hr'⟩
      · rfl
      · exact (hsession r k hr' hrp hgroup.symm).symm
    · rcases setMember_cases hr with ⟨rfl, rfl⟩ | ⟨hrp, hr'⟩
      · exact hsession q n hq' hqp hgroup
      · exact h.session q r n k hq' hr' hgroup
  · intro q n hq hsid
    rcases setMember_cases hq with ⟨rfl, rfl⟩ | ⟨-, hq⟩
    · exact hleader hsid
    · exact h.leader q n hq hsid

/-- What a step does to the members. -/
theorem sessionStep_cases (h : sessionStep s a = some t) :
    t = s ∨
    (∃ p m, a = .fork p ∧ s.process p = some m ∧ t = s.createUserProcess p m) ∨
    (∃ p m, s.process p = some m ∧ t = s.setMember p { m with running := false }) ∨
    (∃ p parents, t = s.unregisterProcess p parents) ∨
    (∃ p m, a = .setSid p ∧ s.process p = some m ∧ t = s.setMember p { m with sid := p, pgid := p }) ∨
    (∃ caller pid pgid m, a = .setPgid caller pid pgid ∧ s.process (if pid = 0 then caller else pid) = some m ∧
      t = s.setMember (if pid = 0 then caller else pid)
        { m with pgid := if pgid = 0 then (if pid = 0 then caller else pid) else pgid }) := by
  cases a with
  | fork caller =>
    obtain ⟨m, hm, rfl⟩ := Option.map_eq_some_iff.mp h
    exact Or.inr (Or.inl ⟨caller, m, rfl, (Option.filter_eq_some_iff.mp hm).1, rfl⟩)
  | exit caller =>
    obtain ⟨m, hm, rfl⟩ := Option.map_eq_some_iff.mp h
    exact Or.inr (Or.inr (Or.inl ⟨caller, m, (Option.filter_eq_some_iff.mp hm).1, rfl⟩))
  | finalize pid parents =>
    obtain ⟨m, hm, rfl⟩ := Option.map_eq_some_iff.mp h
    exact Or.inr (Or.inr (Or.inr (Or.inl ⟨pid, parents, rfl⟩)))
  | setSid caller =>
    obtain ⟨m, hm, rfl⟩ := Option.map_eq_some_iff.mp h
    unfold Sessions.setSidSyscall
    split_ifs with hpid
    · exact Or.inl rfl
    · exact Or.inr (Or.inr (Or.inr (Or.inr (Or.inl ⟨caller, m, rfl, (Option.filter_eq_some_iff.mp hm).1, rfl⟩))))
  | setPgid caller pid pgid =>
    obtain ⟨m', -, rfl⟩ := Option.map_eq_some_iff.mp h
    unfold Sessions.setPgidSyscall
    dsimp only
    generalize hp : (if pid = 0 then caller else pid) = p
    cases hm : s.process p with
    | none => exact Or.inl rfl
    | some m =>
      have hdone : s.setPgidSyscallCallback caller p m pgid =
          .ok (s.setMember p { m with pgid := if pgid = 0 then p else pgid }) ∨
          ∃ e, s.setPgidSyscallCallback caller p m pgid = .error e := by
        unfold Sessions.setPgidSyscallCallback
        dsimp only
        split_ifs with h1 h2
        · exact Or.inr ⟨_, rfl⟩
        · exact Or.inl (by simp)
        · cases s.getSid pgid with
          | error e => exact Or.inr ⟨e, rfl⟩
          | ok newSid =>
            dsimp only
            split_ifs with h3
            · exact Or.inr ⟨_, rfl⟩
            · exact Or.inl rfl
      dsimp only
      rcases hdone with hdone | ⟨e, hdone⟩
      · rw [hdone]
        exact Or.inr (Or.inr (Or.inr (Or.inr (Or.inr ⟨caller, pid, pgid, m, rfl, by rw [hp]; exact hm, by rw [hp]⟩))))
      · rw [hdone]
        exact Or.inl rfl

/-- One guarded step keeps groups within sessions. -/
theorem groups_step (h : GroupsInSessions s) (hbelow : PidsBelow s) (hg : GroupsGuarded s a)
    (hstep : sessionStep s a = some t) : GroupsInSessions t ∧ PidsBelow t := by
  obtain rfl | ⟨p, m, rfl, hm, rfl⟩ | ⟨p, m, hm, rfl⟩ | ⟨p, parents, rfl⟩ | ⟨p, m, rfl, hm, rfl⟩ |
    ⟨caller, pid, pgid, m, rfl, hm, rfl⟩ := sessionStep_cases hstep
  · exact ⟨h, hbelow⟩
  · obtain ⟨hp, hsid⟩ := hbelow p m hm
    have hsame : GroupsInSessions (s.setMember s.nextPid
        { pgid := m.pgid, sid := m.sid, parent := some p, running := true }) :=
      h.setMember (fun q n hq _ hgroup => h.session q p n m hq hm hgroup) (fun hleader => absurd hleader (ne_of_lt hsid))
    refine ⟨⟨hsame.session, hsame.leader⟩, fun q n hq => ?_⟩
    show q < s.nextPid + 1 ∧ n.sid < s.nextPid + 1
    rcases setMember_cases hq with ⟨rfl, rfl⟩ | ⟨-, hq⟩
    · exact ⟨by omega, by dsimp only; omega⟩
    · obtain ⟨h1, h2⟩ := hbelow q n hq
      exact ⟨by omega, by omega⟩
  · obtain ⟨hp, hsid⟩ := hbelow p m hm
    exact ⟨h.setMember (fun q n hq _ hgroup => h.session q p n m hq hm hgroup) (h.leader p m hm),
      hbelow.setMember hp hsid⟩
  · have hget : ∀ q n, (s.unregisterProcess p parents).process q = some n →
        ∃ k, s.process q = some k ∧ n.pgid = k.pgid ∧ n.sid = k.sid := by
      intro q n hq
      simp only [Sessions.unregisterProcess] at hq
      split_ifs at hq
      obtain ⟨k, hk, rfl⟩ := Option.map_eq_some_iff.mp hq
      exact ⟨k, hk, rfl, rfl⟩
    refine ⟨⟨?_, ?_⟩, ?_⟩
    · intro q r n k hq hr hgroup
      obtain ⟨n', hn, hn1, hn2⟩ := hget q n hq
      obtain ⟨k', hk, hk1, hk2⟩ := hget r k hr
      rw [hn2, hk2]
      exact h.session q r n' k' hn hk (by rw [← hn1, ← hk1, hgroup])
    · intro q n hq hsid
      obtain ⟨n', hn, hn1, hn2⟩ := hget q n hq
      rw [hn1]
      exact h.leader q n' hn (by rw [← hn2, hsid])
    · intro q n hq
      obtain ⟨n', hn, -, hn2⟩ := hget q n hq
      rw [hn2]
      exact hbelow q n' hn
  · obtain ⟨hp, -⟩ := hbelow p m hm
    exact ⟨h.setMember hg (fun _ => rfl), hbelow.setMember hp hp⟩
  · obtain ⟨hmembers, hleader⟩ := hg m hm
    obtain ⟨hp, hsid⟩ := hbelow _ m hm
    refine ⟨h.setMember (fun q n hq _ hgroup => hmembers q n hq hgroup) fun hlead => ?_, hbelow.setMember hp hsid⟩
    by_cases hpgid : pgid = 0
    · exact if_pos hpgid
    · dsimp only
      rw [if_neg hpgid]
      exact (hleader hlead hpgid).trans hlead

/-- Over every run of guarded calls, groups stay within sessions. -/
theorem groups_in_sessions {acts : List SessionAction} (hr : Runs sessionStep GroupsGuarded firstProcess acts t) :
    GroupsInSessions t := by
  have hget : ∀ p m, firstProcess.process p = some m → p = 1 ∧ m.pgid = 1 ∧ m.sid = 1 := by
    intro p m hp
    simp only [firstProcess] at hp
    split_ifs at hp with hone
    cases hp
    exact ⟨hone, rfl, rfl⟩
  have hfirst : GroupsInSessions firstProcess ∧ PidsBelow firstProcess := by
    refine ⟨⟨?_, ?_⟩, ?_⟩
    · intro p q m n hp hq _
      rw [(hget p m hp).2.2, (hget q n hq).2.2]
    · intro p m hp _
      rw [(hget p m hp).2.1, (hget p m hp).1]
    · intro p m hp
      obtain ⟨rfl, -, hsid⟩ := hget p m hp
      exact ⟨by decide, by rw [hsid]; decide⟩
  exact (hr.invariant (fun _ _ _ hs hok hst => groups_step hs.1 hs.2 hok hst) hfirst).1

end Steps

theorem groups_in_sessions_small :
    ∃ t, Runs sessionStep GroupsGuarded firstProcess [.fork 1, .setSid 2] t ∧ GroupsInSessions t := by
  have hr : Runs sessionStep GroupsGuarded firstProcess [.fork 1, .setSid 2]
      ((exec sessionStep firstProcess [.fork 1, .setSid 2]).getD firstProcess) := by
    refine .cons trivial rfl (.cons ?_ rfl (.nil _))
    intro q n hq hne hgroup
    rcases setMember_cases hq with ⟨rfl, rfl⟩ | ⟨-, hq⟩
    · exact absurd rfl hne
    · simp only [firstProcess] at hq
      split_ifs at hq
      cases hq
      exact absurd hgroup (by decide)
  exact ⟨_, hr, groups_in_sessions hr⟩

/-- A process leaves its group with a child in it and becomes the leader of a session: its old group
is in two sessions. -/
theorem groups_span_sessions :
    ∃ t, Runs sessionStep (fun _ _ => True) firstProcess
      [.fork 1, .setPgid 2 0 0, .fork 2, .setPgid 2 0 1, .setSid 2] t ∧ ¬GroupsInSessions t := by
  refine ⟨_, .cons trivial rfl (.cons trivial rfl (.cons trivial rfl (.cons trivial rfl (.cons trivial rfl (.nil _))))),
    fun h => ?_⟩
  exact absurd (h.session 2 3 _ _ rfl rfl rfl) (by decide)

end SomeOs.Process
