import SomeOs.Base.Transition
import SomeOs.Process.Credentials
import SomeOs.Vfs.Namespace

/-! # Files with the set-user-id bit

The program of a file with the set-user-id bit runs as the owner of the file. Owners give
files away together with the bit, and a file is written without losing it. The state says of
every file whether an unprivileged process has written its contents. A node that is evicted
comes back with the 16 bits of its owner that the inode has.
-/
namespace SomeOs.Process
open Vfs Minix Transition
variable {P F : Type} [DecidableEq P] [DecidableEq F]

/-- `VFS_MODE_SETUID` -/
abbrev modeSetuid : ℕ := 1 <<< 10
/-- `VFS_MODE_SETGID` -/
abbrev modeSetgid : ℕ := 1 <<< 11

structure World (P F : Type) where
  credentials : P → Credentials
  stat : F → Option VfsStat
  authored : F → Bool

def Credentials.toUser (c : Credentials) : User := ⟨c.user.effective.toNat, c.group.effective.toNat⟩

/-- The ids of a process after it has loaded a program, as the end of `loadProgramInto` sets them. -/
def Credentials.load (c : Credentials) (stat : VfsStat) : Credentials :=
  let c := if stat.mode &&& modeSetuid ≠ 0 then
    { c with user := { c.user with effective := BitVec.ofNat 32 stat.uid, saved := BitVec.ofNat 32 stat.uid } } else c
  if stat.mode &&& modeSetgid ≠ 0 then
    { c with group := { c.group with effective := BitVec.ofNat 32 stat.gid, saved := BitVec.ofNat 32 stat.gid } } else c

namespace World

/-- The file is opened to be executed, and after the program has been loaded the process is replaced. -/
def loadProgramInto (w : World P F) (p : P) (stat : VfsStat) (loads : Bool) : Except ErrorKind (World P F) := do
  canAccess stat (some (w.credentials p).toUser) { x := true, reg := true }
  if loads then
    return { w with credentials := Function.update w.credentials p ((w.credentials p).load stat) }
  else throw .EINVAL

def writeAt (w : World P F) (p : P) (f : F) (stat : VfsStat) : Except ErrorKind (World P F) := do
  canAccess stat (some (w.credentials p).toUser) { w := true }
  return { w with authored := Function.update w.authored f true }

def setStat (w : World P F) (f : F) (stat : VfsStat) : World P F :=
  { w with stat := Function.update w.stat f (some stat) }

end World

inductive FileAction (P F : Type) where
  | create (p : P) (f : F) (umask mode : ℕ)
  | write (p : P) (f : F)
  | truncate (p : P) (f : F)
  | chmod (p : P) (f : F) (mode : ℕ)
  | chown (p : P) (f : F) (uid gid : ℤ)
  | exec (p : P) (f : F) (loads : Bool)
  | evict (f : F)

def FileAction.process : FileAction P F → Option P
  | .create p .. | .write p _ | .truncate p _ | .chmod p .. | .chown p .. | .exec p .. => some p
  | .evict _ => none

def FileAction.result (w : World P F) : FileAction P F → Option (Except ErrorKind (World P F))
  | .create p f umask mode =>
    if w.stat f = none then
      let stat := Filesystem.newStat (some (w.credentials p).toUser) umask
        ((mode &&& (0xffff ^^^ modeTypeMask)) ||| (typeReg <<< 12))
      some (.ok { w.setStat f stat with authored := Function.update w.authored f true })
    else none
  | .write p f => (w.stat f).map (w.writeAt p f)
  | .truncate p f => (w.stat f).map (w.writeAt p f)
  | .chmod p f mode => (w.stat f).map fun stat =>
    (vfsFileChmod stat (some (w.credentials p).toUser) mode).map (w.setStat f)
  | .chown p f uid gid => (w.stat f).map fun stat =>
    (vfsFileChown stat (some (w.credentials p).toUser) uid gid).map (w.setStat f)
  | .exec p f loads => (w.stat f).map fun stat => w.loadProgramInto p stat loads
  | .evict f => (w.stat f).map fun stat => .ok (w.setStat f (Filesystem.written ⟨stat, []⟩).stat)

/-- Processes act while none of their user ids is 0. What is refused changes nothing. -/
def fileStep (w : World P F) (a : FileAction P F) : Option (World P F) :=
  if ∀ p ∈ a.process, (w.credentials p).user.Nonzero then
    (a.result w).map fun r => match r with
      | .ok w' => w'
      | .error _ => w
  else none

def ForeignSetuid (stat : VfsStat) (c : Credentials) : Prop :=
  stat.mode &&& modeSetuid ≠ 0 ∧ stat.uid ∉ c.user.toList.map BitVec.toNat

/-- Executing what an unprivileged process wrote does not give the rights of user 0, and a file that
the process can write does not get the rights of another user. -/
structure NoEscalation (w : World P F) (a : FileAction P F) (w' : World P F) : Prop where
  exec : ∀ p f loads, a = .exec p f loads → w.authored f = true → (w'.credentials p).user.effective ≠ 0
  kept : ∀ p, a.process = some p → ∀ f stat stat', w.stat f = some stat → w'.stat f = some stat' →
    canAccess stat (some (w.credentials p).toUser) { w := true } = .ok () →
    ¬ForeignSetuid stat (w.credentials p) → ¬ForeignSetuid stat' (w.credentials p)

/-- The set-user-id bit with the owner 0, in the bits of the owner that the inode has. -/
def SetuidRoot (stat : VfsStat) : Prop := stat.mode &&& modeSetuid ≠ 0 ∧ stat.uid % 2 ^ 16 = 0

/-- Programs of user 0 are not written, files with the set-user-id bit are not given to users that are
not of the process, and the effective users of those who make and mark files are not 0 in 16 bits. -/
def Guarded (w : World P F) : FileAction P F → Prop
  | .create p .. => (w.credentials p).user.effective.toNat % 2 ^ 16 ≠ 0
  | .write _ f | .truncate _ f => ∀ stat ∈ w.stat f, ¬SetuidRoot stat
  | .chmod p .. => (w.credentials p).user.effective.toNat % 2 ^ 16 ≠ 0
  | .chown p f uid _ => ∀ stat ∈ w.stat f, stat.mode &&& modeSetuid ≠ 0 → 0 ≤ uid →
    uid.toNat % 2 ^ 16 ≠ 0 ∧ uid.toNat ∈ (w.credentials p).user.toList.map BitVec.toNat
  | .exec .. | .evict _ => True

def NoSetuidRoot (w : World P F) : Prop :=
  ∀ f stat, w.stat f = some stat → w.authored f = true → ¬SetuidRoot stat

section Steps
variable {w w' : World P F} {a : FileAction P F} {p : P} {f : F} {stat stat' : VfsStat}

/-- What an action of an unprivileged process can change: the contents or the mode and owner of one
file, or its own ids. -/
inductive Effect (w : World P F) : FileAction P F → World P F → Prop
  | none (a : FileAction P F) (hquiet : ∀ p f loads, a = .exec p f loads → (w.credentials p).user.effective ≠ 0) :
    Effect w a w
  | create (p : P) (f : F) (umask mode : ℕ) (stat : VfsStat) (hnew : w.stat f = none)
    (huid : stat.uid = (w.credentials p).user.effective.toNat) :
    Effect w (.create p f umask mode) { w.setStat f stat with authored := Function.update w.authored f true }
  | write (a : FileAction P F) (p : P) (f : F) (ha : a = .write p f ∨ a = .truncate p f) :
    Effect w a { w with authored := Function.update w.authored f true }
  | chmod (p : P) (f : F) (mode mode' : ℕ) (stat : VfsStat) (hstat : w.stat f = some stat)
    (howner : stat.uid = (w.credentials p).user.effective.toNat) :
    Effect w (.chmod p f mode) (w.setStat f { stat with mode := mode' })
  | chown (p : P) (f : F) (uid gid : ℤ) (stat : VfsStat) (hstat : w.stat f = some stat) (gid' : ℕ) :
    Effect w (.chown p f uid gid)
      (w.setStat f { stat with uid := if 0 ≤ uid then uid.toNat else stat.uid, gid := gid' })
  | exec (p : P) (f : F) (stat : VfsStat) (hstat : w.stat f = some stat) (hp : (w.credentials p).user.effective ≠ 0) :
    Effect w (.exec p f true)
      { w with credentials := Function.update w.credentials p ((w.credentials p).load stat) }
  | evict (f : F) (stat : VfsStat) (hstat : w.stat f = some stat) :
    Effect w (.evict f) (w.setStat f (Filesystem.written ⟨stat, []⟩).stat)

theorem owner_of_chmod {user : User} (huser : user.euid ≠ 0) {flags : AccessFlags}
    (hflags : flags.chmod = true ∨ flags.chown = true) (h : canAccess stat (some user) flags = .ok ()) :
    stat.uid = user.euid := by
  by_contra hne
  unfold canAccess at h
  dsimp only at h
  split_ifs at h with h1 h2 h3
  exact h3 ⟨hflags, hne⟩

theorem euid_ne_zero {c : Credentials} (hc : c.user.Nonzero) : c.toUser.euid ≠ 0 := by
  have := hc _ c.user.effective_mem
  intro hzero
  exact this (BitVec.eq_of_toNat_eq hzero)

theorem effect_of_step (h : fileStep w a = some w') : Effect w a w' := by
  obtain ⟨hids, h⟩ := Option.ite_none_right_eq_some.mp h
  obtain ⟨r, hr, hw⟩ := Option.map_eq_some_iff.mp h
  have hquiet : ∀ p f loads, a = .exec p f loads → (w.credentials p).user.effective ≠ 0 := by
    rintro p f loads rfl
    exact hids p rfl _ (Ids.effective_mem _)
  cases a with
  | create p f umask mode =>
    obtain ⟨hnew, hr⟩ := Option.ite_none_right_eq_some.mp hr
    cases hr
    cases hw
    exact .create p f umask mode _ hnew rfl
  | write p f =>
    obtain ⟨stat, hstat, rfl⟩ := Option.map_eq_some_iff.mp hr
    unfold World.writeAt at hw
    cases hacc : canAccess stat (some (w.credentials p).toUser) { w := true } with
    | error e =>
      rw [hacc] at hw
      cases hw
      exact .none _ hquiet
    | ok _ =>
      rw [hacc] at hw
      cases hw
      exact .write _ p f (Or.inl rfl)
  | truncate p f =>
    obtain ⟨stat, hstat, rfl⟩ := Option.map_eq_some_iff.mp hr
    unfold World.writeAt at hw
    cases hacc : canAccess stat (some (w.credentials p).toUser) { w := true } with
    | error e =>
      rw [hacc] at hw
      cases hw
      exact .none _ hquiet
    | ok _ =>
      rw [hacc] at hw
      cases hw
      exact .write _ p f (Or.inr rfl)
  | chmod p f mode =>
    obtain ⟨stat, hstat, rfl⟩ := Option.map_eq_some_iff.mp hr
    unfold vfsFileChmod at hw
    cases hacc : canAccess stat (some (w.credentials p).toUser) { chmod := true } with
    | error e =>
      rw [hacc] at hw
      cases hw
      exact .none _ hquiet
    | ok _ =>
      rw [hacc] at hw
      cases hw
      exact .chmod p f mode _ stat hstat (owner_of_chmod (euid_ne_zero (hids p rfl)) (Or.inl rfl) hacc)
  | chown p f uid gid =>
    obtain ⟨stat, hstat, rfl⟩ := Option.map_eq_some_iff.mp hr
    unfold vfsFileChown at hw
    cases hacc : canAccess stat (some (w.credentials p).toUser) { chown := true } with
    | error e =>
      rw [hacc] at hw
      cases hw
      exact .none _ hquiet
    | ok _ =>
      rw [hacc] at hw
      cases hw
      exact .chown p f uid gid stat hstat _
  | exec p f loads =>
    obtain ⟨stat, hstat, rfl⟩ := Option.map_eq_some_iff.mp hr
    unfold World.loadProgramInto at hw
    cases hacc : canAccess stat (some (w.credentials p).toUser) { x := true, reg := true } with
    | error e =>
      rw [hacc] at hw
      cases hw
      exact .none _ hquiet
    | ok _ =>
      rw [hacc] at hw
      cases loads with
      | false =>
        cases hw
        exact .none _ hquiet
      | true =>
        cases hw
        exact .exec p f stat hstat (hquiet p f true rfl)
  | evict f =>
    obtain ⟨stat, hstat, rfl⟩ := Option.map_eq_some_iff.mp hr
    cases hw
    exact .evict f stat hstat

omit [DecidableEq P] in
theorem setStat_stat_self : (w.setStat f stat).stat f = some stat := Function.update_self ..

omit [DecidableEq P] in
theorem NoSetuidRoot.setStat (h : NoSetuidRoot w) (hstat : w.authored f = true → ¬SetuidRoot stat) :
    NoSetuidRoot (w.setStat f stat) := by
  intro g stat' hg hauthored
  by_cases hgf : g = f
  · subst hgf
    rw [setStat_stat_self] at hg
    cases hg
    exact hstat hauthored
  · exact h g stat' ((Function.update_of_ne hgf ..).symm.trans hg) hauthored

omit [DecidableEq P] in
theorem NoSetuidRoot.author (h : NoSetuidRoot w) (hstat : ∀ stat ∈ w.stat f, ¬SetuidRoot stat) :
    NoSetuidRoot { w with authored := Function.update w.authored f true } := by
  intro g stat' hg hauthored
  by_cases hgf : g = f
  · subst hgf
    exact hstat stat' hg
  · exact h g stat' hg ((Function.update_of_ne hgf ..).symm.trans hauthored)

theorem Effect.noSetuidRoot (heffect : Effect w a w') (hg : Guarded w a) (h : NoSetuidRoot w) : NoSetuidRoot w' := by
  cases heffect with
  | none a hquiet => exact h
  | create p f umask mode stat hnew huid =>
    have hroot : ¬SetuidRoot stat := fun hroot => hg (huid ▸ hroot.2)
    have hset : NoSetuidRoot (w.setStat f stat) := h.setStat fun _ => hroot
    refine hset.author fun stat' hstat' => ?_
    rw [setStat_stat_self] at hstat'
    cases hstat'
    exact hroot
  | write a p f ha =>
    refine h.author ?_
    rcases ha with rfl | rfl
    · exact hg
    · exact hg
  | chmod p f mode mode' stat hstat howner =>
    refine h.setStat fun _ hroot => hg ?_
    rw [← howner]
    exact hroot.2
  | chown p f uid gid stat hstat gid' =>
    refine h.setStat fun hauthored hroot => ?_
    obtain ⟨hbit, hzero⟩ := hroot
    by_cases huid : 0 ≤ uid
    · rw [if_pos huid] at hzero
      exact (hg stat hstat hbit huid).1 hzero
    · rw [if_neg huid] at hzero
      exact h f stat hstat hauthored ⟨hbit, hzero⟩
  | exec p f stat hstat hp => exact h
  | evict f stat hstat =>
    refine h.setStat fun hauthored hroot => h f stat hstat hauthored ⟨hroot.1, ?_⟩
    have := hroot.2
    simpa [Filesystem.written] using this

theorem load_effective {c : Credentials} (hc : c.user.effective ≠ 0) (hstat : ¬SetuidRoot stat) :
    (c.load stat).user.effective ≠ 0 := by
  have huser : (c.load stat).user.effective =
      if stat.mode &&& modeSetuid ≠ 0 then BitVec.ofNat 32 stat.uid else c.user.effective := by
    unfold Credentials.load
    dsimp only
    split_ifs <;> rfl
  rw [huser]
  split_ifs with hbit
  · intro hzero
    refine hstat ⟨hbit, ?_⟩
    have := congrArg BitVec.toNat hzero
    rw [BitVec.toNat_ofNat] at this
    have hdvd : stat.uid % 2 ^ 32 = 0 := this
    omega
  · exact hc

theorem Effect.noEscalation (heffect : Effect w a w') (hg : Guarded w a) (h : NoSetuidRoot w) :
    NoEscalation w a w' := by
  constructor
  · intro p f loads ha hauthored
    subst ha
    cases heffect with
    | none a hquiet => exact hquiet p f loads rfl
    | write a q g ha => rcases ha with ha | ha <;> cases ha
    | exec p f stat hstat hp =>
      have := load_effective hp (h f stat hstat hauthored)
      simpa using this
  · intro p hp f stat stat' hstat hstat' hwrite hforeign
    have hsame : w'.stat f = w.stat f → ¬ForeignSetuid stat' (w.credentials p) := by
      intro heq
      rw [heq, hstat] at hstat'
      cases hstat'
      exact hforeign
    have hother : ∀ {g : F} {st : VfsStat}, w'.stat = (w.setStat g st).stat → f ≠ g →
        ¬ForeignSetuid stat' (w.credentials p) := by
      intro g st heq hne
      refine hsame ?_
      rw [heq]
      exact Function.update_of_ne hne ..
    cases heffect with
    | none a hquiet => exact hsame rfl
    | create q g umask mode st hnew huid =>
      by_cases hfg : f = g
      · subst hfg
        rw [hnew] at hstat
        cases hstat
      · exact hother rfl hfg
    | write a q g ha => exact hsame rfl
    | chmod q g mode mode' st hst howner =>
      cases hp
      by_cases hfg : f = g
      · subst hfg
        rw [setStat_stat_self] at hstat'
        cases hstat'
        intro hnot
        refine hnot.2 ?_
        rw [howner]
        exact List.mem_map_of_mem (Ids.effective_mem _)
      · exact hother rfl hfg
    | chown q g uid gid st hst gid' =>
      cases hp
      by_cases hfg : f = g
      · subst hfg
        rw [setStat_stat_self] at hstat'
        cases hstat'
        rw [hstat] at hst
        cases hst
        rintro ⟨hbit, hnot⟩
        by_cases huid : 0 ≤ uid
        · rw [if_pos huid] at hnot
          exact hnot (hg stat hstat hbit huid).2
        · rw [if_neg huid] at hnot
          exact hforeign ⟨hbit, hnot⟩
      · exact hother rfl hfg
    | exec q g st hst hq => exact hsame rfl
    | evict g st hst => cases hp

/-- Over every run of guarded actions by unprivileged processes, no program that one of them wrote
runs as user 0, and no action gives a file the rights of another user. -/
theorem no_escalation {acts : List (FileAction P F)} {u u' : World P F} (h : NoSetuidRoot w)
    (hr : Runs fileStep Guarded w acts u) (hg : Guarded u a) (hstep : fileStep u a = some u') : NoEscalation u a u' := by
  have hu : NoSetuidRoot u :=
    hr.invariant (fun _ _ _ hs hok hst => (effect_of_step hst).noSetuidRoot hok hs) h
  exact (effect_of_step hstep).noEscalation hg hu

end Steps

def userWorld : World ℕ ℕ := ⟨fun _ => ⟨⟨5, 5, 5⟩, ⟨5, 5, 5⟩⟩, fun _ => none, fun _ => false⟩

def makeProgram : List (FileAction ℕ ℕ) := [.create 1 0 0 0o6755, .write 1 0]

theorem no_escalation_own :
    ∃ u u', Runs fileStep Guarded userWorld makeProgram u ∧ fileStep u (.exec 2 0 true) = some u' ∧
      NoEscalation u (.exec 2 0 true) u' := by
  have hr : Runs fileStep Guarded userWorld makeProgram ((exec fileStep userWorld makeProgram).getD userWorld) := by
    refine .cons ?_ rfl (.cons ?_ rfl (.nil _))
    · show (5 : Id).toNat % 2 ^ 16 ≠ 0
      decide
    · rintro stat hstat ⟨-, hzero⟩
      cases hstat
      exact absurd hzero (by decide)
  exact ⟨_, _, hr, rfl, no_escalation (fun _ _ hstat => by cases hstat) hr trivial rfl⟩

/-- A file of user 5 with the set-user-id bit is given to user 0, and then executed by user 5. -/
theorem escalation_by_chown :
    ∃ u u', Runs fileStep (fun _ _ => True) userWorld (makeProgram ++ [.chown 1 0 0 (-1)]) u ∧
      fileStep u (.exec 1 0 true) = some u' ∧ ¬NoEscalation u (.exec 1 0 true) u' := by
  refine ⟨_, _, .cons trivial rfl (.cons trivial rfl (.cons trivial rfl (.nil _))), rfl, fun h => ?_⟩
  exact h.exec 1 0 true rfl rfl rfl

end SomeOs.Process
