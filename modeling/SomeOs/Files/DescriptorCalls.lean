import SomeOs.Files.DescriptorRuns

/-! # System calls on descriptors

Every call is an operation on the maps from numbers to files: new numbers are the least that are not
in use, a copy to a number replaces only that, and a fork copies the map. Two requests of `fcntl` are
different: a copy to a least number replaces a descriptor that has it, and an unknown request does
not return the descriptor.
-/
namespace SomeOs.Files
open Vfs Transition Descriptors

/-- What a call does to the maps, and its result. -/
def CallRight (s t : Descriptors) (result : Except SyscallError ℤ) : DescriptorCall → Prop
  | .openFile p opened flags =>
    match opened with
    | .error e => result = .error (.failed e) ∧ t.table = s.table
    | .ok _ => ∃ k, result = .ok k ∧ IsLeast {k | 0 ≤ k ∧ s.table p k = none} k ∧
        t.table = setEntry s.table p k (some (s.newFile, if convertOpenMode flags &&& openCloexec ≠ 0 then descCloexec else 0))
  | .close p fd =>
    match s.table p fd with
    | none => result = .error .EBADF ∧ t.table = s.table
    | some _ => result = .ok 0 ∧ t.table = setEntry s.table p fd none
  | .dup p fd id openFlags =>
    match s.table p fd with
    | none => result = .error .EBADF ∧ t.table = s.table
    | some (file, flags) => ∃ k, result = .ok k ∧
        (if id < 0 then IsLeast {k | 0 ≤ k ∧ s.table p k = none} k else k = id) ∧
        t.table = setEntry s.table p k (some (file, dupFlags flags openFlags))
  | .fcntl p fd request arg =>
    match s.table p fd with
    | none => result = .error .EBADF ∧ t.table = s.table
    | some (file, flags) =>
      if request = fcntlDupFd ∨ request = fcntlDupFdCloexec then
        ∃ k, result = .ok k ∧ IsLeast {k | 0 ≤ k ∧ arg ≤ k ∧ s.table p k = none} k ∧
          t.table = setEntry s.table p k (some (file, if request = fcntlDupFdCloexec then descCloexec else 0))
      else if request = fcntlGetFd then result = .ok flags ∧ t.table = s.table
      else if request = fcntlSetFd then
        result = .ok 0 ∧ t.table = setEntry s.table p fd (some (file, (arg % 2 ^ 32).toNat))
      else if request = fcntlGetFl then result = .ok (s.file file).flags ∧ t.table = s.table
      else if request = fcntlSetFl then result = .ok 0 ∧ t.table = s.table
      else result = .error .EINVAL ∧ t.table = s.table
  | .fork p => result = .ok s.newProcess ∧ t.table = Function.update s.table s.newProcess (s.table p)
  | .exec p => t.table = Function.update s.table p fun k => (s.table p k).filter fun v => v.2 &&& descCloexec = 0
  | .exit p => t.table = Function.update s.table p fun _ => none

/-- The lists are sorted, every descriptor in them is referred to once, and every file by as many
descriptors as have it. -/
structure CountsRight (s : Descriptors) : Prop where
  sorted : ∀ p, (s.files p).Pairwise fun a b => (s.desc a).id < (s.desc b).id
  descs : ∀ p, ∀ a ∈ s.files p, (s.desc a).ref_count = 1
  files : ∀ f, (s.file f).ref_count = {a | s.Listed a ∧ (s.desc a).file = f}.ncard

/-- The condition on a call: a request of `fcntl` for an open descriptor is known, and a number that
it asks for as the least one is not in use. -/
def CallGuarded (s : Descriptors) : DescriptorCall → Prop
  | .fcntl p fd request arg => s.table p fd ≠ none →
    if request = fcntlDupFd ∨ request = fcntlDupFdCloexec then s.table p arg = none
    else request = fcntlGetFd ∨ request = fcntlSetFd ∨ request = fcntlGetFl ∨ request = fcntlSetFl
  | _ => True

namespace Descriptors
section Calls
variable {s t : Descriptors} {held opened : Multiset ℕ} {p a : ℕ} {fd : ℤ}

theorem Counted.countsRight (h : Counted s 0 0) : CountsRight s where
  sorted := h.sorted
  descs p a ha := by
    rw [h.descCount a, listRefs_listed ⟨p, ha⟩, Multiset.count_zero]
  files f := by
    rw [h.fileCount f, Multiset.count_zero, Nat.add_zero]
    congr 1
    ext a
    have hcount := h.descCount a
    rw [Multiset.count_zero, Nat.add_zero] at hcount
    simp only [live, Set.mem_ofPred_eq, hcount]
    by_cases ha : s.Listed a
    · simp [ha, listRefs_listed ha]
    · simp [ha, listRefs_unlisted ha]

theorem Counted.file_lt (h : Counted s held opened) (ha : a ∈ s.files p) : (s.desc a).file < s.newFile :=
  h.fileNew a (h.listed_ne ⟨p, ha⟩)

theorem Counted.getFileDescriptor_cases (h : Counted s held opened) (p : ℕ) (fd : ℤ) :
    (s.getFileDescriptor p fd = none ∧ s.table p fd = none) ∨
    ∃ a ∈ s.files p, (s.desc a).id = fd ∧ s.getFileDescriptor p fd = some (a, s.vfsFileDescriptorCopy a) ∧
      s.table p fd = some ((s.desc a).file, (s.desc a).flags) ∧
      Leads s (s.vfsFileDescriptorCopy a) (a ::ₘ held) opened s.table := by
  unfold getFileDescriptor
  rcases h.getFileDescriptorUnsafe_cases p fd with ⟨hget, hnone⟩ | ⟨a, ha, hid, hget, hsome⟩
  · exact Or.inl ⟨by rw [hget]; rfl, hnone⟩
  · exact Or.inr ⟨a, ha, hid, by rw [hget]; rfl, hsome, h.leads_copyDesc (h.listed_ne ⟨p, ha⟩)⟩

theorem openSyscall_right (h : Counted s 0 0) (hp : p < s.newProcess) (result : Except ErrorKind Unit) (flags : ℕ) :
    Counted (s.openSyscall p result flags).2 0 0 ∧
      CallRight s (s.openSyscall p result flags).2 (s.openSyscall p result flags).1 (.openFile p result flags) := by
  unfold openSyscall
  simp only [CallRight]
  cases result with
  | error e => exact ⟨h, rfl, rfl⟩
  | ok u =>
    dsimp only
    set v : Descriptors := { s with
      file := Function.update s.file s.newFile ⟨1, convertOpenMode flags &&& (openAccessMode ||| fileNonblock)⟩
      newFile := s.newFile + 1 } with hv
    have hlive : ∀ f, s.newFile ≤ f → (s.live f).ncard = 0 := by
      intro f hf
      rw [Set.ncard_eq_zero (h.live_finite f)]
      refine Set.eq_empty_of_forall_notMem fun a ha => ?_
      have := h.fileNew a ha.1
      have := ha.2
      omega
    have hnew : Counted v 0 {s.newFile} := by
      refine ⟨h.sorted, h.nonneg, h.owner, h.descCount, fun f => ?_, h.descNew, fun a ha => ?_, h.processNew⟩
      · have hfile := h.fileCount f
        change (Function.update s.file s.newFile _ f).ref_count = (s.live f).ncard + _
        rw [Multiset.count_singleton]
        by_cases hf : f = s.newFile
        · subst hf
          rw [Function.update_self, if_pos rfl, hlive _ le_rfl]
        · rw [Function.update_of_ne hf, if_neg hf]
          exact hfile
      · exact Nat.lt_succ_of_lt (h.fileNew a ha)
    obtain ⟨k, u, hput, hleads, hleast⟩ := hnew.putNewFileDescriptor (p := p) hp (f := s.newFile) (Nat.lt_succ_self _) (-1)
      (if convertOpenMode flags &&& openCloexec ≠ 0 then descCloexec else 0) false
    rw [hput]
    have hclose := hleads.counted.leads_closeFile
    rw [if_pos (by decide)] at hleast
    exact ⟨hclose.counted, k, rfl, hleast, hclose.table.trans hleads.table⟩

theorem closeSyscall_right (h : Counted s 0 0) (p : ℕ) (fd : ℤ) :
    Counted (s.closeSyscall p fd).2 0 0 ∧ CallRight s (s.closeSyscall p fd).2 (s.closeSyscall p fd).1 (.close p fd) := by
  unfold closeSyscall
  simp only [CallRight]
  rcases h.getFileDescriptor_cases p fd with ⟨hget, hnone⟩ | ⟨a, ha, hid, hget, hsome, hcopy⟩
  · rw [hget, hnone]
    exact ⟨h, rfl, rfl⟩
  · rw [hget, hsome]
    have hclose := hcopy.counted.leads_closeFileDescriptor p fd
    have hreturn := hclose.counted.leads_closeDesc
    exact ⟨hreturn.counted, rfl, by rw [hreturn.table, hclose.table, hcopy.table]⟩

theorem Counted.copy_put_close (h : Counted s 0 0) (hp : p < s.newProcess) (ha : a ∈ s.files p) (id : ℤ) (flags : ℕ)
    (replace : Bool) : ∃ k t, (s.vfsFileDescriptorCopy a).putNewFileDescriptor p id flags (s.desc a).file replace = (k, t) ∧
      Counted (t.vfsFileDescriptorClose a) 0 0 ∧
      (t.vfsFileDescriptorClose a).table = setEntry s.table p k (some ((s.desc a).file, flags)) ∧
      if id < 0 then IsLeast {k | 0 ≤ k ∧ s.table p k = none} k else k = id := by
  have hcopy := h.leads_copyDesc (h.listed_ne ⟨p, ha⟩)
  obtain ⟨k, t, hput, hleads, hk⟩ := hcopy.counted.putNewFileDescriptor (p := p) (f := (s.desc a).file)
    (hcopy.newProcess ▸ hp) (hcopy.newFile ▸ h.file_lt ha) id flags replace
  have hreturn := hleads.counted.leads_closeDesc
  rw [hcopy.table] at hleads hk
  exact ⟨k, t, hput, hreturn.counted, hreturn.table.trans hleads.table, hk⟩

theorem copyDesc_file (s : Descriptors) (a : ℕ) : ((s.vfsFileDescriptorCopy a).desc a).file = (s.desc a).file :=
  ((setCount_same s a _) a).1

theorem copyDesc_flags (s : Descriptors) (a : ℕ) : ((s.vfsFileDescriptorCopy a).desc a).flags = (s.desc a).flags :=
  ((setCount_same s a _) a).2.2

theorem dupSyscall_right (h : Counted s 0 0) (hp : p < s.newProcess) (fd id : ℤ) (openFlags : ℕ) :
    Counted (s.dupSyscall p fd id openFlags).2 0 0 ∧
      CallRight s (s.dupSyscall p fd id openFlags).2 (s.dupSyscall p fd id openFlags).1 (.dup p fd id openFlags) := by
  unfold dupSyscall
  simp only [CallRight]
  rcases h.getFileDescriptor_cases p fd with ⟨hget, hnone⟩ | ⟨a, ha, -, hget, hsome, -⟩
  · rw [hget, hnone]
    exact ⟨h, rfl, rfl⟩
  · rw [hget, hsome]
    obtain ⟨k, t, hput, hcounted, htable, hk⟩ := h.copy_put_close hp ha id (dupFlags (s.desc a).flags openFlags) true
    dsimp only
    rw [copyDesc_file, copyDesc_flags, hput]
    exact ⟨hcounted, k, rfl, hk, htable⟩

/-- The requests of `fcntl` but the copies give the descriptor back. -/
theorem fcntlSyscall_right (h : Counted s 0 0) (hp : p < s.newProcess) (fd : ℤ) (request : ℕ) (arg : ℤ)
    (hok : CallGuarded s (.fcntl p fd request arg)) :
    Counted (s.fcntlSyscall p fd request arg).2 0 0 ∧
      CallRight s (s.fcntlSyscall p fd request arg).2 (s.fcntlSyscall p fd request arg).1 (.fcntl p fd request arg) := by
  unfold fcntlSyscall
  simp only [CallRight]
  rcases h.getFileDescriptor_cases p fd with ⟨hget, hnone⟩ | ⟨a, ha, hid, hget, hsome, hcopy⟩
  · rw [hget, hnone]
    exact ⟨h, rfl, rfl⟩
  have hok := hok (by rw [hsome]; simp)
  rw [hget, hsome]
  dsimp only
  have hreturn := hcopy.counted.leads_closeDesc
  have hback := hreturn.table.trans hcopy.table
  by_cases hdup : request = fcntlDupFd ∨ request = fcntlDupFdCloexec
  · rw [if_pos hdup] at hok
    rw [if_pos hdup, if_pos hdup]
    obtain ⟨k, t, hput, hcounted, htable, hk⟩ :=
      h.copy_put_close hp ha arg (if request = fcntlDupFdCloexec then descCloexec else 0) false
    rw [copyDesc_file, hput]
    refine ⟨hcounted, k, rfl, ?_, htable⟩
    split_ifs at hk with hneg
    · exact ⟨⟨hk.1.1, hneg.le.trans hk.1.1, hk.1.2⟩, fun m hm => hk.2 ⟨hm.1, hm.2.2⟩⟩
    · rw [hk]
      exact ⟨⟨not_lt.mp hneg, le_rfl, hok⟩, fun m hm => hm.2.1⟩
  rw [if_neg hdup] at hok
  rw [if_neg hdup, if_neg hdup]
  by_cases hgetfd : request = fcntlGetFd
  · rw [if_pos hgetfd, if_pos hgetfd, copyDesc_flags]
    exact ⟨hreturn.counted, rfl, hback⟩
  rw [if_neg hgetfd, if_neg hgetfd]
  by_cases hsetfd : request = fcntlSetFd
  · rw [if_pos hsetfd, if_pos hsetfd]
    obtain ⟨hcounted, htable⟩ := hcopy.counted.leads_setFlags ha (arg % 2 ^ 32).toNat
    have hreturn := hcounted.leads_closeDesc
    refine ⟨hreturn.counted, rfl, hreturn.table.trans ?_⟩
    rw [htable, hcopy.table, copyDesc_file, ← hid]
    exact congrArg (fun k => setEntry s.table p k _) (setCount_same s a _ a).2.1
  rw [if_neg hsetfd, if_neg hsetfd]
  by_cases hgetfl : request = fcntlGetFl
  · rw [if_pos hgetfl, if_pos hgetfl, copyDesc_file]
    exact ⟨hreturn.counted, rfl, hback⟩
  rw [if_neg hgetfl, if_neg hgetfl]
  by_cases hsetfl : request = fcntlSetFl
  · rw [if_pos hsetfl, if_pos hsetfl, copyDesc_file]
    have hreturn := (hcopy.counted.setFileFlags (s.desc a).file
      (((arg % 2 ^ 64).toNat &&& fileNonblock) ||| ((s.file (s.desc a).file).flags &&& openAccessMode))).leads_closeDesc
    exact ⟨hreturn.counted, rfl, hreturn.table.trans hcopy.table⟩
  · tauto

/-- Descriptors are copied one after another, each to its own number. -/
theorem foldl_putNewFileDescriptor (h : Counted s 0 0) {n : ℕ} (hn : n < s.newProcess) {l : List ℕ}
    (hl : ∀ a ∈ l, a < s.newDesc ∧ 0 ≤ (s.desc a).id ∧ (s.desc a).file < s.newFile)
    (hsorted : l.Pairwise fun a b => (s.desc a).id < (s.desc b).id) :
    Leads s (l.foldl (fun s a =>
        (s.putNewFileDescriptor n (s.desc a).id (s.desc a).flags (s.desc a).file false).2) s) 0 0
      (Function.update s.table n fun k => (s.lookup l k).or (s.table n k)) := by
  induction l generalizing s with
  | nil =>
    refine ⟨h, ?_, fun _ _ => ⟨rfl, rfl, rfl⟩, le_rfl, rfl, rfl⟩
    exact (Function.update_eq_self n s.table).symm
  | cons a l ih =>
    rw [List.pairwise_cons] at hsorted
    obtain ⟨hnew, hid, hfile⟩ := hl a List.mem_cons_self
    obtain ⟨k, t, hput, hleads, hk⟩ := h.putNewFileDescriptor hn hfile (s.desc a).id (s.desc a).flags false
    rw [if_neg (not_lt.mpr hid)] at hk
    subst hk
    have hkept : ∀ b ∈ l, (t.desc b).file = (s.desc b).file ∧ (t.desc b).id = (s.desc b).id ∧
      (t.desc b).flags = (s.desc b).flags :=
      fun b hb => hleads.descs b (hl b (List.mem_cons_of_mem _ hb)).1
    have hrest := ih hleads.counted (hleads.newProcess ▸ hn)
      (fun b hb => by
        obtain ⟨h1, h2, h3⟩ := hl b (List.mem_cons_of_mem _ hb)
        obtain ⟨hf, hi, -⟩ := hkept b hb
        rw [hf, hi, hleads.newFile]
        exact ⟨h1.trans_le hleads.newDesc, h2, h3⟩)
      (hsorted.2.imp_of_mem fun {b c} hb hc hlt => by rwa [(hkept b hb).2.1, (hkept c hc).2.1])
    have hlookup : t.lookup l = s.lookup l := lookup_congr hkept
    rw [hlookup, hleads.table] at hrest
    rw [List.foldl_cons, hput]
    refine ⟨hrest.counted, hrest.table.trans ?_, (hleads.trans hrest).descs, (hleads.trans hrest).newDesc,
      (hleads.trans hrest).newFile, (hleads.trans hrest).newProcess⟩
    unfold setEntry
    rw [Function.update_idem]
    congr 1
    funext k
    rw [Function.update_self]
    by_cases hk : k = (s.desc a).id
    · subst hk
      have hnone : s.lookup l (s.desc a).id = none := lookup_eq_none.mpr fun b hb => (hsorted.1 b hb).ne'
      rw [Function.update_self, hnone]
      simp [lookup]
    · rw [Function.update_of_ne hk]
      simp [lookup, Ne.symm hk]

theorem forkSyscall_right (h : Counted s 0 0) (p : ℕ) :
    Counted (s.forkSyscall p).2 0 0 ∧ CallRight s (s.forkSyscall p).2 (s.forkSyscall p).1 (.fork p) := by
  set t : Descriptors := { s with newProcess := s.newProcess + 1 } with ht
  have hcounted : Counted t 0 0 :=
    ⟨h.sorted, h.nonneg, h.owner, h.descCount, h.fileCount, h.descNew, h.fileNew,
      fun q hq => h.processNew q (Nat.le_of_succ_le hq)⟩
  have hfork := foldl_putNewFileDescriptor hcounted (Nat.lt_succ_self s.newProcess) (l := t.files p)
    (fun a ha => ⟨h.descNew a (h.listed_ne ⟨p, ha⟩), h.nonneg p a ha, h.file_lt ha⟩) (h.sorted p)
  refine ⟨hfork.counted, rfl, hfork.table.trans ?_⟩
  have hempty : t.table s.newProcess = fun _ => none := by
    funext k
    rw [table, show t.files s.newProcess = [] from h.processNew _ le_rfl]
    rfl
  change Function.update s.table s.newProcess _ = Function.update s.table s.newProcess _
  congr 1
  funext k
  rw [hempty, Option.or_none]
  rfl

/-- The descriptors of a list that are closed by `exec` leave the map. -/
theorem foldl_closeExec (h : Counted s 0 0) {l : List ℕ} (hl : ∀ a ∈ l, a ∈ s.files p) (hnodup : l.Nodup) :
    Leads s (l.foldl (fun s a =>
        if (s.desc a).flags &&& descCloexec ≠ 0 then (s.unlink p a).vfsFileDescriptorClose a else s) s) 0 0
      (Function.update s.table p fun k =>
        if ∃ a ∈ l, (s.desc a).id = k ∧ (s.desc a).flags &&& descCloexec ≠ 0 then none else s.table p k) := by
  induction l generalizing s with
  | nil =>
    refine ⟨h, ?_, fun _ _ => ⟨rfl, rfl, rfl⟩, le_rfl, rfl, rfl⟩
    simp
  | cons a l ih =>
    rw [List.nodup_cons] at hnodup
    rw [List.foldl_cons]
    by_cases hclo : (s.desc a).flags &&& descCloexec ≠ 0
    · rw [if_pos hclo]
      have hunlink := h.leads_unlink (hl a List.mem_cons_self)
      have hclose := hunlink.trans hunlink.counted.leads_closeDesc
      obtain ⟨hsame, hfiles, -⟩ := closeDesc_frame (s.unlink p a) a
      have hdesc : ∀ b, (((s.unlink p a).vfsFileDescriptorClose a).desc b).id = (s.desc b).id ∧
          (((s.unlink p a).vfsFileDescriptorClose a).desc b).flags = (s.desc b).flags := fun b => (hsame b).2
      have hrest := ih hclose.counted (fun b hb => by
        rw [hfiles]
        have hne : b ≠ a := fun heq => hnodup.1 (heq ▸ hb)
        simpa [unlink, List.mem_erase_of_ne hne] using hl b (List.mem_cons_of_mem _ hb)) hnodup.2
      simp only [hdesc] at hrest
      have hboth := hclose.trans hrest
      refine ⟨hboth.counted, hboth.table.trans ?_, hboth.descs, hboth.newDesc, hboth.newFile, hboth.newProcess⟩
      rw [hclose.table, hunlink.table]
      unfold setEntry
      rw [Function.update_idem]
      congr 1
      funext k
      rw [Function.update_self]
      by_cases hk : k = (s.desc a).id
      · rw [hk, Function.update_self, ite_self, if_pos ⟨a, List.mem_cons_self, rfl, hclo⟩]
      · rw [Function.update_of_ne hk]
        refine if_congr ?_ rfl rfl
        rw [List.exists_mem_cons_iff]
        exact (or_iff_right fun ha => hk ha.1.symm).symm
    · rw [if_neg hclo]
      have hrest := ih h (fun b hb => hl b (List.mem_cons_of_mem _ hb)) hnodup.2
      refine ⟨hrest.counted, hrest.table.trans ?_, hrest.descs, hrest.newDesc, hrest.newFile, hrest.newProcess⟩
      congr 1
      funext k
      refine if_congr ?_ rfl rfl
      rw [List.exists_mem_cons_iff]
      exact (or_iff_right fun ha => hclo ha.2).symm

theorem closeExecProcessFiles_right (h : Counted s 0 0) (p : ℕ) :
    Counted (s.closeExecProcessFiles p) 0 0 ∧ CallRight s (s.closeExecProcessFiles p) (.ok 0) (.exec p) := by
  have hclose := foldl_closeExec h (fun _ ha => ha) (h.nodup p)
  refine ⟨hclose.counted, hclose.table.trans ?_⟩
  congr 1
  funext k
  rcases h.getFileDescriptorUnsafe_cases p k with ⟨-, hnone⟩ | ⟨a, ha, hid, -, hsome⟩
  · simp [hnone]
  · have hexists : (∃ b ∈ s.files p, (s.desc b).id = k ∧ (s.desc b).flags &&& descCloexec ≠ 0) ↔
        (s.desc a).flags &&& descCloexec ≠ 0 := by
      constructor
      · rintro ⟨b, hb, hbk, hclo⟩
        rwa [← sorted_inj (h.sorted p) hb ha (hbk.trans hid.symm)]
      · exact fun hclo => ⟨a, ha, hid, hclo⟩
    rw [hsome, if_congr hexists rfl rfl, Option.filter_some]
    by_cases hclo : (s.desc a).flags &&& descCloexec = 0
    · rw [if_neg (not_not.mpr hclo), if_pos (by simpa using hclo)]
    · rw [if_pos hclo, if_neg (by simpa using hclo)]

theorem foldl_closeDesc {l : List ℕ} (h : Counted s (↑l + held) opened) :
    Counted (l.foldl vfsFileDescriptorClose s) held opened := by
  induction l generalizing s with
  | nil => simpa using h
  | cons a l ih =>
    rw [← Multiset.cons_coe, Multiset.cons_add] at h
    exact ih h.closeDesc

theorem foldl_closeDesc_frame (s : Descriptors) (l : List ℕ) :
    SameDescs s (l.foldl vfsFileDescriptorClose s) ∧ (l.foldl vfsFileDescriptorClose s).files = s.files := by
  induction l generalizing s with
  | nil => exact ⟨sameDescs_refl s, rfl⟩
  | cons a l ih =>
    obtain ⟨hsame, hfiles⟩ := ih (s.vfsFileDescriptorClose a)
    obtain ⟨hsame', hfiles', -⟩ := closeDesc_frame s a
    exact ⟨hsame'.trans hsame, hfiles.trans hfiles'⟩

theorem foldl_closeDesc_files (s : Descriptors) (files : ℕ → List ℕ) (l : List ℕ) :
    l.foldl vfsFileDescriptorClose { s with files := files } = { l.foldl vfsFileDescriptorClose s with files := files } := by
  induction l generalizing s with
  | nil => rfl
  | cons a l ih =>
    have hclose : vfsFileDescriptorClose { s with files := files } a = { s.vfsFileDescriptorClose a with files := files } := by
      unfold vfsFileDescriptorClose
      dsimp only
      split_ifs <;> rfl
    rw [List.foldl_cons, List.foldl_cons, hclose, ih]

theorem closeAllProcessFiles_right (h : Counted s 0 0) (p : ℕ) :
    Counted (s.closeAllProcessFiles p) 0 0 ∧ CallRight s (s.closeAllProcessFiles p) (.ok 0) (.exit p) := by
  have hperm : (s.files p).Perm (s.files p ++ []) := by simp
  have hempty := h.remove hperm (List.nil_sublist _)
  have hcounted := foldl_closeDesc hempty
  obtain ⟨hsame, hfiles⟩ := foldl_closeDesc_frame { s with files := Function.update s.files p [] } (s.files p)
  have hall : s.closeAllProcessFiles p =
      (s.files p).foldl vfsFileDescriptorClose { s with files := Function.update s.files p [] } := by
    rw [foldl_closeDesc_files, closeAllProcessFiles, (foldl_closeDesc_frame s (s.files p)).2]
  rw [hall]
  refine ⟨hcounted, ?_⟩
  funext q
  rw [table, hfiles, lookup_congr fun b _ => hsame b]
  by_cases hq : q = p
  · subst hq
    simp only [Function.update_self]
    rfl
  · simp only [Function.update_of_ne hq]
    rfl

theorem descriptorCall_right (h : Counted s 0 0) (call : DescriptorCall) (hp : call.process < s.newProcess)
    (hok : CallGuarded s call) :
    Counted (descriptorCall s call).2 0 0 ∧ CallRight s (descriptorCall s call).2 (descriptorCall s call).1 call := by
  cases call with
  | openFile p opened flags => exact openSyscall_right h hp opened flags
  | close p fd => exact closeSyscall_right h p fd
  | dup p fd id openFlags => exact dupSyscall_right h hp fd id openFlags
  | fcntl p fd request arg => exact fcntlSyscall_right h hp fd request arg hok
  | fork p => exact forkSyscall_right h p
  | exec p => exact closeExecProcessFiles_right h p
  | exit p => exact closeAllProcessFiles_right h p

theorem counted_noDescriptors : Counted noDescriptors 0 0 where
  sorted _ := List.Pairwise.nil
  nonneg _ _ h := absurd h List.not_mem_nil
  owner _ _ _ h := absurd h List.not_mem_nil
  descCount a := by
    rw [listRefs_unlisted (by simp [Listed, noDescriptors])]
    rfl
  fileCount f := by simp [live, noDescriptors]
  descNew _ h := absurd rfl h
  fileNew _ h := absurd rfl h
  processNew _ _ := rfl

end Calls
end Descriptors

/-- In every run of guarded calls the lists are sorted and the counts right, and each further guarded
call is right about the maps. -/
theorem descriptors_refine_map {calls : List DescriptorCall} {s : Descriptors}
    (hr : Runs descriptorStep CallGuarded noDescriptors calls s) :
    CountsRight s ∧ ∀ call : DescriptorCall, call.process < s.newProcess → CallGuarded s call →
      CallRight s (descriptorCall s call).2 (descriptorCall s call).1 call := by
  have hcounted : Counted s 0 0 := by
    refine hr.invariant (I := fun s => Counted s 0 0) (fun s call t hs hok hstep => ?_) counted_noDescriptors
    unfold descriptorStep at hstep
    split_ifs at hstep with hp
    cases hstep
    exact (descriptorCall_right hs call hp hok).1
  exact ⟨hcounted.countsRight, fun call hp hok => (descriptorCall_right hcounted call hp hok).2⟩

instance (s : Descriptors) (call : DescriptorCall) : Decidable (CallGuarded s call) :=
  match call with
  | .fcntl p fd request arg => inferInstanceAs (Decidable (s.table p fd ≠ none →
      if request = fcntlDupFd ∨ request = fcntlDupFdCloexec then s.table p arg = none
      else request = fcntlGetFd ∨ request = fcntlSetFd ∨ request = fcntlGetFl ∨ request = fcntlSetFl))
  | .openFile _ _ _ | .close _ _ | .dup _ _ _ _ | .fork _ | .exec _ | .exit _ => isTrue trivial

/-- A file is opened and copied to a least number, the copy closes on exec, and so it is gone from the
process that runs a program, but not from its child. -/
theorem descriptors_refine_map_copies : ∃ s, Runs descriptorStep CallGuarded noDescriptors
    [.openFile 0 (.ok ()) 0, .openFile 0 (.ok ()) 1, .fcntl 0 0 fcntlDupFd 5, .fcntl 0 5 fcntlSetFd 1, .fork 0, .exec 0,
      .close 0 1] s ∧ CountsRight s ∧ (s.table 0 5, s.table 1 5) = (none, some (0, 1)) ∧
    CallRight s (descriptorCall s (.fcntl 0 0 fcntlDupFdCloexec 1)).2 (descriptorCall s (.fcntl 0 0 fcntlDupFdCloexec 1)).1
      (.fcntl 0 0 fcntlDupFdCloexec 1) := by
  have hruns : (execOk descriptorStep CallGuarded noDescriptors
      [.openFile 0 (.ok ()) 0, .openFile 0 (.ok ()) 1, .fcntl 0 0 fcntlDupFd 5, .fcntl 0 5 fcntlSetFd 1, .fork 0, .exec 0,
        .close 0 1]).any (fun s => (s.table 0 5, s.table 1 5) = (none, some (0, 1)) ∧ 0 < s.newProcess ∧
        CallGuarded s (.fcntl 0 0 fcntlDupFdCloexec 1)) = true := by
    decide
  obtain ⟨s, hexec, htables⟩ := (Option.any_eq_true _ _).mp hruns
  obtain ⟨htables, hp, hok⟩ := of_decide_eq_true htables
  obtain ⟨hcounts, hcalls⟩ := descriptors_refine_map (Runs.of_execOk hexec)
  exact ⟨s, Runs.of_execOk hexec, hcounts, htables, hcalls _ hp hok⟩

/-- With the numbers 0 and 1 in use, a copy to the least number from 1 on replaces 1. -/
theorem dupFd_replaces : ¬∀ (calls : List DescriptorCall) (s : Descriptors),
    Runs descriptorStep (fun _ _ => True) noDescriptors calls s →
    CountsRight s ∧ ∀ call : DescriptorCall, call.process < s.newProcess →
      CallRight s (descriptorCall s call).2 (descriptorCall s call).1 call := by
  intro h
  have hr : Runs descriptorStep (fun _ _ => True) noDescriptors [.openFile 0 (.ok ()) 0, .openFile 0 (.ok ()) 1] _ :=
    .of_exec rfl fun _ _ _ => trivial
  obtain ⟨k, hk, hleast, -⟩ := (h _ _ hr).2 (.fcntl 0 0 fcntlDupFd 1) (by decide)
  obtain rfl : 1 = k := Except.ok.inj hk
  exact Option.some_ne_none _ hleast.1.2.2
end SomeOs.Files
