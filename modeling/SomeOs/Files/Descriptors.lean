import SomeOs.Vfs.Access

/-! # File descriptors of processes

Descriptors and files are known by their addresses. A process has the list of its descriptors,
which a system call borrows one of; one that is no longer in the list lives until it is returned.
New descriptors and files are at addresses that were never in use.
-/
namespace SomeOs.Files
open Vfs

/-- `VFS_DESC_CLOEXEC` -/
abbrev descCloexec : ℕ := 1
/-- `VFS_OPEN_ACCESS_MODE`, and `VFS_FILE_ACCESS` -/
abbrev openAccessMode : ℕ := 3
/-- `VFS_FILE_NONBLOCK` -/
abbrev fileNonblock : ℕ := 1 <<< 14
/-- `VFS_OPEN_CLOEXEC` -/
abbrev openCloexec : ℕ := 0x40000

/-- `VfsFcntlRequest` -/
abbrev fcntlDupFd : ℕ := 0
abbrev fcntlGetFd : ℕ := 1
abbrev fcntlSetFd : ℕ := 2
abbrev fcntlGetFl : ℕ := 3
abbrev fcntlSetFl : ℕ := 4
abbrev fcntlDupFdCloexec : ℕ := 14

structure VfsFile where
  ref_count : ℕ
  flags : ℕ

structure VfsFileDescriptor where
  file : ℕ
  id : ℤ
  flags : ℕ
  ref_count : ℕ

/-- The descriptors and files in memory, the list of every process, and the next addresses and the
next process. -/
structure Descriptors where
  desc : ℕ → VfsFileDescriptor
  file : ℕ → VfsFile
  files : ℕ → List ℕ
  newDesc : ℕ
  newFile : ℕ
  newProcess : ℕ

inductive SyscallError where
  | EBADF
  | EINVAL
  | failed (e : ErrorKind)

namespace Descriptors

def vfsFileCopy (s : Descriptors) (f : ℕ) : Descriptors :=
  { s with file := Function.update s.file f { s.file f with ref_count := (s.file f).ref_count + 1 } }

def vfsFileClose (s : Descriptors) (f : ℕ) : Descriptors :=
  { s with file := Function.update s.file f { s.file f with ref_count := (s.file f).ref_count - 1 } }

def vfsFileDescriptorCopy (s : Descriptors) (a : ℕ) : Descriptors :=
  { s with desc := Function.update s.desc a { s.desc a with ref_count := (s.desc a).ref_count + 1 } }

def vfsFileDescriptorClose (s : Descriptors) (a : ℕ) : Descriptors :=
  let s := { s with desc := Function.update s.desc a { s.desc a with ref_count := (s.desc a).ref_count - 1 } }
  if (s.desc a).ref_count = 0 then s.vfsFileClose (s.desc a).file else s

def getFileDescriptorUnsafe (s : Descriptors) (p : ℕ) (fd : ℤ) : Option ℕ :=
  match (s.files p).dropWhile fun a => (s.desc a).id < fd with
  | a :: _ => if (s.desc a).id = fd then some a else none
  | [] => none

def getFileDescriptor (s : Descriptors) (p : ℕ) (fd : ℤ) : Option (ℕ × Descriptors) :=
  (s.getFileDescriptorUnsafe p fd).map fun a => (a, s.vfsFileDescriptorCopy a)

/-- `*current = to_remove->next` -/
def unlink (s : Descriptors) (p a : ℕ) : Descriptors :=
  { s with files := Function.update s.files p ((s.files p).erase a) }

/-- A new descriptor after the first `n` of the list. -/
def insertAt (s : Descriptors) (p n : ℕ) (fd : ℤ) (flags file : ℕ) : Descriptors :=
  { s with
    desc := Function.update s.desc s.newDesc ⟨file, fd, flags, 1⟩
    files := Function.update s.files p ((s.files p).take n ++ s.newDesc :: (s.files p).drop n)
    newDesc := s.newDesc + 1 }

def closeFileDescriptor (s : Descriptors) (p : ℕ) (fd : ℤ) : Descriptors :=
  match s.getFileDescriptorUnsafe p fd with
  | some a => (s.unlink p a).vfsFileDescriptorClose a
  | none => s

/-- The descriptors that are passed while their numbers are taken, and the number that is not. -/
def skipTaken (s : Descriptors) : List ℕ → ℤ → ℕ × ℤ
  | [], fd => (0, fd)
  | a :: l, fd =>
    if (s.desc a).id = fd then
      let r := s.skipTaken l (fd + 1)
      (r.1 + 1, r.2)
    else (0, fd)

/-- A descriptor with the number `fd` is closed before the list is searched, so that none with it is
found there. -/
def putNewFileDescriptor (s : Descriptors) (p : ℕ) (fd : ℤ) (flags file : ℕ) (replace : Bool) : ℤ × Descriptors :=
  let s := s.vfsFileCopy file
  if fd < 0 then
    let r := s.skipTaken (s.files p) 0
    (r.2, s.insertAt p r.1 r.2 flags file)
  else
    let s := s.closeFileDescriptor p fd
    let n := ((s.files p).takeWhile fun a => (s.desc a).id < fd).length
    match (s.files p)[n]? with
    | some a =>
      if (s.desc a).id = fd then
        if replace then (fd, ((s.unlink p a).vfsFileDescriptorClose a).insertAt p n fd flags file)
        else
          let r := s.skipTaken ((s.files p).drop n) fd
          (r.2, s.insertAt p (n + r.1) r.2 flags file)
      else (fd, s.insertAt p n fd flags file)
    | none => (fd, s.insertAt p n fd flags file)

def closeAllProcessFiles (s : Descriptors) (p : ℕ) : Descriptors :=
  let s := (s.files p).foldl vfsFileDescriptorClose s
  { s with files := Function.update s.files p [] }

def closeExecProcessFiles (s : Descriptors) (p : ℕ) : Descriptors :=
  (s.files p).foldl (fun s a =>
    if (s.desc a).flags &&& descCloexec ≠ 0 then (s.unlink p a).vfsFileDescriptorClose a else s) s

def forkFileDescriptors (s : Descriptors) (new_process old_process : ℕ) : Descriptors :=
  (s.files old_process).foldl (fun s a =>
    (s.putNewFileDescriptor new_process (s.desc a).id (s.desc a).flags (s.desc a).file false).2) s

def convertOpenMode (flags : ℕ) : ℕ := (flags / 4 * 4) ||| ((flags + 1) &&& openAccessMode)

/-- What `vfsOpenAt` returns is given: an error, or a file that only the caller refers to. -/
def openSyscall (s : Descriptors) (p : ℕ) (opened : Except ErrorKind Unit) (flags : ℕ) : Except SyscallError ℤ × Descriptors :=
  let flags := convertOpenMode flags
  match opened with
  | .error e => (.error (.failed e), s)
  | .ok _ =>
    let file := s.newFile
    let s := { s with
      file := Function.update s.file file ⟨1, flags &&& (openAccessMode ||| fileNonblock)⟩
      newFile := s.newFile + 1 }
    let r := s.putNewFileDescriptor p (-1) (if flags &&& openCloexec ≠ 0 then descCloexec else 0) file false
    (.ok r.1, r.2.vfsFileClose file)

def closeSyscall (s : Descriptors) (p : ℕ) (fd : ℤ) : Except SyscallError ℤ × Descriptors :=
  match s.getFileDescriptor p fd with
  | none => (.error .EBADF, s)
  | some (desc, s) => (.ok 0, (s.closeFileDescriptor p fd).vfsFileDescriptorClose desc)

/-- The flags of a copy that `dup` makes of a descriptor. -/
def dupFlags (flags openFlags : ℕ) : ℕ :=
  (flags / 2 * 2) ||| (if openFlags &&& openCloexec ≠ 0 then descCloexec else 0)

def dupSyscall (s : Descriptors) (p : ℕ) (fd id : ℤ) (openFlags : ℕ) : Except SyscallError ℤ × Descriptors :=
  match s.getFileDescriptor p fd with
  | none => (.error .EBADF, s)
  | some (desc, s) =>
    let r := s.putNewFileDescriptor p id (dupFlags (s.desc desc).flags openFlags) (s.desc desc).file true
    (.ok r.1, r.2.vfsFileDescriptorClose desc)

/-- The argument is a number for some requests and flags for others. After an unknown request the
descriptor is not returned. -/
def fcntlSyscall (s : Descriptors) (p : ℕ) (fd : ℤ) (request : ℕ) (arg : ℤ) : Except SyscallError ℤ × Descriptors :=
  match s.getFileDescriptor p fd with
  | none => (.error .EBADF, s)
  | some (desc, s) =>
    if request = fcntlDupFd ∨ request = fcntlDupFdCloexec then
      let r := s.putNewFileDescriptor p arg (if request = fcntlDupFdCloexec then descCloexec else 0) (s.desc desc).file false
      (.ok r.1, r.2.vfsFileDescriptorClose desc)
    else if request = fcntlGetFd then (.ok (s.desc desc).flags, s.vfsFileDescriptorClose desc)
    else if request = fcntlSetFd then
      let s := { s with desc := Function.update s.desc desc { s.desc desc with flags := (arg % 2 ^ 32).toNat } }
      (.ok 0, s.vfsFileDescriptorClose desc)
    else if request = fcntlGetFl then (.ok (s.file (s.desc desc).file).flags, s.vfsFileDescriptorClose desc)
    else if request = fcntlSetFl then
      let file := (s.desc desc).file
      let flags := ((arg % 2 ^ 64).toNat &&& fileNonblock) ||| ((s.file file).flags &&& openAccessMode)
      let s := { s with file := Function.update s.file file { s.file file with flags := flags } }
      (.ok 0, s.vfsFileDescriptorClose desc)
    else (.error .EINVAL, s)

/-- The part of `createUserProcess` that is about files. -/
def forkSyscall (s : Descriptors) (p : ℕ) : Except SyscallError ℤ × Descriptors :=
  (.ok s.newProcess, { s with newProcess := s.newProcess + 1 }.forkFileDescriptors s.newProcess p)

end Descriptors

inductive DescriptorCall where
  | openFile (p : ℕ) (opened : Except ErrorKind Unit) (flags : ℕ)
  | close (p : ℕ) (fd : ℤ)
  | dup (p : ℕ) (fd id : ℤ) (openFlags : ℕ)
  | fcntl (p : ℕ) (fd : ℤ) (request : ℕ) (arg : ℤ)
  | fork (p : ℕ)
  | exec (p : ℕ)
  | exit (p : ℕ)

def DescriptorCall.process : DescriptorCall → ℕ
  | .openFile p _ _ | .close p _ | .dup p _ _ _ | .fcntl p _ _ _ | .fork p | .exec p | .exit p => p

/-- The result of a call with the state after it. -/
def descriptorCall (s : Descriptors) : DescriptorCall → Except SyscallError ℤ × Descriptors
  | .openFile p opened flags => s.openSyscall p opened flags
  | .close p fd => s.closeSyscall p fd
  | .dup p fd id openFlags => s.dupSyscall p fd id openFlags
  | .fcntl p fd request arg => s.fcntlSyscall p fd request arg
  | .fork p => s.forkSyscall p
  | .exec p => (.ok 0, s.closeExecProcessFiles p)
  | .exit p => (.ok 0, s.closeAllProcessFiles p)

def descriptorStep (s : Descriptors) (call : DescriptorCall) : Option Descriptors :=
  if call.process < s.newProcess then some (descriptorCall s call).2 else none

def noDescriptors : Descriptors := ⟨fun _ => ⟨0, 0, 0, 0⟩, fun _ => ⟨0, 0⟩, fun _ => [], 0, 0, 1⟩

end SomeOs.Files
