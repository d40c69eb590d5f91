import SomeOs.Base.Transition
import SomeOs.Memory.PageRef
import SomeOs.Memory.PageTable

/-! # Memory spaces and the operations that edit them

The machine state holds the memory of every process, the page reference table,
the free frames in the order in which the page allocator hands them out, and the
bytes of physical memory. A failed assertion of the kernel ends a run.
-/
namespace SomeOs.MemSpace
open SparseArray PageRef Paging

/-- The memory of a process. While the program loader fills a new space, no
process runs in it yet. -/
structure ProcessMemory where
  root : ℕ
  mem : PageTable
  start_brk : ℕ
  brk : ℕ
  loading : Bool

structure MemState where
  spaces : List (ℕ × ProcessMemory)
  ref_count : PageRefTable
  zero_page : ℕ
  free : List ℕ
  phys : ℕ → UInt8

def pageAddr (frame : ℕ) : ℕ := frame * pageSize

def zeroPage (phys : ℕ → UInt8) (frame : ℕ) : ℕ → UInt8 :=
  fun a => if a / pageSize = frame then 0 else phys a

def copyPage (phys : ℕ → UInt8) (dst src : ℕ) : ℕ → UInt8 :=
  fun a => if a / pageSize = dst then phys (pageAddr src + a % pageSize) else phys a

def MemState.setMem (s : MemState) (id : ℕ) (m : ProcessMemory) (mem : PageTable) : MemState :=
  { s with spaces := set s.spaces id { m with mem := mem } }

def writableCopy (e : PageTableEntry) (paddr : ℕ) : PageTableEntry :=
  { e with w := true, c := false, paddr := paddr }

def handlePageFault (s : MemState) (id address : ℕ) : Bool × MemState :=
  match get? s.spaces id with
  | none => (false, s)
  | some m =>
    match virtToEntry 2 m.mem address with
    | none => (false, s)
    | some e =>
      if e.v && e.c then
        if e.paddr = s.zero_page then
          match s.free with
          | [] => (false, s)
          | page :: free =>
            (true, { s.setMem id m (setEntry 2 m.mem address (writableCopy e page)) with
              free := free, phys := zeroPage s.phys page })
        else if hasOtherReferences (pageAddr s.zero_page) s.ref_count (pageAddr e.paddr) then
          match s.free with
          | [] => (false, s)
          | page :: free =>
            (true, { s.setMem id m (setEntry 2 m.mem address (writableCopy e page)) with
              free := free, phys := copyPage s.phys page e.paddr })
        else (true, s.setMem id m (setEntry 2 m.mem address (writableCopy e e.paddr)))
      else (false, s)

def virtToPhys (s : MemState) (mem : Option ℕ) (vaddr : ℕ) (write allow_all : Bool) : ℕ × MemState :=
  match mem with
  | none => (vaddr, s)
  | some id =>
    match get? s.spaces id with
    | none => (0, s)
    | some m =>
      match virtToEntry 2 m.mem vaddr with
      | none => (0, s)
      | some e =>
        if write then
          if e.w then (unsafeVirtToPhys 2 m.mem vaddr, s)
          else if e.c then
            let r := handlePageFault s id vaddr
            if r.1 then
              -- The pointer is read again: it shows the frame the fault has put there.
              match (get? r.2.spaces id).bind (fun m => virtToEntry 2 m.mem vaddr) with
              | some e => (pageAddr e.paddr, r.2)
              | none => (0, r.2)
            else (0, r.2)
          else if allow_all then (unsafeVirtToPhys 2 m.mem vaddr, s)
          else (0, s)
        else if e.r || allow_all then (unsafeVirtToPhys 2 m.mem vaddr, s)
        else (0, s)

/-- The reference table and the free frames, which freeing and cloning thread
through a whole table. -/
structure FrameState where
  refs : PageRefTable
  free : List ℕ

def freePageEntryData (zero_page : ℕ) (st : FrameState) (e : PageTableEntry) : FrameState :=
  if e.g then st
  else if e.paddr = zero_page then st
  else if hasOtherReferences (pageAddr zero_page) st.refs (pageAddr e.paddr) then
    { st with refs := removeReferenceFor st.refs (pageAddr e.paddr) }
  else { st with free := e.paddr :: st.free }

def unmapAndFreePage (s : MemState) (id vaddr : ℕ) : MemState :=
  match get? s.spaces id with
  | none => s
  | some m =>
    match virtToEntry 2 m.mem vaddr with
    | none => s
    | some e =>
      let st := freePageEntryData s.zero_page ⟨s.ref_count, s.free⟩ e
      { s.setMem id m (setEntry 2 m.mem vaddr { e with v := false }) with
        ref_count := st.refs, free := st.free }

/-- One entry of the loop of `freePagesInTable`. -/
def freeSlot (zero_page : ℕ) : ℕ → FrameState → Slot → FrameState
  | 0, st, .mk e _ =>
    if e.v then
      if e.rwx then freePageEntryData zero_page st e else { st with free := e.paddr :: st.free }
    else st
  | n + 1, st, .mk e next =>
    if e.v then
      if e.rwx then freePageEntryData zero_page st e
      else
        let st := next.foldl (fun st p => freeSlot zero_page n st p.2) st
        { st with free := e.paddr :: st.free }
    else st

def freePagesInTable (zero_page n : ℕ) (st : FrameState) (table : PageTable) : FrameState :=
  table.foldl (fun st p => freeSlot zero_page n st p.2) st

def deallocMemorySpace (s : MemState) (id : ℕ) : MemState :=
  match get? s.spaces id with
  | none => s
  | some m =>
    let st := freePagesInTable s.zero_page 2 ⟨s.ref_count, s.free⟩ m.mem
    { s with spaces := erase s.spaces id, ref_count := st.refs, free := m.root :: st.free }

/-- The entries of the copy and of the source after the copy. -/
def copyMemoryPageEntry (zero_page : ℕ) (refs : PageRefTable) (dst src : PageTableEntry) :
    PageTableEntry × PageTableEntry × PageRefTable :=
  if src.g then (dst, src, refs)
  else if src.paddr = zero_page then (dst, src, refs)
  else
    let refs := addReferenceFor refs (pageAddr src.paddr)
    if src.w then
      ({ dst with c := true, w := false }, { src with c := true, w := false }, refs)
    else (dst, src, refs)

/-- The loop of `copyAllPagesAndAllocUsers` over the slots of one table. -/
def copySlots (copy : Slot → FrameState → Option (Slot × Slot × FrameState)) :
    PageTable → FrameState → Option (PageTable × PageTable × FrameState)
  | [], st => some ([], [], st)
  | (i, s) :: rest, st =>
    (copy s st).bind fun r =>
      (copySlots copy rest r.2.2).map fun q => ((i, r.1) :: q.1, (i, r.2.1) :: q.2.1, q.2.2)

def copySlot (zero_page : ℕ) : ℕ → Slot → FrameState → Option (Slot × Slot × FrameState)
  | 0, .mk e next, st =>
    if e.v then
      if e.rwx then
        let r := copyMemoryPageEntry zero_page st.refs e e
        some (.mk r.1 [], .mk r.2.1 next, { st with refs := r.2.2 })
      else none
    else some (.mk e [], .mk e next, st)
  | n + 1, .mk e next, st =>
    if e.v then
      if e.rwx then
        let r := copyMemoryPageEntry zero_page st.refs e e
        some (.mk r.1 [], .mk r.2.1 next, { st with refs := r.2.2 })
      else
        -- `createPageTable` asserts that it got a page.
        match st.free with
        | [] => none
        | page :: free =>
          (copySlots (copySlot zero_page n) next { st with free := free }).map fun q =>
            (.mk { e with paddr := page } q.1, .mk e q.2.1, q.2.2)
    else some (.mk e [], .mk e next, st)

def copyAllPagesAndAllocUsers (zero_page : ℕ) (src : PageTable) (st : FrameState) :
    Option (PageTable × PageTable × FrameState) :=
  copySlots (copySlot zero_page 2) src st

def createMemorySpace (s : MemState) (id : ℕ) : Option MemState :=
  match get? s.spaces id, s.free with
  | none, page :: free => some { s with spaces := set s.spaces id ⟨page, [], 0, 0, true⟩, free := free }
  | _, _ => none

/-- The clone of a space belongs to a new process with the same break. -/
def cloneMemorySpace (s : MemState) (id new : ℕ) : Option MemState :=
  match get? s.spaces id, get? s.spaces new, s.free with
  | some m, none, page :: free =>
    if m.loading then none
    else (copyAllPagesAndAllocUsers s.zero_page m.mem ⟨s.ref_count, free⟩).map fun r =>
      { s with
        spaces := set (set s.spaces id { m with mem := r.2.1 }) new { m with root := page, mem := r.1 }
        ref_count := r.2.2.refs
        free := r.2.2.free }
  | _, _, _ => none

def toSigned (x : ℕ) : ℤ := if x < 2 ^ 63 then x else (x : ℤ) - 2 ^ 64

def pageUp (a : ℕ) : ℕ := (a + pageSize - 1) % 2 ^ 64 / pageSize * pageSize

def breakEnd (m : ProcessMemory) (change : ℤ) : ℕ :=
  let wanted := ((m.brk + max change (toSigned ((2 ^ 64 - m.brk) % 2 ^ 64))) % 2 ^ 64).toNat
  if wanted < m.start_brk then m.start_brk else wanted

def heapBits : PageEntryBits := { u := true, r := true, a := true, d := true, c := true }

/-- The growing loop of `changeProcessBreak`. -/
def growHeap (zero_page : ℕ) : ℕ → ℕ → PageTable → List ℕ → Option (PageTable × List ℕ)
  | 0, _, table, free => some (table, free)
  | n + 1, vaddr, table, free =>
    (mapPage vaddr zero_page heapBits 0 2 table free).bind fun r =>
      growHeap zero_page n (vaddr + pageSize) r.1 r.2

/-- The shrinking loop of `changeProcessBreak`. -/
def shrinkHeap (id : ℕ) : ℕ → ℕ → MemState → MemState
  | 0, _, s => s
  | n + 1, vaddr, s => shrinkHeap id n (vaddr + pageSize) (unmapAndFreePage s id vaddr)

def MemState.setBrk (s : MemState) (id brk : ℕ) : MemState :=
  match get? s.spaces id with
  | none => s
  | some m => { s with spaces := set s.spaces id { m with brk := brk } }

def changeProcessBreak (s : MemState) (id : ℕ) (change : ℤ) : Option MemState :=
  match get? s.spaces id with
  | none => none
  | some m =>
    if m.loading then none else
    let fin := breakEnd m change
    let page_start := pageUp m.brk
    let page_end := pageUp fin
    if page_start = page_end then some (s.setBrk id fin)
    else if page_start < page_end then
      (growHeap s.zero_page ((page_end - page_start) / pageSize) page_start m.mem s.free).map
        fun r => { s.setMem id m r.1 with free := r.2 }.setBrk id fin
    else
      some ((shrinkHeap id ((page_start - page_end) / pageSize) page_end s).setBrk id fin)

structure ProtectSyscallRequest where
  start : ℕ
  stop : ℕ
  protect : ℕ

def allPagesProtectCallback (request : ProtectSyscallRequest) (e : PageTableEntry) (vaddr : ℕ) :
    PageTableEntry :=
  if decide (request.start ≤ vaddr) && decide (vaddr < request.stop) && e.u then
    { e with
      r := decide (request.protect &&& 1 ≠ 0)
      w := decide (request.protect &&& 2 ≠ 0)
      x := decide (request.protect &&& 4 ≠ 0) }
  else e

def protectRequest (addr length protect : ℕ) : ProtectSyscallRequest where
  start := addr / pageSize * pageSize
  stop := (addr + length + pageSize - 1) % 2 ^ 64 / pageSize * pageSize
  protect := protect

/-- The `EINVAL` of a request without permissions leaves the state as it is. -/
def protectSyscall (s : MemState) (id addr length protect : ℕ) : Option MemState :=
  match get? s.spaces id with
  | none => none
  | some m =>
    if m.loading then none
    else if protect &&& 7 = 0 ∨ length = 0 then some s
    else some (s.setMem id m
      (allPagesDo m.mem (allPagesProtectCallback (protectRequest addr length protect))))

def segmentBits (flags : ℕ) : PageEntryBits :=
  let bits : PageEntryBits := {
    u := true, a := true, d := true
    x := decide (flags &&& 1 ≠ 0), r := decide (flags &&& 4 ≠ 0), w := decide (flags &&& 2 ≠ 0) }
  if bits.rwx then bits else { bits with r := true }

structure LoadState where
  table : PageTable
  free : List ℕ
  phys : ℕ → UInt8

/-- The loop over the file part of a segment. The flag is false when memory ran
out; a loop that does not end within the fuel has no result. -/
def allocateFilePages (bits : PageEntryBits) (filesz limit : ℕ) :
    ℕ → ℕ → LoadState → Option (Bool × ℕ × LoadState)
  | 0, _, _ => none
  | fuel + 1, position, st =>
    if position < limit then
      match virtToEntry 2 st.table position with
      | some e =>
        allocateFilePages bits filesz limit fuel ((position + pageSize) % 2 ^ 64)
          { st with table := setEntry 2 st.table position (e.orBits bits) }
      | none =>
        match st.free with
        | [] => some (false, position, st)
        | page :: free =>
          (mapPage position page bits 0 2 st.table free).bind fun r =>
            allocateFilePages bits filesz limit fuel ((position + pageSize) % 2 ^ 64)
              { table := r.1
                free := r.2
                phys := if limit < (position + pageSize) % 2 ^ 64 then
                    fun a => if a / pageSize = page ∧ filesz % pageSize ≤ a % pageSize then 0
                      else st.phys a
                  else st.phys }
    else some (true, position, st)

/-- The loop over the rest of a segment, which is zero. -/
def allocateZeroPages (zero_page : ℕ) (bits : PageEntryBits) (limit : ℕ) :
    ℕ → ℕ → PageTable → List ℕ → Option (PageTable × List ℕ)
  | 0, _, _, _ => none
  | fuel + 1, position, table, free =>
    if position < limit then
      match virtToEntry 2 table position with
      | some e =>
        let e := e.orBits bits
        let e := if e.c then { e with w := false } else e
        allocateZeroPages zero_page bits limit fuel ((position + pageSize) % 2 ^ 64)
          (setEntry 2 table position e) free
      | none =>
        let new := if bits.w then { bits with w := false, c := true } else bits
        (mapPage position zero_page new 0 2 table free).bind fun r =>
          allocateZeroPages zero_page bits limit fuel ((position + pageSize) % 2 ^ 64) r.1 r.2
    else some (table, free)

def allocatePages (s : MemState) (fuel id addr filesz memsz flags : ℕ) : Option (Bool × MemState) :=
  match get? s.spaces id with
  | none => none
  | some m =>
    if !m.loading then none else
    let bits := segmentBits flags
    (allocateFilePages bits filesz ((addr + filesz) % 2 ^ 64) fuel (addr / pageSize * pageSize)
        ⟨m.mem, s.free, s.phys⟩).bind fun r =>
      if r.1 then
        (allocateZeroPages s.zero_page bits ((addr + memsz) % 2 ^ 64) fuel r.2.1
            r.2.2.table r.2.2.free).map fun q =>
          (true, { s.setMem id m q.1 with free := q.2, phys := r.2.2.phys })
      else some (false, { s.setMem id m r.2.2.table with free := r.2.2.free, phys := r.2.2.phys })

/-- One past the last mapped page, where the break of a loaded program starts. -/
def findStartBrk (mem : PageTable) : ℕ :=
  (leaves mem).foldl (fun last p => if last < p.1 then p.1 else last) 0 + pageSize

/-- The break is set when the segments of the program are mapped, before the stack is. -/
def setStartBrk (s : MemState) (id : ℕ) : Option MemState :=
  match get? s.spaces id with
  | none => none
  | some m =>
    if !m.loading then none
    else some { s with spaces := set s.spaces id { m with start_brk := findStartBrk m.mem, brk := findStartBrk m.mem } }

def finishLoading (s : MemState) (id : ℕ) : Option MemState :=
  (get? s.spaces id).map fun m => { s with spaces := set s.spaces id { m with loading := false } }

/-- A user store, which the hardware allows through a writable user leaf. -/
def userStore (s : MemState) (id vaddr : ℕ) (byte : UInt8) : Option MemState :=
  match get? s.spaces id with
  | none => none
  | some m =>
    match virtToEntry 2 m.mem vaddr with
    | some e =>
      if e.u && e.w then
        some { s with phys := Function.update s.phys (unsafeVirtToPhys 2 m.mem vaddr) byte }
      else none
    | none => none

def userLoad (s : MemState) (id vaddr : ℕ) : Option UInt8 :=
  match get? s.spaces id with
  | none => none
  | some m =>
    match virtToEntry 2 m.mem vaddr with
    | some e => if e.u && e.r then some (s.phys (unsafeVirtToPhys 2 m.mem vaddr)) else none
    | none => none

def allLeaves (spaces : List (ℕ × ProcessMemory)) : List PageTableEntry :=
  spaces.flatMap (fun p => (leaves p.2.mem).map Prod.snd)

def allTables (spaces : List (ℕ × ProcessMemory)) : List ℕ :=
  spaces.flatMap (fun p => p.2.root :: tablesFrom 2 p.2.mem)

def mappings (s : MemState) (frame : ℕ) : ℕ :=
  (allLeaves s.spaces).countP (fun e => e.paddr == frame)

inductive MemOp where
  | createMemorySpace (id : ℕ)
  | cloneMemorySpace (id new : ℕ)
  | handlePageFault (id vaddr : ℕ)
  | virtToPhysWrite (id vaddr : ℕ) (allow_all : Bool)
  | sbrk (id : ℕ) (change : ℤ)
  | protect (id addr length protect : ℕ)
  | allocatePages (fuel id addr filesz memsz flags : ℕ)
  | setStartBrk (id : ℕ)
  | finishLoading (id : ℕ)
  | unmapAndFreePage (id vaddr : ℕ)
  | deallocMemorySpace (id : ℕ)
  | userStore (id vaddr : ℕ) (byte : UInt8)
  /-- The rest of the kernel takes and returns pages that no memory space uses. -/
  | refill (free : List ℕ)

def step (s : MemState) : MemOp → Option MemState
  | .createMemorySpace id => createMemorySpace s id
  | .cloneMemorySpace id new => cloneMemorySpace s id new
  | .handlePageFault id vaddr => some (handlePageFault s id vaddr).2
  | .virtToPhysWrite id vaddr allow_all => some (virtToPhys s (some id) vaddr true allow_all).2
  | .sbrk id change => changeProcessBreak s id change
  | .protect id addr length protect => protectSyscall s id addr length protect
  | .allocatePages fuel id addr filesz memsz flags =>
    (allocatePages s fuel id addr filesz memsz flags).map Prod.snd
  | .setStartBrk id => setStartBrk s id
  | .finishLoading id => finishLoading s id
  | .unmapAndFreePage id vaddr => some (unmapAndFreePage s id vaddr)
  | .deallocMemorySpace id => some (deallocMemorySpace s id)
  | .userStore id vaddr byte => userStore s id vaddr byte
  | .refill free =>
    if free.Nodup ∧ ∀ f ∈ free, f ≠ s.zero_page ∧ mappings s f = 0 ∧ f ∉ allTables s.spaces then
      some { s with free := free }
    else none

/-- The state after boot: no memory space, an unused reference table, and free
frames other than the zero page. -/
structure Booted (s : MemState) : Prop where
  spaces : s.spaces = []
  ref_count : s.ref_count = PageRefTable.empty
  nodup : s.free.Nodup
  zero_page : s.zero_page ∉ s.free

end SomeOs.MemSpace
