import SomeOs.Base.Blocks
import SomeOs.Base.Transition

/-! # The allocators of the kernel

An allocator with the one that backs it, and so on to one that is backed by none. The
headers of free blocks are at the start of the blocks; a free list is given as the list
of its blocks, and a pointer to one of its links as the blocks before and after it.
The blocks that callers have, and the memory that was obtained from the page
allocator, are kept beside what the source keeps.
-/
namespace SomeOs.Heap
open Blocks

/-- `PAGE_SIZE` -/
abbrev pageSize : ℕ := 4096

/-- `MINIMUM_FREE`, the size of the header of a free block. -/
abbrev minimumFree : ℕ := 16

structure Allocator where
  block_size : ℕ
  min_backing_free : ℕ
  first_free : List Block
  special_range_start : ℕ
  special_range_end : ℕ

def roundUp (size block_size : ℕ) : ℕ :=
  let n := size + block_size - 1
  n - n % block_size

def roundDown (size block_size : ℕ) : ℕ := size - size % block_size

/-- The blocks before the place of the memory, the block that it is a part of, and those
after it. -/
def insertFreeMemory : List Block → Block → List Block × Block × List Block
  | [], memory => ([], memory, [])
  | current :: next, memory =>
    if current.start < memory.start then
      if current.start + current.size = memory.start then
        insertFreeMemory next ⟨current.start, current.size + memory.size⟩
      else
        let (before, memory, rest) := insertFreeMemory next memory
        (current :: before, memory, rest)
    else if memory.start + memory.size = current.start then
      ([], ⟨memory.start, memory.size + current.size⟩, next)
    else ([], memory, current :: next)

def findFreeMemoryThatFits : List Block → ℕ → Option (List Block × Block × List Block)
  | [], _ => none
  | current :: next, size =>
    if size ≤ current.size then some ([], current, next)
    else (findFreeMemoryThatFits next size).map fun (before, memory, rest) => (current :: before, memory, rest)

/-- The parts of free memory that are kept, and the pages that go back to the backing
allocator, if there are enough of them. -/
def tryFreeingOldMemory (alloc : Allocator) (page : ℕ) (memory : Block) : Option (List Block × Block) :=
  let mem_start := memory.start
  let mem_stop := mem_start + memory.size
  let mem_end := roundDown mem_stop page
  let page_start := if roundDown mem_start page ≠ mem_start then roundUp (mem_start + minimumFree) page
    else roundDown mem_start page
  let page_end := if mem_stop ≠ mem_end then roundDown (mem_end - minimumFree) page else mem_stop
  if (mem_end ≤ alloc.special_range_start ∨ alloc.special_range_end ≤ mem_start) ∧
      (mem_start = page_start ∧ mem_end = page_end ∨ page_start + alloc.min_backing_free ≤ page_end) then
    some (
      if page_start = mem_start ∧ page_end = mem_end then []
      else if mem_end = page_end then [⟨mem_start, page_start - mem_start⟩]
      else if mem_start = page_start then [⟨page_end, mem_end - page_end⟩]
      else [⟨mem_start, page_start - mem_start⟩, ⟨page_end, mem_end - page_end⟩],
      ⟨page_start, page_end - page_start⟩)
  else none

/-- The allocator and those behind it after memory was put at its place in the free list. -/
def deallocMemory : List Allocator → ℕ → ℕ → List Allocator
  | [], _, _ => []
  | alloc :: backing, ptr, size =>
    if size = 0 then alloc :: backing
    else
      let (before, memory, rest) := insertFreeMemory alloc.first_free ⟨ptr, size⟩
      match backing.head?.bind fun next => tryFreeingOldMemory alloc next.block_size memory with
      | none => { alloc with first_free := before ++ memory :: rest } :: backing
      | some (kept, pages) =>
        { alloc with first_free := before ++ kept ++ rest } :: deallocMemory backing pages.start pages.size

/-- The parts of free memory that stay in the free list, and the allocators behind it after
pages have gone back. -/
def giveBack (alloc : Allocator) (backing : List Allocator) (memory : Block) : List Block × List Allocator :=
  match backing.head?.bind fun next => tryFreeingOldMemory alloc next.block_size memory with
  | none => ([memory], backing)
  | some (kept, pages) => (kept, deallocMemory backing pages.start pages.size)

/-- A free block is split, or taken as a whole when what is left of it would be too small
for a header. -/
def takeMemory (alloc : Allocator) (size : ℕ) : List Block × Block × List Block → Option ℕ × Allocator
  | (before, free, rest) =>
    if roundUp (size + minimumFree) alloc.block_size ≤ free.size then
      (some free.start, { alloc with first_free := before ++ ⟨free.start + size, free.size - size⟩ :: rest })
    else if size ≤ free.size then (some free.start, { alloc with first_free := before ++ rest })
    else (none, { alloc with first_free := before ++ free :: rest })

/-- The start of the memory, or none. -/
def basicAllocMemory : List Allocator → ℕ → Option ℕ × List Allocator
  | [], _ => (none, [])
  | alloc :: backing, size =>
    match findFreeMemoryThatFits alloc.first_free size with
    | some memory => ((takeMemory alloc size memory).1, (takeMemory alloc size memory).2 :: backing)
    | none =>
      match backing.head? with
      | none => (none, alloc :: backing)
      | some next =>
        -- `addNewMemory`
        let backing_size := roundUp size next.block_size
        match if backing_size = 0 then (none, backing) else basicAllocMemory backing backing_size with
        | (none, backing) => (none, alloc :: backing)
        | (some new_free, backing) =>
          let memory := insertFreeMemory alloc.first_free ⟨new_free, backing_size⟩
          ((takeMemory alloc size memory).1, (takeMemory alloc size memory).2 :: backing)

def allocMemory (alloc : List Allocator) (size : ℕ) : Option ℕ × List Allocator :=
  if size = 0 then (none, alloc) else basicAllocMemory alloc size

/-- An allocator that is backed by the page allocator, the blocks that its callers have, and
the memory that it and the other users of the page allocator have. -/
structure HeapState where
  alloc : Allocator
  backing : Allocator
  live : List Block
  owned : ℕ → Bool
  held : ℕ → Bool

/-- The memory that a user of an allocator has after a call: what has left the free list, and
not what has come back to it. -/
def obtained (own : ℕ → Bool) (before after : Allocator) : ℕ → Bool := fun x =>
  if Covers after.first_free x then false else if Covers before.first_free x then true else own x

inductive HeapAction where
  | alloc (size : ℕ)
  | dealloc (block : Block)
  | allocPages (pages : ℕ)
  | deallocPages (ptr pages : ℕ)

def heapStep (h : HeapState) : HeapAction → Option HeapState
  | .alloc size =>
    match allocMemory [h.alloc, h.backing] size with
    | (ret, [alloc, backing]) => some { h with
        alloc := alloc, backing := backing, owned := obtained h.owned h.backing backing
        live := match ret with
          | some ptr => h.live ++ [⟨ptr, size⟩]
          | none => h.live }
    | _ => none
  | .dealloc block =>
    match deallocMemory [h.alloc, h.backing] block.start block.size with
    | [alloc, backing] => some { h with
        alloc := alloc, backing := backing, owned := obtained h.owned h.backing backing
        live := h.live.erase block }
    | _ => none
  | .allocPages pages =>
    match allocMemory [h.backing] (pages * pageSize) with
    | (_, [backing]) => some { h with backing := backing, held := obtained h.held h.backing backing }
    | _ => none
  | .deallocPages ptr pages =>
    match deallocMemory [h.backing] ptr (pages * pageSize) with
    | [backing] => some { h with backing := backing, held := obtained h.held h.backing backing }
    | _ => none

/-- Sizes are multiples of the size of a block. Only a live block that has room for a header
is released, with its size, and only pages that were obtained. -/
def Enabled (h : HeapState) : HeapAction → Prop
  | .alloc size => size % h.alloc.block_size = 0
  | .dealloc block => block ∈ h.live ∧ minimumFree ≤ block.size
  | .allocPages _ => True
  | .deallocPages ptr pages => ptr % pageSize = 0 ∧ ∀ i < pages * pageSize, h.held (ptr + i) = true

instance decidableEnabled (h : HeapState) : (act : HeapAction) → Decidable (Enabled h act)
  | .alloc size => inferInstanceAs (Decidable (size % h.alloc.block_size = 0))
  | .dealloc block => inferInstanceAs (Decidable (block ∈ h.live ∧ minimumFree ≤ block.size))
  | .allocPages _ => inferInstanceAs (Decidable True)
  | .deallocPages ptr pages =>
    inferInstanceAs (Decidable (ptr % pageSize = 0 ∧ ∀ i < pages * pageSize, h.held (ptr + i) = true))

def Allocator.Special (alloc : Allocator) (x : ℕ) : Prop :=
  alloc.special_range_start ≤ x ∧ x < alloc.special_range_end

/-- An allocator that was just set up. Its free list is empty, or it is the special range;
the page allocator may have been used before. The page at address 0 is no memory. -/
structure Start (h : HeapState) : Prop where
  block_size : 0 < h.alloc.block_size ∧ pageSize % h.alloc.block_size = 0
  page_size : h.backing.block_size = pageSize
  first_free : (h.alloc.special_range_end ≤ h.alloc.special_range_start ∧ h.alloc.first_free = []) ∨
    h.alloc.special_range_start + minimumFree ≤ h.alloc.special_range_end ∧
      h.alloc.first_free = [⟨h.alloc.special_range_start, h.alloc.special_range_end - h.alloc.special_range_start⟩]
  live : h.live = []
  owned : ∀ x, h.owned x = false
  ordered : Ordered h.backing.first_free
  pages : ∀ b ∈ h.backing.first_free, b.start % pageSize = 0 ∧ b.size % pageSize = 0 ∧ 0 < b.size
  apart : ∀ x, Covers h.backing.first_free x → h.held x = false ∧ ¬h.alloc.Special x
  held : ∀ x, h.held x = true → ¬h.alloc.Special x
  nonnull : ∀ x, Covers h.backing.first_free x ∨ h.held x = true ∨ h.alloc.Special x → pageSize ≤ x

end SomeOs.Heap
