import Makar.Dyadic

/-!
# The physical memory manager

The model of `mm/pmm.c`: a buddy allocator over a table with one descriptor
per frame. The free blocks of each order form a doubly linked list threaded
through the descriptors, by frame index, with `pmmNil` for "none"; a frame
is the head of a free block exactly while its `PG_BUDDY` flag is set. An
allocated block is known only through its head frame, whose descriptor
carries the order and the number of references.

The functions are those of the source, in its order and with its updates one
at a time: `listAdd` and `listDel` on the links, `buddyFree` with its
coalescing loop, `pmmInit` over the bootloader's memory map, and the calls
`pmmAllocPages`, `pmmFreePages`, `pmmIncRef` the rest of the kernel makes.
Frame indices and orders are natural numbers, which is what they are used
as; the free-frame counter is a 32-bit word and wraps as one, and the frame
number `pmm_init` computes from a 64-bit address is cut to 32 bits before it
is compared with the window, as the source cuts it.
-/

namespace Makar

/-- Bytes in a frame (`PMM_FRAME_SIZE`). -/
def pmmFrameSize : ℕ := 0x1000

/-- What an allocation returns when no block is free (`PMM_ALLOC_ERROR`). -/
def pmmAllocError : ℕ := 0xFFFFFFFF

/-- The number of buddy orders (`PMM_MAX_ORDER`). -/
def pmmMaxOrder : ℕ := 11

/-- The managed window, in frames (`PMM_MAX_FRAMES`). -/
def pmmMaxFrames : ℕ := 0x10000

/-- The free-list sentinel (`PMM_NIL`). -/
def pmmNil : ℕ := 0xFFFFFFFF

/-- The descriptor of one frame (`page_t`). -/
structure Page where
  /-- The next free block of the same order. -/
  next : ℕ
  /-- The previous free block of the same order. -/
  prev : ℕ
  /-- The order of the block this frame heads. -/
  order : ℕ
  /-- References to the block this frame heads; zero when it heads none. -/
  refcount : ℕ
  /-- The frame heads a free block (`PG_BUDDY`). -/
  pgBuddy : Bool
  deriving DecidableEq, Repr

/-- The state of the allocator: the file-scope variables of `pmm.c`. -/
structure Pmm where
  /-- The descriptor table (`mem_map`). -/
  memMap : ℕ → Page
  /-- The head of the free list of each order (`free_lists`). -/
  freeLists : ℕ → ℕ
  /-- The highest managed frame plus one (`s_max_frames`). -/
  maxFrames : ℕ
  /-- The number of free frames, as a 32-bit word (`s_free_frames`). -/
  freeFrames : ℕ
  /-- The number of frames freed by `pmm_init` (`s_total_managed_frames`). -/
  totalManaged : ℕ

namespace Pmm

/-- Rewrite the descriptor of one frame. -/
def setPage (f : ℕ) (u : Page → Page) (s : Pmm) : Pmm :=
  { s with memMap := Function.update s.memMap f (u (s.memMap f)) }

/-- Set the head of one free list. -/
def setHead (order f : ℕ) (s : Pmm) : Pmm :=
  { s with freeLists := Function.update s.freeLists order f }

/-- `list_add`: put a block in front of the free list of its order. -/
def listAdd (order f : ℕ) (s : Pmm) : Pmm :=
  let head := s.freeLists order
  let s := s.setPage f (fun p => { p with next := head, prev := pmmNil })
  let s := if head ≠ pmmNil then s.setPage head (fun p => { p with prev := f }) else s
  let s := s.setHead order f
  s.setPage f (fun p => { p with order := order, pgBuddy := true })

/-- `list_del`: take a block out of the free list of its order. -/
def listDel (order f : ℕ) (s : Pmm) : Pmm :=
  let p := (s.memMap f).prev
  let n := (s.memMap f).next
  let s := if p ≠ pmmNil then s.setPage p (fun q => { q with next := n })
    else s.setHead order n
  let s := if n ≠ pmmNil then s.setPage n (fun q => { q with prev := p }) else s
  s.setPage f (fun q => { q with pgBuddy := false })

/-- `buddy_is_free`: the frame is in range and heads a free block of exactly
that order. -/
def buddyIsFree (b order : ℕ) (s : Pmm) : Bool :=
  decide (b < s.maxFrames) && (s.memMap b).pgBuddy && decide ((s.memMap b).order = order)

/-- The loop of `buddy_free`: while the buddy is free at the same order, take
it off its list and go on with the block the two make. The first argument
bounds the number of turns; the order grows at each one, so `pmmMaxOrder`
turns are enough (`coalesce_stops`). -/
def coalesce : ℕ → ℕ → ℕ → Pmm → ℕ × ℕ × Pmm
  | 0, f, order, s => (f, order, s)
  | n + 1, f, order, s =>
    if order < pmmMaxOrder - 1 then
      let buddy := f ^^^ (1 <<< order)
      if s.buddyIsFree buddy order then
        coalesce n (if buddy < f then buddy else f) (order + 1) (s.listDel order buddy)
      else (f, order, s)
    else (f, order, s)

/-- `buddy_free`: return a block to the pool, coalescing upward. -/
def buddyFree (f order : ℕ) (s : Pmm) : Pmm :=
  let s := { s with freeFrames := (s.freeFrames + 1 <<< order) % 2 ^ 32 }
  let (f, order, s) := coalesce pmmMaxOrder f order s
  let s := s.setPage f (fun p => { p with refcount := 0 })
  s.listAdd order f

/-! ## Allocation -/

/-- The smallest order from `order` up whose free list is not empty: the
search loop of `pmm_alloc_pages`. -/
def findOrder (order : ℕ) (s : Pmm) : Option ℕ :=
  (List.range' order (pmmMaxOrder - order)).find? (fun o => decide (s.freeLists o ≠ pmmNil))

/-- The splitting loop of `pmm_alloc_pages`, `k` orders above the request:
the upper half of the block goes on the list of the order below, and the
lower half is split further. -/
def splitDown (order f : ℕ) : ℕ → Pmm → Pmm
  | 0, s => s
  | k + 1, s => splitDown order f k (s.listAdd (order + k) (f + 1 <<< (order + k)))

/-- `pmm_alloc_pages`: the physical address of `2 ^ order` contiguous frames,
or `pmmAllocError`. -/
def pmmAllocPages (order : ℕ) (s : Pmm) : ℕ × Pmm :=
  if pmmMaxOrder ≤ order then (pmmAllocError, s)
  else
    match s.findOrder order with
    | none => (pmmAllocError, s)
    | some o =>
      let f := s.freeLists o
      let s := s.listDel o f
      let s := splitDown order f (o - order) s
      let s := s.setPage f
        (fun p => { p with order := order, refcount := 1, pgBuddy := false })
      let s := { s with freeFrames := (s.freeFrames + 2 ^ 32 - 1 <<< order) % 2 ^ 32 }
      (f * pmmFrameSize, s)

/-- `pmm_alloc_frame`. -/
def pmmAllocFrame (s : Pmm) : ℕ × Pmm := s.pmmAllocPages 0

/-! ## References -/

/-- `pmm_free_pages`: drop one reference on the block at `addr`, returning it
to the pool when it was the last. The order is the one the descriptor
records; the argument is ignored. -/
def pmmFreePages (addr _order : ℕ) (s : Pmm) : Pmm :=
  let f := addr / pmmFrameSize
  if s.maxFrames ≤ f then s
  else if (s.memMap f).refcount = 0 then s
  else
    let s := s.setPage f (fun p => { p with refcount := p.refcount - 1 })
    if (s.memMap f).refcount = 0 then s.buddyFree f (s.memMap f).order else s

/-- `pmm_free_frame`. -/
def pmmFreeFrame (addr : ℕ) (s : Pmm) : Pmm := s.pmmFreePages addr 0

/-- `pmm_inc_ref`: one more reference on an allocated block, unless the
counter, a byte, is at its largest value already. -/
def pmmIncRef (addr : ℕ) (s : Pmm) : Pmm :=
  let frame := addr / pmmFrameSize
  if s.maxFrames ≤ frame then s
  else if (s.memMap frame).refcount = 0 then s
  else if (s.memMap frame).refcount = 0xFF then s
  else s.setPage frame (fun p => { p with refcount := p.refcount + 1 })

/-- `pmm_ref_count`. -/
def pmmRefCount (addr : ℕ) (s : Pmm) : ℕ :=
  let frame := addr / pmmFrameSize
  if s.maxFrames ≤ frame then 0 else (s.memMap frame).refcount

end Pmm

/-! ## Initialisation from the memory map -/

/-- One entry of the Multiboot 2 memory map (`multiboot2_mmap_entry_t`). -/
structure MmapEntry where
  /-- First byte of the region. -/
  baseAddr : UInt64
  /-- Bytes in the region. -/
  length : UInt64
  /-- The kind of memory; `1` is available. -/
  type : UInt32
  deriving DecidableEq, Repr

/-- A tag of the Multiboot 2 information structure, as far as `pmm_init`
tells tags apart. -/
inductive MbTag where
  /-- `MULTIBOOT2_TAG_TYPE_END`. -/
  | stop
  /-- `MULTIBOOT2_TAG_TYPE_MMAP`, with the entries its entry size delimits. -/
  | mmap (entries : List MmapEntry)
  /-- Any other tag, which the walk steps over. -/
  | other
  deriving DecidableEq, Repr

/-- The value a Multiboot 2 loader leaves in the magic register
(`MULTIBOOT2_BOOTLOADER_MAGIC`). -/
def multiboot2BootloaderMagic : ℕ := 0x36d76289

/-- The tag walk of `pmm_init`: the first memory map before the end tag. -/
def findMmap : List MbTag → Option (List MmapEntry)
  | [] => none
  | .stop :: _ => none
  | .mmap entries :: _ => some entries
  | .other :: tags => findMmap tags

namespace MmapEntry

/-- `MULTIBOOT2_MEMORY_AVAILABLE`. -/
def available (e : MmapEntry) : Bool := e.type == 1

/-- The page number of `region_start`: the base rounded up to a frame, in
64-bit arithmetic. -/
def startPage (e : MmapEntry) : ℕ :=
  (e.baseAddr.toNat + (pmmFrameSize - 1)) % 2 ^ 64 / pmmFrameSize

/-- The page number of `region_end`: the end rounded down to a frame, in
64-bit arithmetic. -/
def endPage (e : MmapEntry) : ℕ :=
  (e.baseAddr.toNat + e.length.toNat) % 2 ^ 64 / pmmFrameSize

end MmapEntry

namespace Pmm

/-- The allocator before `pmm_init` frees anything: every descriptor zeroed,
every list empty. -/
def empty : Pmm where
  memMap := fun _ => ⟨0, 0, 0, 0, false⟩
  freeLists := fun _ => pmmNil
  maxFrames := 0
  freeFrames := 0
  totalManaged := 0

/-- One frame of the region loop of `pmm_init`: raise `s_max_frames` over it
and free it. -/
def initFrame (s : Pmm) (f : ℕ) : Pmm :=
  ({ s with maxFrames := if s.maxFrames < f + 1 then f + 1 else s.maxFrames }).buddyFree f 0

/-- The region loop of `pmm_init`, with `n` pages to go from page number
`page`. The frame number is the page number cut to 32 bits; the loop ends at
the first one past the window, and steps over the null page and the kernel
image. -/
def initRegion (kstart kend : ℕ) : ℕ → ℕ → Pmm → Pmm
  | 0, _, s => s
  | n + 1, page, s =>
    let f := page % 2 ^ 32
    if pmmMaxFrames ≤ f then s
    else if f = 0 ∨ (kstart ≤ f ∧ f < kend) then initRegion kstart kend n (page + 1) s
    else initRegion kstart kend n (page + 1) (s.initFrame f)

/-- The first frame of the kernel image (`kstart`). -/
def kernelStartFrame : ℕ := 0x100000 / pmmFrameSize

/-- The first frame past the kernel image (`kend`). -/
def kernelEndFrame (kernelPhysEnd : ℕ) : ℕ :=
  (kernelPhysEnd + (pmmFrameSize - 1)) % 2 ^ 32 / pmmFrameSize

/-- One turn of the entry loop of `pmm_init`. -/
def initEntry (kernelPhysEnd : ℕ) (s : Pmm) (e : MmapEntry) : Pmm :=
  if e.available then
    initRegion kernelStartFrame (kernelEndFrame kernelPhysEnd)
      (e.endPage - e.startPage) e.startPage s
  else s

/-- `pmm_init`: free every usable frame of the bootloader's memory map into
the pool. Without the right magic or without a memory map nothing is
freed. -/
def pmmInit (kernelPhysEnd magic : ℕ) (tags : List MbTag) : Pmm :=
  if magic ≠ multiboot2BootloaderMagic then empty
  else
    match findMmap tags with
    | none => empty
    | some entries =>
      let s := entries.foldl (initEntry kernelPhysEnd) empty
      { s with totalManaged := s.freeFrames }

end Pmm

/-! ## The calls of the rest of the kernel -/

/-- A call to the allocator. -/
inductive PmmCall where
  /-- `pmm_alloc_pages(order)`. -/
  | allocPages (order : ℕ)
  /-- `pmm_free_pages(addr, order)`. -/
  | freePages (addr order : ℕ)
  /-- `pmm_inc_ref(addr)`. -/
  | incRef (addr : ℕ)
  deriving DecidableEq, Repr

/-- The state after a call. -/
def Pmm.step (s : Pmm) : PmmCall → Pmm
  | .allocPages order => (s.pmmAllocPages order).2
  | .freePages addr order => s.pmmFreePages addr order
  | .incRef addr => s.pmmIncRef addr

end Makar
