import Makar.Runs
import Makar.Vm

/-!
# Tasks, system calls and page faults

Everything in the kernel that changes an address space: the task pool with
`fork`, `execve` and the ways a task ends (`proc/task.c`, `proc/elf.c`,
`proc/signal.c`), the memory system calls (`proc/syscall.c`), the page-fault
handler (`debug/debug.c`), shared surfaces (`proc/surface.c`) and the page cache
(`mm/pagecache.c`). A `Machine` is the state they share, an `Event` is one of
them with its arguments, and a run is any sequence of events: the kernel runs
each of them without another one in between, and in any order.

Arguments are 32-bit words, and sums of them wrap as they do in the source. What
comes from outside the kernel is part of the event: the bytes a file holds at a
page, whether reading them fails, the program image `execve` is given, and
whether the kernel heap has room for a stack or a descriptor table.
-/

namespace Makar

open List

/-- The words of a frame. -/
abbrev Words := ℕ → Entry

/-- A frame of zeros. -/
def zeroWords : Words := fun _ => Entry.zero

/-- `USER_MMAP_BASE`. -/
def userMmapBase : ℕ := 0x90000000

/-- `USER_STACK_TOP`. -/
def userStackTop : ℕ := 0xBFFF0000

/-- `USER_STACK_PAGES`. -/
def userStackPages : ℕ := 8

/-- `USER_STACK_LIMIT`. -/
def userStackLimit : ℕ := userStackTop - userStackPages * pmmFrameSize

/-- The lowest address of a user mapping, as `SYS_MMAP2` and the loader check
it. -/
def userFloor : ℕ := 0x10000000

/-- `MAX_TASKS`. -/
def maxTasks : ℕ := 32

/-- `SURFACE_MAX`. -/
def surfaceMax : ℕ := 10

/-- `SURFACE_MAX_PAGES`. -/
def surfaceMaxPages : ℕ := 960

/-- `SURFACE_MAP_SLOTS`. -/
def surfaceMapSlots : ℕ := 4

/-- `PC_NPAGES`. -/
def pcNpages : ℕ := 256

/-- The frame number of `PMM_ALLOC_ERROR`, which the page cache takes for a
frame. -/
def errorFrame : ℕ := pmmAllocError / pmmFrameSize

/-- The address of page `i` of a range, in 32 bits. -/
def pageAt (base i : ℕ) : ℕ := (base + i * pmmFrameSize) % 2 ^ 32

/-- An address cut down to its page. -/
def pageBase (addr : ℕ) : ℕ := addr / pmmFrameSize * pmmFrameSize

/-- The pages of a length, `(len + 0xFFF) >> 12` in 32 bits. -/
def pageCount (len : ℕ) : ℕ := (len + 0xFFF) % 2 ^ 32 / pmmFrameSize

/-! ## The state -/

/-- What the life of a task turns on. -/
inductive TaskState where
  /-- Running, ready or blocked. -/
  | live
  /-- `TASK_ZOMBIE`. -/
  | zombie
  /-- `TASK_DEAD`. -/
  | dead
  deriving DecidableEq, Repr

/-- A slot of the task pool (`task_t`). -/
structure Task where
  /-- The state of the task. -/
  state : TaskState
  /-- `page_dir`: none is the kernel's directory. -/
  pageDir : Option ℕ
  /-- `user_brk`. -/
  userBrk : ℕ
  /-- `user_brk_base`. -/
  userBrkBase : ℕ
  /-- `mmap_next`. -/
  mmapNext : ℕ
  /-- `pid`. -/
  pid : ℕ
  /-- `parent_pid`. -/
  parentPid : ℕ
  deriving DecidableEq, Repr

/-- A slot that has not been used. -/
def Task.unused : Task := ⟨.dead, none, 0, 0, 0, 0, 0⟩

/-- A slot of the page cache (`pcpage_t`). -/
structure PcPage where
  /-- The slot holds a page. -/
  valid : Bool
  /-- The file. -/
  path : String
  /-- The page of the file. -/
  pidx : ℕ
  /-- The frame; zero is none. -/
  frame : ℕ
  deriving DecidableEq, Repr

/-- An empty slot of the page cache. -/
def PcPage.empty : PcPage := ⟨false, "", 0, 0⟩

/-- A mapping of a surface. -/
structure MapSlot where
  /-- The task it is mapped into. -/
  task : ℕ
  /-- The first address. -/
  baseVa : ℕ
  deriving DecidableEq, Repr

/-- A slot of the surface table (`surface_t`). -/
structure Surface where
  /-- The slot holds a surface. -/
  inUse : Bool
  /-- The sides, as they were asked for. -/
  w : ℤ
  h : ℤ
  /-- The frames, `npages` of them. -/
  phys : List ℕ
  /-- The task that created it and has not let go of it. -/
  creator : Option ℕ
  /-- The mappings. -/
  map : List (Option MapSlot)
  deriving DecidableEq, Repr

/-- A free slot of the surface table. -/
def Surface.empty : Surface := ⟨false, 0, 0, [], none, replicate surfaceMapSlots none⟩

/-- The state of the kernel. -/
structure Machine where
  /-- Memory and its allocator. -/
  vm : Vm
  /-- The page cache, most recently used first. -/
  cache : List PcPage
  /-- The surface table. -/
  surf : ℕ → Surface
  /-- The task pool. -/
  tasks : ℕ → Task
  /-- `task_pool_count`. -/
  taskCount : ℕ
  /-- `next_pid`. -/
  nextPid : ℕ
  /-- The kernel has stopped. -/
  panicked : Bool

namespace Machine

/-- Write a slot of the task pool. -/
def setTask (t : ℕ) (x : Task) (m : Machine) : Machine :=
  { m with tasks := Function.update m.tasks t x }

/-- Write a slot of the surface table. -/
def setSurf (k : ℕ) (x : Surface) (m : Machine) : Machine :=
  { m with surf := Function.update m.surf k x }

/-- Write the state of a task. -/
def setState (t : ℕ) (state : TaskState) (m : Machine) : Machine :=
  m.setTask t { m.tasks t with state := state }

end Machine

/-! ## Address-space layout -/

/-- `SYS_BRK`: the break after the call. -/
def Task.sysBrk (newBrk : UInt32) (t : Task) : ℕ × Task :=
  if newBrk.toNat = 0 ∨ newBrk.toNat ≤ t.userBrk then (t.userBrk, t)
  else
    (newBrk.toNat,
      { t with
        userBrkBase := if t.userBrkBase = 0 then t.userBrk else t.userBrkBase
        userBrk := newBrk.toNat })

/-- The address range `SYS_MMAP2` and `surface_map` take from the window of the
task: its first address, or none when it would reach the stack. The end of the
range is a 32-bit word. -/
def Task.reserve (pages : ℕ) (t : Task) : Option ℕ × Task :=
  let t := if t.mmapNext = 0 then { t with mmapNext := userMmapBase } else t
  let top := (t.mmapNext + pages * pmmFrameSize) % 2 ^ 32
  if userStackLimit ≤ top then (none, t) else (some t.mmapNext, { t with mmapNext := top })

/-- The address range of `SYS_MMAP2` with `MAP_FIXED`. -/
def fixedBase (addr pages : ℕ) : Option ℕ :=
  if pageBase addr < userFloor ∨ userStackTop < (pageBase addr + pages * pmmFrameSize) % 2 ^ 32
  then none else some (pageBase addr)

/-! ## The page cache -/

namespace Machine

/-- The test of the lookup loop of `pc_get`. -/
def pcMatch (path : String) (pidx : ℕ) (p : PcPage) : Bool :=
  p.valid && p.pidx == pidx && p.path == path

/-- The frame `pc_get` fills on a miss: the one of the recycled slot when the
cache alone refers to it, a new one otherwise. A failed allocation is not
noticed. -/
def pcFrame (old : ℕ) (vm : Vm) : ℕ × Vm :=
  let r := if old ≠ 0 ∧ vm.refCount old ≠ 1 then (0, vm.freeFrame old) else (old, vm)
  if r.1 = 0 then
    match r.2.allocFrame with
    | (some f, vm) => (f, vm)
    | (none, vm) => (errorFrame, vm)
  else r

/-- `pc_get`: the frame of a page of a file, none on error. On a miss the least
recently used slot is recycled, and `fill` is what reading the page gives;
reading it to the address of a failed allocation stops the kernel, of which the
state is then no matter. -/
def pcGet (path : String) (pidx : ℕ) (fill : Option Words) (m : Machine) : Option ℕ × Machine :=
  match m.cache.find? (pcMatch path pidx) with
  | some p => (some p.frame, { m with cache := p :: m.cache.eraseP (pcMatch path pidx) })
  | none =>
    match m.cache.getLast? with
    | none => (none, m)
    | some p =>
      let r := pcFrame p.frame m.vm
      match fill with
      | none =>
        (none, { m with
          vm := r.2
          cache := m.cache.dropLast ++ [{ p with frame := r.1, valid := false }] })
      | some words =>
        if r.1 = errorFrame then (none, { m with panicked := true })
        else
          (some r.1, { m with
            vm := r.2.setFrame r.1 words
            cache := ⟨true, path, pidx, r.1⟩ :: m.cache.dropLast })

/-- `pagecache_acquire`: the frame of a page of a file, with a reference. -/
def pagecacheAcquire (path : String) (size pidx : ℕ) (fill : Option Words) (m : Machine) :
    Option ℕ × Machine :=
  if size ≤ pidx * pmmFrameSize then (none, m)
  else
    match m.pcGet path pidx fill with
    | (none, m) => (none, m)
    | (some f, m) => (some f, { m with vm := m.vm.incRef f })

/-- Release a frame of the page cache. -/
def pcDrop (vm : Vm) (p : PcPage) : Vm := if p.frame ≠ 0 then vm.freeFrame p.frame else vm

/-- `pagecache_invalidate`: the slots of a file are emptied and go to the end of
the list. -/
def pagecacheInvalidate (path : String) (m : Machine) : Machine :=
  let gone := m.cache.filter (fun p => p.valid && p.path == path)
  let kept := m.cache.filter (fun p => !(p.valid && p.path == path))
  { m with
    vm := gone.foldl pcDrop m.vm
    cache := kept ++ gone.map (fun _ => PcPage.empty) }

/-- `pagecache_drop_all`. -/
def pagecacheDropAll (m : Machine) : Machine :=
  { m with
    vm := m.cache.foldl pcDrop m.vm
    cache := replicate pcNpages PcPage.empty }

end Machine

/-! ## `SYS_MMAP2`, `SYS_MPROTECT`, `SYS_MUNMAP` -/

/-- An open file, as the descriptor has it. -/
structure FileDesc where
  /-- The path. -/
  path : String
  /-- The size in bytes. -/
  size : ℕ
  /-- The file is read through the page cache. -/
  lazy : Bool

/-- The arguments of `SYS_MMAP2`, with what the descriptor resolves to and what
the file gives: `data` the bytes of page `i` of the mapping, `fill` the outcome of
reading it into the page cache. -/
structure MmapArgs where
  /-- `EBX`. -/
  addr : UInt32
  /-- `ECX`. -/
  len : UInt32
  /-- `prot & PROT_WRITE`. -/
  write : Bool
  /-- `flags & MAP_FIXED`. -/
  fixed : Bool
  /-- `flags & MAP_ANONYMOUS`. -/
  anon : Bool
  /-- `EDI`. -/
  file : Option FileDesc
  /-- `EBP`. -/
  pgoff : UInt32
  /-- The bytes of each page. -/
  data : ℕ → Words
  /-- The outcome of reading each page. -/
  fill : ℕ → Option Words

namespace MmapArgs

/-- The number of pages. -/
def pages (a : MmapArgs) : ℕ := pageCount a.len.toNat

/-- `shared_ro`: the pages come from the page cache. -/
def sharedRo (a : MmapArgs) (f : FileDesc) : Bool := !a.anon && f.lazy && !a.write

end MmapArgs

namespace Machine

/-- `syscall_file_pread` of one page into a new frame. -/
def filePread (a : MmapArgs) (f : FileDesc) (phys i : ℕ) (m : Machine) : Machine :=
  let pidx := a.pgoff.toNat + i
  if f.size ≤ pidx * pmmFrameSize then m
  else if f.lazy then
    match m.pcGet f.path pidx (a.fill i) with
    | (none, m) => m
    | (some _, m) => { m with vm := m.vm.setFrame phys (a.data i) }
  else { m with vm := m.vm.setFrame phys (a.data i) }

/-- The frame of page `i` of the mapping from the page cache, where the mapping
shares it. -/
def mmapShared (a : MmapArgs) (i : ℕ) (m : Machine) : Option ℕ × Machine :=
  match a.file with
  | some f =>
    if a.sharedRo f then m.pagecacheAcquire f.path f.size ((a.pgoff.toNat + i) % 2 ^ 32) (a.fill i)
    else (none, m)
  | none => (none, m)

/-- A new frame for page `i` of the mapping, with what the file has for it. -/
def mmapFresh (a : MmapArgs) (i : ℕ) (m : Machine) : Option ℕ × Machine :=
  match m.vm.allocFrame with
  | (none, vm) => (none, { m with vm := vm })
  | (some phys, vm) =>
    let m := { m with vm := vm.setFrame phys zeroWords }
    match a.file with
    | some f =>
      if !a.anon && !a.sharedRo f then (some phys, m.filePread a f phys i) else (some phys, m)
    | none => (some phys, m)

/-- The frame of page `i` of the mapping: one of the page cache, or a new one.
None when there is no frame. -/
def mmapFrame (a : MmapArgs) (i : ℕ) (m : Machine) : Option ℕ × Machine :=
  match m.mmapShared a i with
  | (some f, m) => (some f, m)
  | (none, m) => if m.panicked then (none, m) else m.mmapFresh a i

/-- One turn of the page loop of `SYS_MMAP2`. -/
def mmapPage (pd base : ℕ) (a : MmapArgs) (m : Machine) (i : ℕ) : Bool × Machine :=
  match m.mmapFrame a i with
  | (none, m) => (false, m)
  | (some phys, m) =>
    if m.panicked then (false, m)
    else
      let vm := if a.fixed then m.vm.vmmUnmapAndFree pd (pageAt base i) else m.vm
      (true, { m with vm := vm.vmmMapPage pd (pageAt base i) phys a.write })

/-- The range of `SYS_MMAP2`. -/
def mmapBase (t : ℕ) (a : MmapArgs) (m : Machine) : Option ℕ × Machine :=
  if a.fixed then (fixedBase a.addr.toNat a.pages, m)
  else
    let r := (m.tasks t).reserve a.pages
    (r.1, m.setTask t r.2)

/-- `SYS_MMAP2`: the address of the mapping, none on failure. Anonymous pages
are left to the page-fault handler unless the address is fixed. -/
def sysMmap2 (t : ℕ) (a : MmapArgs) (m : Machine) : Option ℕ × Machine :=
  match (m.tasks t).pageDir with
  | none => (none, m)
  | some pd =>
    if a.len.toNat = 0 then (none, m)
    else
      match m.mmapBase t a with
      | (none, m) => (none, m)
      | (some base, m) =>
        if a.anon && !a.fixed then (some base, m)
        else if !a.anon && a.file.isNone then (none, m)
        else
          match loop (mmapPage pd base a) (range a.pages) m with
          | (true, m) => (some base, m)
          | (false, m) => (none, m)

/-- The number of pages of `SYS_MPROTECT`. -/
def protectCount (addr len : ℕ) : ℕ :=
  (addr % pmmFrameSize + len + 0xFFF) % 2 ^ 32 / pmmFrameSize

/-- `SYS_MPROTECT`. -/
def sysMprotect (t : ℕ) (addr len : UInt32) (write : Bool) (m : Machine) : Machine :=
  match (m.tasks t).pageDir with
  | none => m
  | some pd =>
    if len.toNat = 0 then m
    else
      { m with
        vm := (range (protectCount addr.toNat len.toNat)).foldl
          (fun vm i => vm.vmmProtectPage pd (pageAt (pageBase addr.toNat) i) write) m.vm }

/-- `SYS_MUNMAP`. -/
def sysMunmap (t : ℕ) (addr len : UInt32) (m : Machine) : Machine :=
  match (m.tasks t).pageDir with
  | none => m
  | some pd =>
    { m with
      vm := (range (pageCount len.toNat)).foldl
        (fun vm i => vm.vmmUnmapAndFree pd (pageAt (pageBase addr.toNat) i)) m.vm }

/-! ## Surfaces -/

/-- The first free map slot is taken. -/
def fillSlot (x : MapSlot) : List (Option MapSlot) → Option (List (Option MapSlot))
  | [] => none
  | none :: l => some (some x :: l)
  | some y :: l => (fillSlot x l).map (some y :: ·)

/-- The first map slot of a task is given up. -/
def takeSlot (t : ℕ) : List (Option MapSlot) → Option (MapSlot × List (Option MapSlot))
  | [] => none
  | none :: l => (takeSlot t l).map (fun r => (r.1, none :: r.2))
  | some x :: l =>
    if x.task = t then some (x, none :: l) else (takeSlot t l).map (fun r => (r.1, some x :: r.2))

/-- Clear the entries of a mapping of `n` pages. -/
def unmapPages (pd base n : ℕ) (vm : Vm) : Vm :=
  (range n).foldl (fun vm p => vm.vmmUnmapPage pd (pageAt base p)) vm

/-- `surface_gc`: a surface nobody holds gives its frames back. -/
def surfaceGc (k : ℕ) (m : Machine) : Machine :=
  let s := m.surf k
  if s.creator.isNone && s.map.all Option.isNone then
    { m with vm := s.phys.foldl (fun vm f => if f ≠ 0 then vm.freeFrame f else vm) m.vm }.setSurf k
      Surface.empty
  else m

/-- The number of pages of a surface. -/
def surfacePages (w h : ℤ) : ℕ := pageCount ((w * h * 4).toNat % 2 ^ 32)

/-- One turn of the allocation loop of `surface_create`. -/
def surfacePage (r : List ℕ × Vm) (_i : ℕ) : Bool × List ℕ × Vm :=
  match r.2.allocFrame with
  | (none, vm) => (false, r.1, vm)
  | (some f, vm) => (true, r.1 ++ [f], vm.setFrame f zeroWords)

/-- `surface_create`, by task `t`. -/
def surfaceCreate (t : ℕ) (w h : ℤ) (m : Machine) : Machine :=
  if w ≤ 0 ∨ h ≤ 0 then m
  else if surfacePages w h = 0 ∨ surfaceMaxPages < surfacePages w h then m
  else
    match (range surfaceMax).find? (fun k => !(m.surf k).inUse) with
    | none => m
    | some k =>
      match loop surfacePage (range (surfacePages w h)) ([], m.vm) with
      | (false, phys, vm) => { m with vm := phys.foldl (fun vm f => vm.freeFrame f) vm }
      | (true, phys, vm) =>
        { m with vm := vm }.setSurf k
          ⟨true, w, h, phys, some t, replicate surfaceMapSlots none⟩

/-- Map the frames of a surface. -/
def mapPages (pd base : ℕ) (phys : List ℕ) (vm : Vm) : Vm :=
  phys.zipIdx.foldl (fun vm x => vm.vmmMapPage pd (pageAt base x.2) x.1 true) vm

/-- `surface_map`, by task `t`: the address of the mapping, none on failure. -/
def surfaceMap (k t : ℕ) (m : Machine) : Option ℕ × Machine :=
  match (m.tasks t).pageDir with
  | none => (none, m)
  | some pd =>
    let s := m.surf k
    if surfaceMax ≤ k ∨ s.inUse = false then (none, m)
    else if s.map.all Option.isSome then (none, m)
    else
      match (m.tasks t).reserve s.phys.length with
      | (none, x) => (none, m.setTask t x)
      | (some base, x) =>
        match fillSlot ⟨t, base⟩ s.map with
        | none => (none, m)
        | some map =>
          (some base,
            ({ m with vm := mapPages pd base s.phys m.vm }.setTask t x).setSurf k
              { s with map := map })

/-- `surface_destroy`, by task `t`. -/
def surfaceDestroy (k t : ℕ) (m : Machine) : Machine :=
  let s := m.surf k
  if surfaceMax ≤ k ∨ s.inUse = false ∨ s.creator ≠ some t then m
  else (m.setSurf k { s with creator := none }).surfaceGc k

/-- `surface_unmap`, by task `t`. -/
def surfaceUnmap (k t : ℕ) (m : Machine) : Machine :=
  let s := m.surf k
  if surfaceMax ≤ k ∨ s.inUse = false then m
  else
    match takeSlot t s.map with
    | none => m.surfaceGc k
    | some (x, map) =>
      let vm := match (m.tasks t).pageDir with
        | some pd => unmapPages pd x.baseVa s.phys.length m.vm
        | none => m.vm
      ({ m with vm := vm }.setSurf k { s with map := map }).surfaceGc k

/-- The loop over the map slots in `surface_release_task`. -/
def releaseSlots (t n : ℕ) (pageDir : Option ℕ) (vm : Vm) (x : Option MapSlot) : Vm :=
  match x, pageDir with
  | some x, some pd => if x.task = t then unmapPages pd x.baseVa n vm else vm
  | _, _ => vm

/-- One turn of the loop of `surface_release_task`. -/
def releaseSurface (t : ℕ) (m : Machine) (k : ℕ) : Machine :=
  let s := m.surf k
  if s.inUse then
    ({ m with
        vm := s.map.foldl (releaseSlots t s.phys.length (m.tasks t).pageDir) m.vm }.setSurf k
      { s with
        creator := if s.creator = some t then none else s.creator
        map := s.map.map (Option.filter (fun x => x.task ≠ t)) }).surfaceGc k
  else m

/-- `surface_release_task`. -/
def surfaceReleaseTask (t : ℕ) (m : Machine) : Machine :=
  (range surfaceMax).foldl (releaseSurface t) m

/-! ## The end of a task -/

/-- `task_by_pid`: the slot of a process that is not dead. -/
def taskByPid (pid : ℕ) (m : Machine) : Option ℕ :=
  (range m.taskCount).find?
    (fun i => (m.tasks i).pid == pid && decide ((m.tasks i).state ≠ .dead))

/-- Somebody may still wait for the task. -/
def leavesZombie (t : ℕ) (m : Machine) : Bool :=
  decide (0 < (m.tasks t).parentPid) &&
    match m.taskByPid (m.tasks t).parentPid with
    | some p => (m.tasks p).pageDir.isSome
    | none => false

/-- `task_terminate`: the end of a task by a signal, and the second half of
`task_exit`. -/
def taskTerminate (t : ℕ) (m : Machine) : Machine :=
  let m := m.surfaceReleaseTask t
  m.setState t (if m.leavesZombie t then .zombie else .dead)

/-- One turn of the loop of `task_exit` over its children. -/
def reapChild (t : ℕ) (m : Machine) (c : ℕ) : Machine :=
  if (m.tasks c).state = .zombie ∧ (m.tasks c).parentPid = (m.tasks t).pid
  then m.setState c .dead else m

/-- `task_exit`. -/
def taskExit (t : ℕ) (m : Machine) : Machine :=
  ((range' 1 (m.taskCount - 1)).foldl (reapChild t) m).taskTerminate t

/-- `SYS_WAIT4`, as far as it finds a zombie: child `c` of task `t` is reaped. -/
def sysWait4 (t c : ℕ) (m : Machine) : Machine :=
  if (m.tasks c).state = .zombie ∧ (m.tasks c).parentPid = (m.tasks t).pid
  then m.setState c .dead else m

/-- `SYS_SIGRETURN` with a frame it does not accept: the task is dead at
once. -/
def sigreturnKill (t : ℕ) (m : Machine) : Machine := m.setState t .dead

/-! ## New tasks -/

/-- `vmm_free_pd` on the address space of a task, if it has one. -/
def freeDir (pageDir : Option ℕ) (vm : Vm) : Vm :=
  match pageDir with
  | some pd => vm.vmmFreePd pd
  | none => vm

/-- A slot for a new task: a dead one, the address space of which is freed, or
one more if the kernel heap has room for its stack. -/
def claimSlot (stackOk : Bool) (m : Machine) : Option ℕ × Machine :=
  match (range' 1 (m.taskCount - 1)).find? (fun i => (m.tasks i).state = .dead) with
  | some i =>
    (some i, { m with vm := freeDir (m.tasks i).pageDir m.vm }.setTask i { m.tasks i with pageDir := none })
  | none =>
    if maxTasks ≤ m.taskCount ∨ stackOk = false then (none, m)
    else (some m.taskCount, { m with taskCount := m.taskCount + 1 })

/-- `task_create`, by task `p`. -/
def taskCreate (p : ℕ) (fdsOk stackOk : Bool) (m : Machine) : Machine :=
  if fdsOk = false then m
  else
    match m.claimSlot stackOk with
    | (none, m) => m
    | (some i, m) =>
      { m with nextPid := m.nextPid + 1 }.setTask i ⟨.live, none, 0, 0, 0, m.nextPid, (m.tasks p).pid⟩

/-- `task_fork`, by task `p`. -/
def taskFork (p : ℕ) (fdsOk stackOk : Bool) (m : Machine) : Machine :=
  match (m.tasks p).pageDir with
  | none => m
  | some pd =>
    if fdsOk = false then m
    else
      match m.vm.vmmClonePdCow pd with
      | (none, vm) => { m with vm := vm }
      | (some child, vm) =>
        match { m with vm := vm }.claimSlot stackOk with
        | (none, m) => { m with vm := m.vm.vmmFreePd child }
        | (some i, m) =>
          let x := m.tasks p
          { m with nextPid := m.nextPid + 1 }.setTask i
            ⟨.live, some child, x.userBrk, x.userBrkBase, x.mmapNext, m.nextPid, x.pid⟩

end Machine

/-! ## `elf_exec` -/

/-- A `PT_LOAD` segment with its bytes. -/
structure Segment where
  /-- `p_vaddr`. -/
  vaddr : UInt32
  /-- `p_memsz`. -/
  memsz : UInt32
  /-- `p_flags & PF_W`. -/
  write : Bool
  /-- The bytes of the segment are inside the file. -/
  inFile : Bool
  /-- What goes into each page. -/
  data : ℕ → Words

namespace Segment

/-- The first address. -/
def start (base : ℕ) (g : Segment) : ℕ := (g.vaddr.toNat + base) % 2 ^ 32

/-- The end, rounded up to a page. -/
def stop (base : ℕ) (g : Segment) : ℕ :=
  pageBase (((g.start base + g.memsz.toNat) % 2 ^ 32 + 0xFFF) % 2 ^ 32)

/-- The number of pages. -/
def pages (base : ℕ) (g : Segment) : ℕ :=
  (g.stop base - pageBase (g.start base)) / pmmFrameSize

end Segment

/-- The interpreter of a dynamic image. -/
inductive Interp where
  /-- The image has none. -/
  | none
  /-- It cannot be read, or is not an interpreter. -/
  | bad
  /-- Its segments. -/
  | image (segments : List Segment)

/-- A program image with a header that `elf_exec` accepts. -/
structure Image where
  /-- `ET_DYN`. -/
  dyn : Bool
  /-- The segments. -/
  segments : List Segment
  /-- The interpreter, of an `ET_DYN` image. -/
  interp : Interp
  /-- What goes into the top page of the stack. -/
  stack : Words

namespace Image

/-- `load_base`. -/
def base (x : Image) : ℕ := if x.dyn then 0x50000000 else 0

/-- `INTERP_BASE`. -/
def interpBase : ℕ := 0x70000000

/-- `top_vaddr`: the end of the highest segment. -/
def top (x : Image) : ℕ :=
  x.segments.foldl
    (fun top g => if g.memsz.toNat = 0 then top else max top (g.stop x.base)) 0

end Image

namespace Machine

/-- Map one new page. False when there is no frame. -/
def loadPage (pd virt : ℕ) (words : Words) (write : Bool) (vm : Vm) : Bool × Vm :=
  match vm.allocFrame with
  | (none, vm) => (false, vm)
  | (some phys, vm) => (true, (vm.setFrame phys words).vmmMapPage pd virt phys write)

/-- One segment in `map_load_segments`. -/
def loadSegment (pd base : ℕ) (vm : Vm) (g : Segment) : Bool × Vm :=
  if g.memsz.toNat = 0 then (true, vm)
  else if g.start base < userFloor ∨ g.inFile = false then (false, vm)
  else
    loop (fun vm i => loadPage pd (pageAt (pageBase (g.start base)) i) (g.data i) g.write vm)
      (range (g.pages base)) vm

/-- `map_load_segments`. -/
def mapLoadSegments (pd base : ℕ) (segments : List Segment) (vm : Vm) : Bool × Vm :=
  loop (loadSegment pd base) segments vm

/-- The interpreter is loaded, if there is one. -/
def loadInterp (pd : ℕ) (x : Image) (vm : Vm) : Bool × Vm :=
  match x.dyn, x.interp with
  | true, .bad => (false, vm)
  | true, .image segments => mapLoadSegments pd Image.interpBase segments vm
  | _, _ => (true, vm)

/-- The pages of the user stack, from the top down. -/
def loadStack (pd : ℕ) (x : Image) (vm : Vm) : Bool × Vm :=
  loop (fun vm i => loadPage pd (userStackTop - (i + 1) * pmmFrameSize)
    (if i = 0 then x.stack else zeroWords) true vm) (range userStackPages) vm

/-- `elf_exec`, by task `t`. The old address space is freed when the new one is
complete; the break and the window are reset before that. -/
def elfExec (t : ℕ) (x : Image) (m : Machine) : Machine :=
  match m.vm.vmmCreatePd with
  | (none, vm) => { m with vm := vm }
  | (some pd, vm) =>
    match mapLoadSegments pd x.base x.segments vm with
    | (false, vm) => { m with vm := vm.vmmFreePd pd }
    | (true, vm) =>
      let task := { m.tasks t with userBrk := x.top, userBrkBase := x.top, mmapNext := 0 }
      match loadInterp pd x vm with
      | (false, vm) => { m with vm := vm.vmmFreePd pd }.setTask t task
      | (true, vm) =>
        match loadStack pd x vm with
        | (false, vm) => { m with vm := vm.vmmFreePd pd }.setTask t task
        | (true, vm) =>
          { m with vm := freeDir task.pageDir vm }.setTask t { task with pageDir := some pd }

/-! ## Page faults and stores -/

/-- The page at an address is present: what the processor reports in the error
code. -/
def pagePresent (pd addr : ℕ) (vm : Vm) : Bool :=
  let e := vm.mem pd (pdIndex addr)
  e.present && (e.large || (vm.mem e.frame (ptIndex addr)).present)

/-- The reserved ranges of a task: the heap and the window. -/
def Reserved (x : Task) (addr : ℕ) : Prop :=
  x.userBrk ≠ 0
    ∧ ((x.userBrkBase ≠ 0 ∧ x.userBrkBase ≤ addr ∧ addr < x.userBrk)
      ∨ (x.mmapNext ≠ 0 ∧ userMmapBase ≤ addr ∧ addr < x.mmapNext))

instance (x : Task) (addr : ℕ) : Decidable (Reserved x addr) :=
  inferInstanceAs (Decidable (_ ∧ _))

/-- `try_handle_anon_fault`. -/
def tryHandleAnonFault (x : Task) (pd addr : ℕ) (vm : Vm) : Option Vm :=
  if pagePresent pd addr vm then none
  else if Reserved x addr then
    match vm.allocFrame with
    | (none, _) => none
    | (some phys, vm) =>
      some ((vm.setFrame phys zeroWords).vmmMapPage pd (pageBase addr) phys true)
  else none

/-- `try_handle_cow_fault`. -/
def tryHandleCowFault (pd addr : ℕ) (write : Bool) (vm : Vm) : Option Vm :=
  if write && pagePresent pd addr vm then
    match vm.tableOf pd addr with
    | none => none
    | some pt =>
      let e := vm.mem pt (ptIndex addr)
      if e.present && e.cow then
        if vm.refCount e.frame ≤ 1 then some (vm.setWord pt (ptIndex addr) (e.promote e.frame))
        else
          match vm.allocFrame with
          | (none, _) => none
          | (some new, vm) =>
            some (((vm.setFrame new (vm.mem e.frame)).freeFrame e.frame).setWord pt (ptIndex addr)
              (e.promote new))
      else none
  else none

/-- `page_fault_handler`, for a fault of task `t` in user mode. A fault nobody
handles ends the task. -/
def pageFault (t : ℕ) (addr : UInt32) (write : Bool) (m : Machine) : Machine :=
  match (m.tasks t).pageDir with
  | none => m
  | some pd =>
    match tryHandleAnonFault (m.tasks t) pd addr.toNat m.vm with
    | some vm => { m with vm := vm }
    | none =>
      match tryHandleCowFault pd addr.toNat write m.vm with
      | some vm => { m with vm := vm }
      | none => m.taskExit t

/-- A store by task `t` in user mode, to a page that is mapped for it. -/
def userStore (t : ℕ) (addr : UInt32) (word : Entry) (m : Machine) : Machine :=
  match (m.tasks t).pageDir with
  | none => m
  | some pd =>
    match m.vm.tableOf pd addr.toNat with
    | none => m
    | some pt =>
      let e := m.vm.mem pt (ptIndex addr.toNat)
      if e.present && e.user && e.writable then
        { m with vm := m.vm.setWord e.frame (addr.toNat % pmmFrameSize / 4) word }
      else m

end Machine

/-! ## Runs -/

/-- What can happen. The first argument is the slot of the task that calls. -/
inductive Event where
  /-- `SYS_BRK`. -/
  | brk (t : ℕ) (newBrk : UInt32)
  /-- `SYS_MMAP2`. -/
  | mmap2 (t : ℕ) (a : MmapArgs)
  /-- `SYS_MPROTECT`. -/
  | mprotect (t : ℕ) (addr len : UInt32) (write : Bool)
  /-- `SYS_MUNMAP`. -/
  | munmap (t : ℕ) (addr len : UInt32)
  /-- A page fault. -/
  | fault (t : ℕ) (addr : UInt32) (write : Bool)
  /-- A store. -/
  | store (t : ℕ) (addr : UInt32) (word : Entry)
  /-- `SYS_FORK`. -/
  | fork (t : ℕ) (fdsOk stackOk : Bool)
  /-- `SYS_EXECVE`, or the start of a new task. -/
  | exec (t : ℕ) (x : Image)
  /-- `SYS_EXIT`. -/
  | exit (t : ℕ)
  /-- A signal that ends the task. -/
  | kill (t : ℕ)
  /-- `SYS_WAIT4`. -/
  | wait4 (t c : ℕ)
  /-- `SYS_SIGRETURN` with a bad frame. -/
  | sigreturn (t : ℕ)
  /-- `task_create`. -/
  | create (t : ℕ) (fdsOk stackOk : Bool)
  /-- `surface_create`. -/
  | surfaceCreate (t : ℕ) (w h : ℤ)
  /-- `surface_map`. -/
  | surfaceMap (t k : ℕ)
  /-- `surface_unmap`. -/
  | surfaceUnmap (t k : ℕ)
  /-- `surface_destroy`. -/
  | surfaceDestroy (t k : ℕ)
  /-- A read through the page cache. -/
  | cacheRead (t : ℕ) (path : String) (pidx : ℕ) (fill : Option Words)
  /-- `pagecache_invalidate`. -/
  | cacheInvalidate (t : ℕ) (path : String)
  /-- `pagecache_drop_all`. -/
  | cacheDropAll (t : ℕ)

/-- The task that calls. -/
def Event.task : Event → ℕ
  | .brk t _ | .mmap2 t _ | .mprotect t _ _ _ | .munmap t _ _ | .fault t _ _ | .store t _ _
  | .fork t _ _ | .exec t _ | .exit t | .kill t | .wait4 t _ | .sigreturn t | .create t _ _
  | .surfaceCreate t _ _ | .surfaceMap t _ | .surfaceUnmap t _ | .surfaceDestroy t _
  | .cacheRead t _ _ _ | .cacheInvalidate t _ | .cacheDropAll t => t

namespace Machine

/-- What an event does. -/
def act (m : Machine) : Event → Machine
  | .brk t newBrk => m.setTask t ((m.tasks t).sysBrk newBrk).2
  | .mmap2 t a => (m.sysMmap2 t a).2
  | .mprotect t addr len write => m.sysMprotect t addr len write
  | .munmap t addr len => m.sysMunmap t addr len
  | .fault t addr write => m.pageFault t addr write
  | .store t addr word => m.userStore t addr word
  | .fork t fdsOk stackOk => m.taskFork t fdsOk stackOk
  | .exec t x => m.elfExec t x
  | .exit t => m.taskExit t
  | .kill t => m.taskTerminate t
  | .wait4 t c => m.sysWait4 t c
  | .sigreturn t => m.sigreturnKill t
  | .create t fdsOk stackOk => m.taskCreate t fdsOk stackOk
  | .surfaceCreate t w h => m.surfaceCreate t w h
  | .surfaceMap t k => (m.surfaceMap k t).2
  | .surfaceUnmap t k => m.surfaceUnmap k t
  | .surfaceDestroy t k => m.surfaceDestroy k t
  | .cacheRead _ path pidx fill => (m.pcGet path pidx fill).2
  | .cacheInvalidate _ path => m.pagecacheInvalidate path
  | .cacheDropAll _ => m.pagecacheDropAll

/-- A step of the kernel: an event of a live task, unless the kernel has
stopped. -/
def step (m : Machine) (e : Event) : Machine :=
  if m.panicked ∨ (m.tasks e.task).state ≠ .live then m else m.act e

/-- The state after a run. -/
def run (m : Machine) (es : List Event) : Machine := es.foldl step m

/-- The kernel at boot: the idle task, an empty page cache, no surfaces. -/
def boot (vm : Vm) : Machine where
  vm := vm
  cache := replicate pcNpages PcPage.empty
  surf := fun _ => Surface.empty
  tasks := Function.update (fun _ => Task.unused) 0 ⟨.live, none, 0, 0, 0, 1, 0⟩
  taskCount := 1
  nextPid := 2
  panicked := false

end Machine

end Makar
