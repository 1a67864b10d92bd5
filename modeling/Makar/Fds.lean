import Makar.FileBuffer
import Makar.FileCache
import Makar.PipeRing
import Makar.Machine

/-!
# Descriptor tables

The model of `proc/fd.c` and of the system calls on descriptors. Every task has a
table of sixteen slots. A slot is a value: `dup`, `dup2` and `fork` copy it as it
stands, and what it refers to (the buffer of a file, the ring of a pipe, a
socket) lies outside of it, in `Objs`.

Buffers, rings and sockets have numbers here that are never given out twice. The
code names them by addresses and indices that come back after a release; the
numbers stand for the object itself, so that a slot that refers to an object that
is gone can be told from one that refers to its successor. `released` and `freed`
record every release.

A slot of kind `FILE` keeps the path it was opened with, and `origin` keeps what
that path named then, which the code does not. `uses` records, each time the path
is used again, what it was opened for and what it names now.
-/

namespace Makar

open Function

/-- `TASK_MAX_FDS`. -/
def taskMaxFds : ℕ := 16

/-- The state of a slot of kind `FILE`. -/
structure FileFd where
  /-- The buffer, none for a file that is read from the disk. -/
  data : Option ℕ
  /-- The end of the file. -/
  size : ℕ
  /-- The size of the buffer. -/
  capacity : ℕ
  /-- The cursor. -/
  pos : ℕ
  /-- The buffer has to be written back. -/
  dirty : Bool
  /-- Opened for writing. -/
  writable : Bool
  /-- Opened for appending. -/
  append : Bool
  /-- Read from the disk through the page cache. -/
  lazy : Bool
  /-- The path, as it was given to `SYS_OPEN`. -/
  path : CStr
  /-- The absolute path it named then. No call reads this field. -/
  origin : CStr
  deriving DecidableEq

/-- `fd_entry_t`. The keyboard, the screen, the serial line and block devices have nothing that
is shared or released. -/
inductive FdEntry where
  /-- `FD_KIND_NONE`. -/
  | none
  /-- A device. -/
  | plain
  /-- `FD_KIND_FILE`. -/
  | file (f : FileFd)
  /-- `FD_KIND_PIPE`: an end of a ring. -/
  | pipe (ring : ℕ) (writer : Bool)
  /-- `FD_KIND_SOCKET`. -/
  | socket (sock : ℕ)
  deriving DecidableEq

/-- `fd_table_t`. -/
abbrev FdTable := Fin taskMaxFds → FdEntry

/-- `fd_table_create_default`. -/
def FdTable.default : FdTable := fun i => if i.val < 3 then .plain else .none

/-- `fd_alloc`: the lowest free slot. -/
def FdTable.fdAlloc (tbl : FdTable) : Option (Fin taskMaxFds) :=
  (List.finRange taskMaxFds).find? (fun i => tbl i = .none)

/-- The slot of a number, if there is one. -/
def fdIndex (fd : ℤ) : Option (Fin taskMaxFds) :=
  if h : 0 ≤ fd ∧ fd.toNat < taskMaxFds then some ⟨fd.toNat, h.2⟩ else none

/-- `fd_get`: the slot of a number, if it is open. -/
def FdTable.fdGet (fd : ℤ) (tbl : FdTable) : Option (Fin taskMaxFds) :=
  (fdIndex fd).filter (fun i => tbl i ≠ .none)

/-- Something that a slot has to release. -/
inductive FdRes where
  /-- The buffer of a file. -/
  | buf (b : ℕ)
  /-- A kernel socket. -/
  | sock (n : ℕ)
  deriving DecidableEq

/-- A use of the path of a descriptor. -/
structure PathUse where
  /-- What the path named when the descriptor was opened. -/
  origin : CStr
  /-- What the use has gone to. -/
  reached : CStr
  deriving DecidableEq

/-- What descriptors refer to. -/
structure Objs where
  /-- The files and the page cache. -/
  fs : FileSys
  /-- The memory from the start of each buffer on. -/
  heap : ℕ → ℕ → Byte
  /-- The rings. -/
  rings : ℕ → PipeRing
  /-- The number of the next buffer. -/
  nextBuf : ℕ
  /-- The number of the next socket. -/
  nextSock : ℕ
  /-- The number of the next ring. -/
  nextRing : ℕ
  /-- The buffers and sockets that were released, each time they were. -/
  released : List FdRes
  /-- The rings that were freed. -/
  freed : List ℕ
  /-- The uses of the paths of descriptors. -/
  uses : List PathUse

/-- The slot after a call on the file. -/
def FileFd.after (g : OpenFile) (data : Option ℕ) (f : FileFd) : FileFd :=
  { f with data := data, size := g.size, capacity := g.capacity, pos := g.pos, dirty := g.dirty }

namespace Objs

/-- The file behind a slot, as the calls on buffered files see it. -/
def openFile (f : FileFd) (o : Objs) : OpenFile where
  data := (f.data.map o.heap).getD fun _ => 0
  size := f.size
  capacity := f.capacity
  pos := f.pos
  writable := f.writable
  append := f.append
  dirty := f.dirty

/-! ## What is done to the objects -/

/-- `kmalloc` of a buffer, with what it holds afterwards. -/
def newBuf (bytes : ℕ → Byte) (o : Objs) : Objs :=
  { o with nextBuf := o.nextBuf + 1, heap := update o.heap o.nextBuf bytes }

/-- `kfree` of a buffer. -/
def kfree (b : ℕ) (o : Objs) : Objs := { o with released := o.released ++ [.buf b] }

/-- `ksock_open`. -/
def ksockOpen (o : Objs) : Objs := { o with nextSock := o.nextSock + 1 }

/-- `ksock_close`. -/
def ksockClose (n : ℕ) (o : Objs) : Objs := { o with released := o.released ++ [.sock n] }

/-- A new ring, with one end of each kind. -/
def newRing (o : Objs) : Objs :=
  { o with
    nextRing := o.nextRing + 1
    rings := update o.rings o.nextRing ⟨(o.rings o.nextRing).buf, 0, 0, 1, 1⟩ }

/-- Another slot refers to an end of a ring. -/
def bump (r : ℕ) (writer : Bool) (o : Objs) : Objs :=
  { o with
    rings := update o.rings r
      (if writer then { o.rings r with refcountW := (o.rings r).refcountW + 1 }
        else { o.rings r with refcountR := (o.rings r).refcountR + 1 }) }

/-- The ring with an end less. -/
def lessEnd (writer : Bool) (ring : PipeRing) : PipeRing :=
  if writer then
    if 0 < ring.refcountW then { ring with refcountW := ring.refcountW - 1 } else ring
  else if 0 < ring.refcountR then { ring with refcountR := ring.refcountR - 1 }
  else ring

/-- `pipe_release`. -/
def pipeRelease (r : ℕ) (writer : Bool) (o : Objs) : Objs :=
  let ring := lessEnd writer (o.rings r)
  { o with
    rings := update o.rings r ring
    freed := if ring.refcountR = 0 ∧ ring.refcountW = 0 then o.freed ++ [r] else o.freed }

/-- The bytes of a buffered file. -/
def contents (f : FileFd) (b : ℕ) (o : Objs) : Bytes :=
  (List.range f.size).map fun i => UInt8.ofBitVec (o.heap b i)

/-- `fd_flush_one`, by a task with the working directory `cwd`; `disk` is what the driver leaves
in a file it is asked to write. -/
def fdFlushOne (cwd : CStr) (disk : Bytes → Option Bytes) (f : FileFd) (o : Objs) : Objs :=
  match f.data with
  | none => o
  | some b =>
    if f.dirty = false ∨ f.path = [] then o
    else
      { o with
        fs := o.fs.vfsWriteFile cwd f.path (disk (o.contents f b))
        uses := o.uses ++ [⟨f.origin, pathResolve cwd f.path⟩] }

/-- What `fd_close` and `fd_table_destroy` do with a slot. -/
def closeEntry (cwd : CStr) (disk : Bytes → Option Bytes) (e : FdEntry) (o : Objs) : Objs :=
  match e with
  | .file f =>
    match f.data with
    | none => o.fdFlushOne cwd disk f
    | some b => (o.fdFlushOne cwd disk f).kfree b
  | .pipe r w => o.pipeRelease r w
  | .socket n => o.ksockClose n
  | _ => o

/-- `fd_table_destroy`. -/
def fdTableDestroy (cwd : CStr) (disk : Bytes → Option Bytes) (tbl : FdTable) (o : Objs) : Objs :=
  (List.finRange taskMaxFds).foldl (fun o i => o.closeEntry cwd disk (tbl i)) o

end Objs

/-! ## `fd_table_clone` -/

/-- The local state of `fd_table_clone`. -/
structure CloneState where
  /-- The table of the child. -/
  tbl : FdTable
  /-- The objects. -/
  objs : Objs

namespace CloneState

/-- The buffers that the child has got before slot `i` are given back. -/
def unwind (i : Fin taskMaxFds) (c : CloneState) : Objs :=
  ((List.finRange taskMaxFds).filter (· < i)).foldl
    (fun o j =>
      match c.tbl j with
      | .file f =>
        match f.data with
        | none => o
        | some b => o.kfree b
      | _ => o) c.objs

/-- A turn of the loop of `fd_table_clone`; `mem` is for which slots the heap has memory. -/
def cloneSlot (mem : Fin taskMaxFds → Bool) (c : CloneState) (i : Fin taskMaxFds) :
    Bool × CloneState :=
  match c.tbl i with
  | .file f =>
    match f.data with
    | none =>
      (true, { c with
        tbl := update c.tbl i (.file { f with capacity := 0, dirty := false }) })
    | some b =>
      if f.capacity = 0 then
        (true, { c with
          tbl := update c.tbl i
            (.file { f with data := none, capacity := 0, dirty := false }) })
      else if mem i then
        (true,
          { tbl := update c.tbl i
              (.file { f with data := some c.objs.nextBuf, dirty := false })
            objs := c.objs.newBuf fun j => if j < f.size then c.objs.heap b j else 0 })
      else (false, { c with objs := c.unwind i })
  | .pipe r w => (true, { c with objs := c.objs.bump r w })
  | .socket _ => (true, { c with tbl := update c.tbl i .none })
  | _ => (true, c)

end CloneState

/-- `fd_table_clone`; `room` is whether the heap has memory for the table. -/
def Objs.fdTableClone (room : Bool) (mem : Fin taskMaxFds → Bool) (src : FdTable) (o : Objs) :
    Option FdTable × Objs :=
  if room then
    match loop (CloneState.cloneSlot mem) (List.finRange taskMaxFds) ⟨src, o⟩ with
    | (true, c) => (some c.tbl, c.objs)
    | (false, c) => (none, c.objs)
  else (none, o)

/-! ## `SYS_OPEN` -/

/-- The flags of `SYS_OPEN`. -/
structure OpenFlags where
  /-- `O_WRONLY` or `O_RDWR`. -/
  writable : Bool
  /-- `O_CREAT`. -/
  creat : Bool
  /-- `O_TRUNC`. -/
  trunc : Bool
  /-- `O_APPEND`. -/
  append : Bool

/-- What the file systems and the heap answer to `SYS_OPEN`. -/
structure OpenEnv where
  /-- The path is a block device. -/
  device : Bool
  /-- The file exists. -/
  found : Bool
  /-- `vfs_stat`: the size, and whether it is a regular file. -/
  stat : Option (ℕ × Bool)
  /-- `vfs_path_is_disk`. -/
  onDisk : Bool
  /-- The heap has memory for the buffer. -/
  mem : Bool
  /-- `vfs_read_file`: the size that was read, and the bytes. -/
  loaded : Option (ℕ × (ℕ → Byte))

/-- The size of the buffer for a file that is loaded. -/
def OpenEnv.cap (writable : Bool) (env : OpenEnv) : ℕ :=
  match env.stat with
  | none => syscallFileMax
  | some (size, _) =>
    let cap := if writable ∧ size < syscallFileInitial then syscallFileInitial else size
    let cap := if cap = 0 then syscallFileInitial else cap
    min cap syscallFileMax

/-- The slot that `SYS_OPEN` makes, none when it fails, and the objects after it. -/
def Objs.openEntry (cwd path : CStr) (flags : OpenFlags) (env : OpenEnv) (o : Objs) :
    Option FdEntry × Objs :=
  let slot (data : Option ℕ) (size capacity : ℕ) (dirty lazy : Bool) : FdEntry := .file
    { data := data, size := size, capacity := capacity, dirty := dirty, lazy := lazy
      pos := if flags.append then size else 0
      writable := flags.writable, append := flags.append
      path := path, origin := pathResolve cwd path }
  let isEmpty := !env.found || flags.writable && flags.trunc
  if env.device then (some .plain, o)
  else if !env.found && !flags.creat then (none, o)
  else if isEmpty then
    if env.mem then
      (some (slot (some o.nextBuf) 0 syscallFileInitial true false), o.newBuf fun _ => 0)
    else (none, o)
  else
    match env.stat, !flags.writable && env.onDisk with
    | some (size, true), true => (some (slot none size 0 false true), o)
    | _, _ =>
      if env.mem then
        match env.loaded with
        | none => (none, (o.newBuf fun _ => 0).kfree o.nextBuf)
        | some (size, bytes) =>
          (some (slot (some o.nextBuf) size (env.cap flags.writable) false false), o.newBuf bytes)
      else (none, o)

/-! ## Tasks -/

/-- What a slot of the task pool has to do with descriptors. -/
structure FdTask where
  /-- The task has not ended. -/
  alive : Bool
  /-- The working directory. -/
  cwd : CStr
  /-- The table. It stays with a task that has ended until the slot is used again. -/
  table : Option FdTable

/-- The descriptor tables of all tasks, and what they refer to. -/
structure Fds where
  /-- The task pool. -/
  tasks : ℕ → FdTask
  /-- The objects. -/
  objs : Objs

/-- What `task_fork` finds: memory for the table, for the buffers of the slots and for the page
directory, the slot of the pool it gets, and what the driver leaves when the table of the task that
had the slot is flushed. -/
structure ForkEnv where
  /-- Memory for the table. -/
  room : Bool
  /-- Memory for the buffers. -/
  mem : Fin taskMaxFds → Bool
  /-- The page directory could be cloned. -/
  pd : Bool
  /-- The slot, none when there is none. -/
  slot : Option ℕ
  /-- What the driver leaves in files that are flushed. -/
  disk : Bytes → Option Bytes

/-- A system call on descriptors, by the task `t`. -/
inductive FdEvent where
  /-- `SYS_OPEN`. -/
  | open (t : ℕ) (path : CStr) (flags : OpenFlags) (env : OpenEnv)
  /-- `SYS_CLOSE`. -/
  | close (t : ℕ) (fd : ℤ) (disk : Bytes → Option Bytes)
  /-- `SYS_READ`. -/
  | read (t : ℕ) (fd : ℤ) (len : ℕ)
  /-- `syscall_file_pread`, for a mapping of its own. -/
  | pread (t : ℕ) (fd : ℤ) (off len : ℕ)
  /-- `pagecache_acquire`, for a shared mapping. -/
  | acquire (t : ℕ) (fd : ℤ) (pidx : ℕ)
  /-- `SYS_WRITE`, or a piece of `SYS_WRITEV`; `moves` is whether `krealloc` moves the buffer. -/
  | write (t : ℕ) (fd : ℤ) (seg : FileSeg) (moves : Bool)
  /-- `SYS_LSEEK`. -/
  | lseek (t : ℕ) (fd : ℤ) (offset : Word) (whence : ℤ)
  /-- `SYS_PIPE`; `mem` is whether there is memory for the ring. -/
  | pipe (t : ℕ) (mem : Bool)
  /-- `SYS_DUP`. -/
  | dup (t : ℕ) (oldfd : ℤ)
  /-- `SYS_DUP2`. -/
  | dup2 (t : ℕ) (oldfd newfd : ℤ) (disk : Bytes → Option Bytes)
  /-- `SYS_SOCKET`; `free` is whether there is a free socket. -/
  | socket (t : ℕ) (free : Bool)
  /-- `SYS_CHDIR`; `found` is whether the directory is there. -/
  | chdir (t : ℕ) (path : CStr) (found : Bool)
  /-- `SYS_FORK`. -/
  | fork (t : ℕ) (env : ForkEnv)
  /-- `task_create`. -/
  | create (t : ℕ) (env : ForkEnv)
  /-- The task ends. -/
  | exit (t : ℕ)
  /-- Files are changed by other means. -/
  | change (call : FsCall)

namespace Fds

/-- The task may make a call. -/
def Acts (t : ℕ) (s : Fds) : Prop := t < maxTasks ∧ (s.tasks t).alive = true

instance (t : ℕ) (s : Fds) : Decidable (s.Acts t) := inferInstanceAs (Decidable (_ ∧ _))

/-- A slot of the table of a task is written. -/
def setEntry (t : ℕ) (i : Fin taskMaxFds) (e : FdEntry) (s : Fds) : Fds :=
  { s with
    tasks := update s.tasks t
      { s.tasks t with table := (s.tasks t).table.map fun tbl => update tbl i e } }

/-- `SYS_OPEN`. -/
def sysOpen (t : ℕ) (tbl : FdTable) (path : CStr) (flags : OpenFlags) (env : OpenEnv) (s : Fds) :
    Fds :=
  if vfsPathMax ≤ path.length then s
  else
    match tbl.fdAlloc with
    | none => s
    | some i =>
      match s.objs.openEntry (s.tasks t).cwd path flags env with
      | (none, o) => { s with objs := o }
      | (some e, o) => ({ s with objs := o }).setEntry t i e

/-- `fd_close`. -/
def fdClose (t : ℕ) (tbl : FdTable) (fd : ℤ) (disk : Bytes → Option Bytes) (s : Fds) : Fds :=
  match tbl.fdGet fd with
  | none => s
  | some i =>
    ({ s with objs := s.objs.closeEntry (s.tasks t).cwd disk (tbl i) }).setEntry t i .none

/-- A read of a file on the disk: the uses of the path are recorded. -/
def readDisk (t : ℕ) (f : FileFd) (off len : ℕ) (s : Fds) : ℕ × Fds :=
  let r := s.objs.fs.readLoop (s.tasks t).cwd f.path off (min len (f.size - off))
  (r.out.length,
    { s with
      objs := { s.objs with
        fs := r.fs
        uses := s.objs.uses ++ r.sources.map fun reached => ⟨f.origin, reached⟩ } })

/-- `SYS_READ`. A pipe or a socket has no part in this model. -/
def sysRead (t : ℕ) (tbl : FdTable) (fd : ℤ) (len : ℕ) (s : Fds) : Fds :=
  match tbl.fdGet fd with
  | none => s
  | some i =>
    match tbl i with
    | .file f =>
      if f.lazy then
        let r := s.readDisk t f f.pos len
        r.2.setEntry t i (.file { f with pos := f.pos + r.1 })
      else
        s.setEntry t i (.file (f.after ((s.objs.openFile f).sysRead false len).2 f.data))
    | _ => s

/-- `syscall_file_pread`. -/
def syscallFilePread (t : ℕ) (tbl : FdTable) (fd : ℤ) (off len : ℕ) (s : Fds) : Fds :=
  match tbl.fdGet fd with
  | none => s
  | some i =>
    match tbl i with
    | .file f => if f.lazy then (s.readDisk t f off len).2 else s
    | _ => s

/-- A page of a shared mapping: `pagecache_acquire`, which looks the page up. -/
def pagecacheAcquire (t : ℕ) (tbl : FdTable) (fd : ℤ) (pidx : ℕ) (s : Fds) : Fds :=
  match tbl.fdGet fd with
  | none => s
  | some i =>
    match tbl i with
    | .file f =>
      if f.lazy ∧ pidx * pcPgsz < f.size then
        let r := s.objs.fs.pcGet (s.tasks t).cwd f.path pidx
        let reached := (r.1.map PageSlot.file).getD (pathResolve (s.tasks t).cwd f.path)
        { s with
          objs := { s.objs with fs := r.2, uses := s.objs.uses ++ [⟨f.origin, reached⟩] } }
      else s
    | _ => s

/-- The file branch of `syscall_fd_write`. When the buffer has grown, `krealloc` has moved it to a
new block, or has found room behind it. -/
def syscallFdWrite (t : ℕ) (tbl : FdTable) (fd : ℤ) (seg : FileSeg) (moves : Bool) (s : Fds) :
    Fds :=
  match tbl.fdGet fd with
  | none => s
  | some i =>
    match tbl i with
    | .file f =>
      let g := ((s.objs.openFile f).syscallFdWrite seg).2
      match f.data with
      | none =>
        if g.capacity = f.capacity then s.setEntry t i (.file (f.after g none))
        else
          ({ s with objs := s.objs.newBuf g.data }).setEntry t i
            (.file (f.after g (some s.objs.nextBuf)))
      | some b =>
        if g.capacity ≠ f.capacity ∧ moves then
          ({ s with objs := (s.objs.newBuf g.data).kfree b }).setEntry t i
            (.file (f.after g (some s.objs.nextBuf)))
        else
          ({ s with
            objs := { s.objs with heap := update s.objs.heap b g.data } }).setEntry t i
              (.file (f.after g (some b)))
    | _ => s

/-- `SYS_LSEEK`. -/
def sysLseek (t : ℕ) (tbl : FdTable) (fd : ℤ) (offset : Word) (whence : ℤ) (s : Fds) : Fds :=
  match tbl.fdGet fd with
  | none => s
  | some i =>
    match tbl i with
    | .file f =>
      s.setEntry t i (.file (f.after ((s.objs.openFile f).sysLseek offset whence).2 f.data))
    | _ => s

/-- `SYS_PIPE`. The slot of the read end is taken before the other is looked for. -/
def sysPipe (t : ℕ) (tbl : FdTable) (mem : Bool) (s : Fds) : Fds :=
  match tbl.fdAlloc with
  | none => s
  | some i =>
    match FdTable.fdAlloc (update tbl i (.pipe s.objs.nextRing false)) with
    | none => s
    | some j =>
      if mem then
        (({ s with objs := s.objs.newRing }).setEntry t i (.pipe s.objs.nextRing false)).setEntry t j
          (.pipe s.objs.nextRing true)
      else s

/-- A slot is copied over another. -/
def copyEntry (t : ℕ) (i : Fin taskMaxFds) (e : FdEntry) (s : Fds) : Fds :=
  match e with
  | .pipe r w => ({ s with objs := s.objs.bump r w }).setEntry t i e
  | _ => s.setEntry t i e

/-- `SYS_DUP`. -/
def sysDup (t : ℕ) (tbl : FdTable) (oldfd : ℤ) (s : Fds) : Fds :=
  match tbl.fdGet oldfd, tbl.fdAlloc with
  | some i, some j => s.copyEntry t j (tbl i)
  | _, _ => s

/-- `SYS_DUP2`. -/
def sysDup2 (t : ℕ) (tbl : FdTable) (oldfd newfd : ℤ) (disk : Bytes → Option Bytes) (s : Fds) :
    Fds :=
  match tbl.fdGet oldfd, fdIndex newfd with
  | some i, some j =>
    if i = j then s
    else (s.fdClose t tbl newfd disk).copyEntry t j (tbl i)
  | _, _ => s

/-- `SYS_SOCKET`. -/
def sysSocket (t : ℕ) (tbl : FdTable) (free : Bool) (s : Fds) : Fds :=
  if free then
    match tbl.fdAlloc with
    | none => { s with objs := s.objs.ksockOpen.ksockClose s.objs.nextSock }
    | some i => ({ s with objs := s.objs.ksockOpen }).setEntry t i (.socket s.objs.nextSock)
  else s

/-- `SYS_CHDIR`, by way of `vfs_cd`. -/
def sysChdir (t : ℕ) (path : CStr) (found : Bool) (s : Fds) : Fds :=
  if found then
    { s with
      tasks := update s.tasks t
        { s.tasks t with cwd := pathResolve (s.tasks t).cwd path } }
  else s

/-- The slot of the pool that a new task gets, if the one the event names is free. -/
def newSlot (env : ForkEnv) (s : Fds) : Option ℕ :=
  env.slot.filter fun c => 0 < c ∧ c < maxTasks ∧ (s.tasks c).alive = false

/-- A new task in a slot of the pool: the table of the task that had it is destroyed, by the task
`t` that makes the new one. -/
def install (t c : ℕ) (disk : Bytes → Option Bytes) (tbl : FdTable) (s : Fds) : Fds :=
  let o := match (s.tasks c).table with
    | none => s.objs
    | some old => s.objs.fdTableDestroy (s.tasks t).cwd disk old
  { tasks := update s.tasks c ⟨true, (s.tasks t).cwd, some tbl⟩, objs := o }

/-- `task_fork`. -/
def taskFork (t : ℕ) (tbl : FdTable) (env : ForkEnv) (s : Fds) : Fds :=
  match s.objs.fdTableClone env.room env.mem tbl with
  | (none, o) => { s with objs := o }
  | (some child, o) =>
    let s : Fds := { s with objs := o }
    match if env.pd then s.newSlot env else none with
    | none => { s with objs := s.objs.fdTableDestroy (s.tasks t).cwd env.disk child }
    | some c => s.install t c env.disk child

/-- `task_create`. A default table has nothing to release. -/
def taskCreate (t : ℕ) (env : ForkEnv) (s : Fds) : Fds :=
  if env.room then
    match s.newSlot env with
    | none => s
    | some c => s.install t c env.disk FdTable.default
  else s

/-- The task ends. Its table stays. -/
def taskExit (t : ℕ) (s : Fds) : Fds :=
  { s with tasks := update s.tasks t { s.tasks t with alive := false } }

/-- Files are changed: by other writes, deletions and renamings. -/
def changeFiles (call : FsCall) (s : Fds) : Fds :=
  match call with
  | .read .. => s
  | call => { s with objs := { s.objs with fs := s.objs.fs.step call } }

/-- A call of a task that has a table. -/
def onTable (t : ℕ) (f : FdTable → Fds) (s : Fds) : Fds :=
  if s.Acts t then
    match (s.tasks t).table with
    | none => s
    | some tbl => f tbl
  else s

/-- One event. -/
def step (s : Fds) : FdEvent → Fds
  | .open t path flags env => s.onTable t fun tbl => s.sysOpen t tbl path flags env
  | .close t fd disk => s.onTable t fun tbl => s.fdClose t tbl fd disk
  | .read t fd len => s.onTable t fun tbl => s.sysRead t tbl fd len
  | .pread t fd off len => s.onTable t fun tbl => s.syscallFilePread t tbl fd off len
  | .acquire t fd pidx => s.onTable t fun tbl => s.pagecacheAcquire t tbl fd pidx
  | .write t fd seg moves => s.onTable t fun tbl => s.syscallFdWrite t tbl fd seg moves
  | .lseek t fd offset whence => s.onTable t fun tbl => s.sysLseek t tbl fd offset whence
  | .pipe t mem => s.onTable t fun tbl => s.sysPipe t tbl mem
  | .dup t oldfd => s.onTable t fun tbl => s.sysDup t tbl oldfd
  | .dup2 t oldfd newfd disk => s.onTable t fun tbl => s.sysDup2 t tbl oldfd newfd disk
  | .socket t free => s.onTable t fun tbl => s.sysSocket t tbl free
  | .chdir t path found => s.onTable t fun _ => s.sysChdir t path found
  | .fork t env => s.onTable t fun tbl => s.taskFork t tbl env
  | .create t env => s.onTable t fun _ => s.taskCreate t env
  | .exit t => s.onTable t fun _ => s.taskExit t
  | .change call => s.changeFiles call

/-- The state after a run. -/
def run (s : Fds) (es : List FdEvent) : Fds := es.foldl step s

/-- The idle task with a default table, and nothing opened yet. -/
def boot (fs : FileSys) (cwd : CStr) : Fds where
  tasks := fun t => if t = 0 then ⟨true, cwd, some FdTable.default⟩ else ⟨false, [], none⟩
  objs :=
    { fs := fs
      heap := fun _ _ => 0
      rings := fun _ => ⟨fun _ => 0, 0, 0, 0, 0⟩
      nextBuf := 0, nextSock := 0, nextRing := 0
      released := [], freed := [], uses := [] }

end Fds

end Makar
