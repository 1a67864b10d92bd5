import Makar.Runs
import Makar.Vfs

/-!
# What the page cache holds

The contents of the page cache (`mm/pagecache.c`) beside the files they were read
from. A slot is found by the string the page was asked for with; the file that
string names depends on the working directory, on the mounts and on how the
driver looks names up. `vfs_write_file`, `vfs_delete_file` and `vfs_rename`
(`fs/vfs.c`) drop the pages that are cached under the absolute path the call
resolves its argument to, and under no other spelling of the file.

`FileSys.Ok` is the condition under which that is enough: pages cached under one
string are pages of one file, and a call that changes files finds no page of them
under another string than the one it drops. `reads_current` shows that
`pagecache_read` then returns what the driver would, page boundaries and ends of
files included.
-/

namespace Makar

open List Option

/-- `PC_PGSZ`. -/
def pcPgsz : ℕ := 4096

/-- A slot of the page cache, with the bytes of its frame up to `len`. -/
structure PageSlot where
  /-- The slot holds a page. -/
  valid : Bool
  /-- `path`: what the page was asked for with. -/
  path : CStr
  /-- `pidx`: the page of the file. -/
  pidx : ℕ
  /-- The bytes of the page. -/
  data : Bytes
  /-- The absolute path the page was read from. The code does not keep it: no
  call reads this field. -/
  file : CStr
  deriving DecidableEq, Repr

/-- An empty slot. -/
def PageSlot.empty : PageSlot := ⟨false, [], 0, [], []⟩

/-- The files and the page cache, most recently used slot first. -/
structure FileSys where
  /-- The mount table. -/
  mounts : List VfsMount
  /-- The drivers. -/
  driver : Driver
  /-- The files. -/
  files : Files
  /-- The slots of the cache. -/
  cache : List PageSlot

namespace FileSys

/-! ## The calls of `fs/vfs.c` -/

/-- The contents of the file of an absolute path, if it is on a disk. -/
def fileAt (s : FileSys) (abs : CStr) : Option Bytes :=
  match vfsRoute s.mounts abs with
  | none => none
  | some (m, drv) => if fsBackendDisk m.backend then s.files m drv else none

/-- Part of the contents of a file. -/
def slice (off len : ℕ) (data : Bytes) : Bytes := (data.drop off).take len

/-- `vfs_read_at`, none for an error. -/
def vfsReadAt (cwd path : CStr) (off len : ℕ) (s : FileSys) : Option Bytes :=
  (s.fileAt (pathResolve cwd path)).map (slice off len)

/-- The test of the loop of `pagecache_invalidate`. -/
def isPageOf (path : CStr) (p : PageSlot) : Bool := p.valid && p.path == path

/-- `pagecache_invalidate`. -/
def pagecacheInvalidate (path : CStr) (s : FileSys) : FileSys :=
  { s with
    cache := s.cache.filter (fun p => !isPageOf path p)
      ++ (s.cache.filter (isPageOf path)).map (fun _ => PageSlot.empty) }

/-- Backends that `backend_write_file` and `backend_delete_file` pass on to a
driver. -/
def writable : VfsBackend → Bool
  | .ext2 | .fat32 | .tmpfs => true
  | _ => false

/-- `vfs_write_file` and `vfs_delete_file`, which differ in what the driver leaves
in the file. -/
def vfsChangeFile (cwd path : CStr) (left : Option Bytes) (s : FileSys) : FileSys :=
  let abs := pathResolve cwd path
  match vfsRoute s.mounts abs with
  | none => s
  | some (m, drv) =>
    if m.backend = .none then s
    else
      let s := s.pagecacheInvalidate abs
      if writable m.backend then { s with files := s.driver.change m drv left s.files } else s

/-- `vfs_write_file`. -/
def vfsWriteFile (cwd path : CStr) (left : Option Bytes) (s : FileSys) : FileSys :=
  s.vfsChangeFile cwd path left

/-- `vfs_delete_file`. -/
def vfsDeleteFile (cwd path : CStr) (left : Option Bytes) (s : FileSys) : FileSys :=
  s.vfsChangeFile cwd path left

/-- `vfs_rename`; `done` is whether the driver has moved the entry. -/
def vfsRename (cwd oldPath newPath : CStr) (done : Bool) (s : FileSys) : FileSys :=
  let oldAbs := pathResolve cwd oldPath
  let newAbs := pathResolve cwd newPath
  match vfsRoute s.mounts oldAbs, vfsRoute s.mounts newAbs with
  | some (m, oldDrv), some (n, newDrv) =>
    if m.backend ≠ n.backend then s
    else
      let s := (s.pagecacheInvalidate oldAbs).pagecacheInvalidate newAbs
      if m.backend = .ext2 ∨ m.backend = .fat32 then
        { s with files := s.driver.move m.backend oldDrv newDrv done s.files }
      else s
  | _, _ => s

/-! ## `pc_get` and `pagecache_read` -/

/-- The test of the lookup loop of `pc_get`. -/
def pcMatch (path : CStr) (pidx : ℕ) (p : PageSlot) : Bool :=
  p.valid && p.pidx == pidx && p.path == path

/-- `pc_get`: the slot of a page, none on error. On a miss the least recently
used slot is filled with what `vfs_read_at` returns. -/
def pcGet (cwd path : CStr) (pidx : ℕ) (s : FileSys) : Option PageSlot × FileSys :=
  match s.cache.find? (pcMatch path pidx) with
  | some p => (some p, { s with cache := p :: s.cache.eraseP (pcMatch path pidx) })
  | none =>
    match s.cache.getLast? with
    | none => (none, s)
    | some p =>
      match s.vfsReadAt cwd path (pidx * pcPgsz) pcPgsz with
      | none => (none, { s with cache := s.cache.dropLast ++ [{ p with valid := false }] })
      | some data =>
        let p : PageSlot := ⟨true, path, pidx, data, pathResolve cwd path⟩
        (some p, { s with cache := p :: s.cache.dropLast })

/-- The local state of `pagecache_read`. -/
structure ReadLoop where
  /-- What is in the buffer, `done` bytes. -/
  out : Bytes
  /-- `pc_get` failed. -/
  failed : Bool
  /-- The files and the cache. -/
  fs : FileSys
  /-- The absolute paths the lookups have gone to, of which the code knows
  nothing. -/
  sources : List CStr

/-- A turn of the loop of `pagecache_read`. -/
def readTurn (cwd path : CStr) (off toRead : ℕ) (r : ReadLoop) (_ : ℕ) : Bool × ReadLoop :=
  if toRead ≤ r.out.length then (false, r)
  else
    let pidx := (off + r.out.length) / pcPgsz
    let poff := (off + r.out.length) % pcPgsz
    match r.fs.pcGet cwd path pidx with
    | (none, fs) =>
      (false, { r with failed := true, fs := fs, sources := pathResolve cwd path :: r.sources })
    | (some p, fs) =>
      let r := { r with fs := fs, sources := p.file :: r.sources }
      if p.data.length ≤ poff then (false, r)
      else
        let chunk := min (p.data.length - poff) (toRead - r.out.length)
        (decide (pcPgsz ≤ p.data.length), { r with out := r.out ++ (p.data.drop poff).take chunk })

/-- The loop of `pagecache_read`. A turn that goes on reads a byte at least, so
there are no more turns than bytes. -/
def readLoop (cwd path : CStr) (off toRead : ℕ) (s : FileSys) : ReadLoop :=
  (loop (readTurn cwd path off toRead) (List.range toRead) ⟨[], false, s, []⟩).2

/-- `pagecache_read`: the bytes read, none for an error. -/
def pagecacheRead (cwd path : CStr) (size off len : ℕ) (s : FileSys) : Option Bytes × FileSys :=
  let r := s.readLoop cwd path off (min len (size - off))
  (if r.failed ∧ r.out = [] then none else some r.out, r.fs)

end FileSys

/-! ## Runs -/

/-- A call on files, made by a task with the working directory `cwd`. -/
inductive FsCall where
  /-- `pagecache_read`. -/
  | read (cwd path : CStr) (size off len : ℕ)
  /-- `vfs_write_file`, with what the driver leaves in the file. -/
  | write (cwd path : CStr) (left : Option Bytes)
  /-- `vfs_delete_file`, with what the driver leaves in the file. -/
  | delete (cwd path : CStr) (left : Option Bytes)
  /-- `vfs_rename`, with whether the driver has done it. -/
  | rename (cwd oldPath newPath : CStr) (done : Bool)

namespace FileSys

/-- What a call does. -/
def step (s : FileSys) : FsCall → FileSys
  | .read cwd path size off len => (s.pagecacheRead cwd path size off len).2
  | .write cwd path left => s.vfsWriteFile cwd path left
  | .delete cwd path left => s.vfsDeleteFile cwd path left
  | .rename cwd oldPath newPath done => s.vfsRename cwd oldPath newPath done

/-- The files with an empty cache. -/
def boot (mounts : List VfsMount) (driver : Driver) (files : Files) : FileSys :=
  ⟨mounts, driver, files, List.replicate 256 PageSlot.empty⟩

/-- Every page that is cached under the string is a page of that file. -/
def OneFile (s : FileSys) (path abs : CStr) : Prop :=
  ∀ p ∈ s.cache, p.valid = true → p.path = path → p.file = abs

/-- No page is cached under another string than those dropped of a file that is
not in `t` as it is here. -/
def OneSpelling (s t : FileSys) (dropped : List CStr) : Prop :=
  ∀ p ∈ s.cache, p.valid = true → p.path ∉ dropped → t.fileAt p.file = s.fileAt p.file

instance (s : FileSys) (path abs : CStr) : Decidable (s.OneFile path abs) :=
  inferInstanceAs (Decidable (∀ _ ∈ _, _ → _ → _))

instance (s t : FileSys) (dropped : List CStr) : Decidable (s.OneSpelling t dropped) :=
  inferInstanceAs (Decidable (∀ _ ∈ _, _ → _ → _))

/-- **The condition on a call.** A read finds pages of no other file under its
string, and a call that changes files finds no page of them under another string
than the absolute paths it drops. -/
def Ok (s : FileSys) : FsCall → Prop
  | .read cwd path _ _ _ => s.OneFile path (pathResolve cwd path)
  | .write cwd path left => s.OneSpelling (s.vfsWriteFile cwd path left) [pathResolve cwd path]
  | .delete cwd path left => s.OneSpelling (s.vfsDeleteFile cwd path left) [pathResolve cwd path]
  | .rename cwd oldPath newPath done =>
    s.OneSpelling (s.vfsRename cwd oldPath newPath done)
      [pathResolve cwd oldPath, pathResolve cwd newPath]

instance (s : FileSys) (c : FsCall) : Decidable (s.Ok c) := by
  cases c <;> unfold Ok <;> infer_instance

/-- What the driver would return to `pagecache_read`: nothing is asked of it for a
read of no bytes. -/
def current (cwd path : CStr) (size off len : ℕ) (s : FileSys) : Option Bytes :=
  if min len (size - off) = 0 then some []
  else s.vfsReadAt cwd path off (min len (size - off))

/-! ## Coherence -/

/-- A page holds what its file holds. -/
def Fresh (s : FileSys) (p : PageSlot) : Prop :=
  ∃ data, s.fileAt p.file = some data ∧ p.data = slice (p.pidx * pcPgsz) pcPgsz data

/-- **The cache is coherent**: every page holds what its file holds. -/
def Coherent (s : FileSys) : Prop := ∀ p ∈ s.cache, p.valid = true → s.Fresh p

variable {s t : FileSys} {cwd path abs : CStr} {pidx off len : ℕ}

variable {p : PageSlot}

theorem fresh_congr (hf : t.fileAt = s.fileAt) : t.Fresh p ↔ s.Fresh p := by
  unfold Fresh
  rw [hf]

/-! ### Reading -/

/-- What is in the slots after a lookup: what was there, or the page that was
looked up. -/
theorem mem_pcGet {q : PageSlot} (hq : q ∈ (s.pcGet cwd path pidx).2.cache)
    (hv : q.valid = true) :
    q ∈ s.cache ∨ s.vfsReadAt cwd path (pidx * pcPgsz) pcPgsz = some q.data
      ∧ q = ⟨true, path, pidx, q.data, pathResolve cwd path⟩ := by
  unfold pcGet at hq
  cases hfind : s.cache.find? (pcMatch path pidx) with
  | some p =>
    rw [hfind] at hq
    rcases mem_cons.1 hq with rfl | hq
    · exact .inl (mem_of_find?_eq_some hfind)
    · exact .inl (mem_of_mem_eraseP hq)
  | none =>
    rw [hfind] at hq
    cases hlast : s.cache.getLast? with
    | none =>
      rw [hlast] at hq
      exact .inl hq
    | some p =>
      rw [hlast] at hq
      cases hread : s.vfsReadAt cwd path (pidx * pcPgsz) pcPgsz with
      | none =>
        simp only [hread] at hq
        rcases mem_append.1 hq with hq | hq
        · exact .inl (mem_of_mem_dropLast hq)
        · rw [mem_singleton.1 hq] at hv
          cases hv
      | some data =>
        simp only [hread] at hq
        rcases mem_cons.1 hq with rfl | hq
        · exact .inr ⟨rfl, rfl⟩
        · exact .inl (mem_of_mem_dropLast hq)

theorem pcGet_files (cwd path : CStr) (pidx : ℕ) (s : FileSys) :
    (s.pcGet cwd path pidx).2.files = s.files
      ∧ (s.pcGet cwd path pidx).2.mounts = s.mounts := by
  unfold pcGet
  split
  · exact ⟨rfl, rfl⟩
  · split
    · exact ⟨rfl, rfl⟩
    · split <;> exact ⟨rfl, rfl⟩

theorem fileAt_congr (hm : t.mounts = s.mounts) (hf : t.files = s.files) :
    t.fileAt = s.fileAt := by
  funext abs
  unfold fileAt
  rw [hm, hf]

theorem pcGet_fileAt (cwd path : CStr) (pidx : ℕ) (s : FileSys) :
    (s.pcGet cwd path pidx).2.fileAt = s.fileAt :=
  fileAt_congr (pcGet_files cwd path pidx s).2 (pcGet_files cwd path pidx s).1

/-- A lookup keeps the cache coherent. -/
theorem Coherent.pcGet (h : s.Coherent) : (s.pcGet cwd path pidx).2.Coherent := by
  intro q hq hv
  rw [fresh_congr (pcGet_fileAt cwd path pidx s)]
  rcases mem_pcGet hq hv with hold | ⟨hread, hnew⟩
  · exact h q hold hv
  · unfold vfsReadAt at hread
    obtain ⟨data, hdata, hslice⟩ := map_eq_some_iff.1 hread
    rw [hnew]
    exact ⟨data, hdata, hslice.symm⟩

/-- A lookup leaves the pages under its string pages of one file. -/
theorem OneFile.pcGet (h : s.OneFile path (pathResolve cwd path)) :
    (s.pcGet cwd path pidx).2.OneFile path (pathResolve cwd path) := by
  intro q hq hv hpath
  rcases mem_pcGet hq hv with hold | ⟨-, hnew⟩
  · exact h q hold hv hpath
  · rw [hnew]

/-- **A lookup returns the page of the file**, in a coherent cache that is not
empty. -/
theorem pcGet_eq (h : s.Coherent) (hone : s.OneFile path (pathResolve cwd path))
    (hslots : s.cache ≠ []) :
    (s.pcGet cwd path pidx).1.map PageSlot.data
      = s.vfsReadAt cwd path (pidx * pcPgsz) pcPgsz := by
  unfold FileSys.pcGet
  cases hfind : s.cache.find? (pcMatch path pidx) with
  | some p =>
    have hp := mem_of_find?_eq_some hfind
    have hmatch := find?_some hfind
    unfold pcMatch at hmatch
    rw [Bool.and_eq_true, Bool.and_eq_true, beq_iff_eq, beq_iff_eq] at hmatch
    obtain ⟨⟨hv, hpidx⟩, hpath⟩ := hmatch
    obtain ⟨data, hdata, hslice⟩ := h p hp hv
    rw [hone p hp hv hpath] at hdata
    rw [hpidx] at hslice
    unfold vfsReadAt
    rw [hdata, map_some, map_some, ← hslice]
  | none =>
    have hlast : s.cache.getLast? = some (s.cache.getLast hslots) :=
      getLast?_eq_some_getLast hslots
    cases hread : s.vfsReadAt cwd path (pidx * pcPgsz) pcPgsz with
    | none => simp only [hlast, map_none]
    | some data => simp only [hlast, map_some]

/-- A lookup changes the number of slots by nothing. -/
theorem pcGet_ne_nil (hslots : s.cache ≠ []) : (s.pcGet cwd path pidx).2.cache ≠ [] := by
  unfold FileSys.pcGet
  split
  · exact cons_ne_nil _ _
  · split
    · exact hslots
    · split
      · simp
      · exact cons_ne_nil _ _

/-- What `pagecache_read` relies on between two lookups. -/
structure Readable (cwd path : CStr) (s t : FileSys) : Prop where
  /-- The cache is coherent. -/
  coherent : t.Coherent
  /-- The pages under the string are pages of the file. -/
  one : t.OneFile path (pathResolve cwd path)
  /-- There is a slot to fill. -/
  slots : t.cache ≠ []
  /-- The files are what they were. -/
  fileAt : t.fileAt = s.fileAt

theorem Readable.pcGet (h : Readable cwd path s t) :
    Readable cwd path s (t.pcGet cwd path pidx).2 :=
  ⟨h.coherent.pcGet, h.one.pcGet, pcGet_ne_nil h.slots,
    (pcGet_fileAt cwd path pidx t).trans h.fileAt⟩

variable {data : Bytes}

/-- A lookup returns the page, in terms of the file. -/
theorem Readable.pcGet_eq (h : Readable cwd path s t)
    (hdata : s.fileAt (pathResolve cwd path) = some data) (pidx : ℕ) :
    ∃ p, (t.pcGet cwd path pidx).1 = some p ∧ p.data = slice (pidx * pcPgsz) pcPgsz data := by
  have hpage := @FileSys.pcGet_eq t cwd path pidx h.coherent h.one h.slots
  unfold vfsReadAt at hpage
  rw [h.fileAt, hdata, map_some] at hpage
  exact map_eq_some_iff.1 hpage

/-! ### The loop -/

theorem length_slice (off len : ℕ) (data : Bytes) :
    (slice off len data).length = min len (data.length - off) := by
  unfold slice
  rw [length_take, length_drop]

/-- Two parts of a file, one after the other. -/
theorem slice_append (off k c : ℕ) (data : Bytes) :
    slice off k data ++ slice (off + k) c data = slice off (k + c) data := by
  unfold slice
  rw [take_add, drop_drop]

/-- A part of a part of a file. -/
theorem slice_slice {a n b c : ℕ} (h : c ≤ n - b) (data : Bytes) :
    slice b c (slice a n data) = slice (a + b) c data := by
  unfold slice
  rw [drop_take, take_take, drop_drop, min_eq_left h]

/-- Past the end of the file a longer part is no more. -/
theorem slice_eq_of_length_le {off k n : ℕ} (hk : data.length ≤ off + k) (hn : k ≤ n) :
    slice off n data = slice off k data := by
  unfold slice
  rw [take_of_length_le, take_of_length_le] <;> rw [length_drop] <;> omega

/-- The page of an offset, from the offset on. -/
theorem slice_page {off c : ℕ} (data : Bytes) (hc : c ≤ pcPgsz - off % pcPgsz) :
    slice (off % pcPgsz) c (slice (off / pcPgsz * pcPgsz) pcPgsz data) = slice off c data := by
  rw [slice_slice hc, Nat.div_add_mod']

/-- What a turn has done, when `data` are the contents of the file: it goes on with
more of what was asked for in the buffer, or it is the last and all of it is
there, up to the end of the file. -/
structure Turned (cwd path : CStr) (s : FileSys) (data : Bytes) (off toRead k : ℕ)
    (q : Bool × ReadLoop) : Prop where
  /-- No lookup failed. -/
  failed : q.2.failed = false
  /-- The next lookup finds what it needs. -/
  readable : Readable cwd path s q.2.fs
  /-- The turn goes on. -/
  more : q.1 = true →
    q.2.out = slice off q.2.out.length data ∧ k < q.2.out.length ∧ q.2.out.length ≤ toRead
  /-- The turn is the last. -/
  last : q.1 = false → q.2.out = slice off toRead data

/-- **A turn of the loop of `pagecache_read`.** -/
theorem readTurn_turned {toRead : ℕ} (hdata : s.fileAt (pathResolve cwd path) = some data)
    (r : ReadLoop) (i : ℕ) (hr : Readable cwd path s r.fs) (hfailed : r.failed = false)
    (hout : r.out = slice off r.out.length data) (hlt : r.out.length < toRead) :
    Turned cwd path s data off toRead r.out.length (readTurn cwd path off toRead r i) := by
  obtain ⟨k, hk⟩ : ∃ k, k = r.out.length := ⟨_, rfl⟩
  rw [← hk] at hout hlt ⊢
  have hnext : Readable cwd path s (r.fs.pcGet cwd path ((off + k) / pcPgsz)).2 := hr.pcGet
  obtain ⟨p, hp, hpage⟩ := hr.pcGet_eq hdata ((off + k) / pcPgsz)
  have hlen := length_slice ((off + k) / pcPgsz * pcPgsz) pcPgsz data
  have hdiv := Nat.div_add_mod' (off + k) pcPgsz
  have hmod : (off + k) % pcPgsz < pcPgsz := Nat.mod_lt _ (by decide)
  have hklen : k ≤ data.length - off := by
    have hkeq := congrArg length hout
    rw [length_slice, ← hk] at hkeq
    omega
  unfold readTurn
  rw [if_neg (by rw [← hk]; exact Nat.not_le.2 hlt)]
  simp only [← hk]
  generalize r.fs.pcGet cwd path ((off + k) / pcPgsz) = g at hp hnext
  obtain ⟨page, fs⟩ := g
  dsimp only at hp hnext
  subst hp
  dsimp only
  rw [← hpage] at hlen
  generalize p.data = page at hlen hpage
  by_cases hshort : page.length ≤ (off + k) % pcPgsz
  -- the page ends before the offset, and so does the file
  · rw [if_pos hshort]
    refine ⟨hfailed, hnext, fun hgo => (by cases hgo), fun _ => ?_⟩
    rw [hout, slice_eq_of_length_le (k := k) (n := toRead) (by omega) hlt.le]
  rw [if_neg hshort]
  obtain ⟨c, hc⟩ : ∃ c, c = min (page.length - (off + k) % pcPgsz) (toRead - k) := ⟨_, rfl⟩
  have hnew : r.out ++ (page.drop ((off + k) % pcPgsz)).take c = slice off (k + c) data := by
    have hchunk : (page.drop ((off + k) % pcPgsz)).take c = slice (off + k) c data := by
      rw [hpage]
      exact slice_page data (by omega)
    rw [hchunk, hout, slice_append]
  have hnewlen : (slice off (k + c) data).length = k + c := by
    rw [length_slice]
    omega
  rw [← hc, hnew]
  refine ⟨hfailed, hnext, fun _ => ?_, fun hstop => ?_⟩
  · dsimp only
    rw [hnewlen]
    exact ⟨rfl, by omega, by omega⟩
  -- a page that is not full is the last of the file
  · have hpart : page.length < pcPgsz := Nat.not_le.1 (of_decide_eq_false hstop)
    rcases Nat.lt_or_ge (k + c) toRead with hmore | hdone
    · exact (slice_eq_of_length_le (k := k + c) (n := toRead) (by omega) hmore.le).symm
    · have heq : k + c = toRead := by omega
      rw [← heq]

/-- **The loop of `pagecache_read` reads the file**: from a buffer that holds the
beginning of what was asked for, with enough turns left, to one that holds all of
it up to the end of the file. -/
theorem readLoop_eq (off toRead : ℕ) (hdata : s.fileAt (pathResolve cwd path) = some data)
    (is : List ℕ) (r : ReadLoop) (hr : Readable cwd path s r.fs) (hfailed : r.failed = false)
    (hout : r.out = slice off r.out.length data) (hle : r.out.length ≤ toRead)
    (hfuel : toRead ≤ r.out.length + is.length) :
    (loop (readTurn cwd path off toRead) is r).2.out = slice off toRead data
      ∧ (loop (readTurn cwd path off toRead) is r).2.failed = false := by
  induction is generalizing r with
  | nil =>
    have heq : toRead = r.out.length := by
      rw [length_nil] at hfuel
      omega
    rw [heq]
    exact ⟨hout, hfailed⟩
  | cons i is ih =>
    rw [loop_cons]
    rcases Nat.lt_or_ge r.out.length toRead with hlt | hend
    · have hturn := readTurn_turned hdata r i hr hfailed hout hlt
      split_ifs with hgo
      · obtain ⟨hout', hlonger, hle'⟩ := hturn.more hgo
        rw [length_cons] at hfuel
        exact ih _ hturn.readable hturn.failed hout' hle' (by omega)
      · exact ⟨hturn.last (Bool.not_eq_true _ ▸ hgo), hturn.failed⟩
    · have hturn : readTurn cwd path off toRead r i = (false, r) := if_pos hend
      rw [hturn, if_neg Bool.false_ne_true, le_antisymm hend hle]
      exact ⟨hout, hfailed⟩

/-- **`pagecache_read` returns what the driver would**, from a coherent cache. -/
theorem pagecacheRead_eq (h : s.Coherent) (hone : s.OneFile path (pathResolve cwd path))
    (hslots : s.cache ≠ []) (size off len : ℕ) :
    (s.pagecacheRead cwd path size off len).1 = s.current cwd path size off len := by
  unfold FileSys.pagecacheRead current FileSys.readLoop
  obtain ⟨n, hn⟩ : ∃ n, n = min len (size - off) := ⟨_, rfl⟩
  rw [← hn]
  have hread : Readable cwd path s s := ⟨h, hone, hslots, rfl⟩
  cases n with
  | zero => rfl
  | succ n =>
    rw [if_neg (Nat.succ_ne_zero n)]
    cases hdata : s.fileAt (pathResolve cwd path) with
    | none =>
      have hnone : ∀ pidx, s.vfsReadAt cwd path (pidx * pcPgsz) pcPgsz = none := by
        intro pidx
        unfold vfsReadAt
        rw [hdata, map_none]
      have hget : (s.pcGet cwd path ((off + 0) / pcPgsz)).1 = none := by
        rw [← map_eq_none_iff, pcGet_eq h hone hslots, hnone]
      have hvfs : s.vfsReadAt cwd path off (n + 1) = none := by
        unfold vfsReadAt
        rw [hdata, map_none]
      dsimp only
      rw [hvfs, range_succ_eq_map, loop_cons]
      unfold readTurn
      simp only [length_nil]
      generalize s.pcGet cwd path ((off + 0) / pcPgsz) = g at hget
      obtain ⟨page, fs⟩ := g
      dsimp only at hget
      subst hget
      rfl
    | some data =>
      obtain ⟨hout, hfailed⟩ := readLoop_eq off (n + 1) hdata
        (range (n + 1)) ⟨[], false, s, []⟩ hread rfl (by rfl) (Nat.zero_le _)
        (by rw [length_range]; exact Nat.le_add_left _ _)
      have hvfs : s.vfsReadAt cwd path off (n + 1) = some (slice off (n + 1) data) := by
        unfold vfsReadAt
        rw [hdata, map_some]
      simp only [hfailed, Bool.false_eq_true, false_and, if_false, hout, hvfs]

/-! ### Coherence is kept -/

/-- What the loop leaves of the cache. -/
theorem pagecacheRead_keeps {P : FileSys → Prop}
    (hget : ∀ (s : FileSys) (pidx : ℕ), P s → P (s.pcGet cwd path pidx).2) (hs : P s)
    (size off len : ℕ) : P (s.pagecacheRead cwd path size off len).2 := by
  unfold FileSys.pagecacheRead FileSys.readLoop
  refine loop_invariant (P := fun r : ReadLoop => P r.fs) _ (fun r i _ hr => ?_) hs
  unfold readTurn
  split_ifs
  · exact hr
  · have hnext := hget r.fs ((off + r.out.length) / pcPgsz) hr
    dsimp only
    generalize r.fs.pcGet cwd path ((off + r.out.length) / pcPgsz) = g at hnext
    obtain ⟨page, fs⟩ := g
    cases page with
    | none => exact hnext
    | some data =>
      dsimp only
      split_ifs <;> exact hnext

/-- A page that is valid after `pagecache_invalidate` was there before, under
another string. -/
theorem mem_pagecacheInvalidate (hp : p ∈ (s.pagecacheInvalidate abs).cache) (hv : p.valid = true) :
    p ∈ s.cache ∧ p.path ≠ abs := by
  rcases mem_append.1 hp with hp | hp
  · obtain ⟨hp, hne⟩ := mem_filter.1 hp
    refine ⟨hp, fun heq => ?_⟩
    unfold isPageOf at hne
    rw [hv, heq] at hne
    simp at hne
  · obtain ⟨q, -, rfl⟩ := mem_map.1 hp
    cases hv

/-- What `vfs_write_file` and `vfs_delete_file` do with the cache. -/
theorem vfsChangeFile_cases (s : FileSys) (cwd path : CStr) (left : Option Bytes) :
    s.vfsChangeFile cwd path left = s ∨ (s.vfsChangeFile cwd path left).cache
      = (s.pagecacheInvalidate (pathResolve cwd path)).cache := by
  unfold vfsChangeFile
  dsimp only
  split
  · exact .inl rfl
  · split_ifs
    · exact .inl rfl
    · exact .inr rfl
    · exact .inr rfl

/-- What `vfs_rename` does with the cache. -/
theorem vfsRename_cases (s : FileSys) (cwd oldPath newPath : CStr) (done : Bool) :
    s.vfsRename cwd oldPath newPath done = s ∨ (s.vfsRename cwd oldPath newPath done).cache
      = ((s.pagecacheInvalidate (pathResolve cwd oldPath)).pagecacheInvalidate
        (pathResolve cwd newPath)).cache := by
  unfold vfsRename
  dsimp only
  split
  · split_ifs
    · exact .inl rfl
    · exact .inr rfl
    · exact .inr rfl
  · exact .inl rfl

/-- A page that is valid after a change of a file was there before, and under
another string if the file may have changed. -/
theorem mem_vfsChangeFile {left : Option Bytes} (hp : p ∈ (s.vfsChangeFile cwd path left).cache)
    (hv : p.valid = true) : p ∈ s.cache
      ∧ (p.path = pathResolve cwd path → s.vfsChangeFile cwd path left = s) := by
  rcases s.vfsChangeFile_cases cwd path left with heq | heq
  · exact ⟨heq ▸ hp, fun _ => heq⟩
  · rw [heq] at hp
    exact (mem_pagecacheInvalidate hp hv).imp_right Not.elim

variable {oldPath newPath : CStr}

/-- A page that is valid after a renaming was there before, and under another
string if files may have moved. -/
theorem mem_vfsRename {done : Bool} (hp : p ∈ (s.vfsRename cwd oldPath newPath done).cache)
    (hv : p.valid = true) : p ∈ s.cache
      ∧ (p.path ∈ [pathResolve cwd oldPath, pathResolve cwd newPath] →
        s.vfsRename cwd oldPath newPath done = s) := by
  rcases s.vfsRename_cases cwd oldPath newPath done with heq | heq
  · exact ⟨heq ▸ hp, fun _ => heq⟩
  · rw [heq] at hp
    obtain ⟨hp, hneNew⟩ := mem_pagecacheInvalidate hp hv
    obtain ⟨hp, hneOld⟩ := mem_pagecacheInvalidate hp hv
    exact ⟨hp, fun hmem => absurd hmem (by simp [hneOld, hneNew])⟩

/-- A call keeps the cache coherent when it leaves the files of the pages alone
that it does not drop. -/
theorem Coherent.of_oneSpelling {dropped : List CStr} (h : s.Coherent)
    (hok : s.OneSpelling t dropped)
    (hmem : ∀ p ∈ t.cache, p.valid = true → p ∈ s.cache ∧ (p.path ∈ dropped → t = s)) :
    t.Coherent := by
  intro p hp hv
  obtain ⟨hold, hdropped⟩ := hmem p hp hv
  obtain ⟨data, hdata, hslice⟩ := h p hold hv
  have hfile : t.fileAt p.file = s.fileAt p.file := by
    by_cases hin : p.path ∈ dropped
    · rw [hdropped hin]
    · exact hok p hold hv hin
  exact ⟨data, hfile.trans hdata, hslice⟩

theorem Coherent.vfsChangeFile {left : Option Bytes} (h : s.Coherent)
    (hok : s.OneSpelling (s.vfsChangeFile cwd path left) [pathResolve cwd path]) :
    (s.vfsChangeFile cwd path left).Coherent := by
  refine h.of_oneSpelling hok (fun p hp hv => ?_)
  rw [mem_singleton]
  exact mem_vfsChangeFile hp hv

/-- **Every call keeps the cache coherent.** -/
theorem Coherent.step (h : s.Coherent) (call : FsCall) (hok : s.Ok call) :
    (s.step call).Coherent := by
  cases call with
  | read cwd path size off len =>
    exact pagecacheRead_keeps (fun _ _ => Coherent.pcGet) h size off len
  | write cwd path left => exact h.vfsChangeFile hok
  | delete cwd path left => exact h.vfsChangeFile hok
  | rename cwd oldPath newPath done =>
    exact h.of_oneSpelling hok (fun _ hp hv => mem_vfsRename hp hv)

/-- The cache keeps its slots. -/
theorem pagecacheInvalidate_ne_nil (hslots : s.cache ≠ []) :
    (s.pagecacheInvalidate abs).cache ≠ [] := by
  obtain ⟨p, hp⟩ := exists_mem_of_ne_nil _ hslots
  by_cases hpage : isPageOf abs p = true
  · exact append_ne_nil_of_right_ne_nil _ (ne_nil_of_mem
      (mem_map.2 ⟨p, mem_filter.2 ⟨hp, hpage⟩, rfl⟩))
  · exact append_ne_nil_of_left_ne_nil (ne_nil_of_mem
      (mem_filter.2 ⟨hp, by simpa using hpage⟩)) _

theorem vfsChangeFile_ne_nil (left : Option Bytes) (hslots : s.cache ≠ []) :
    (s.vfsChangeFile cwd path left).cache ≠ [] := by
  rcases s.vfsChangeFile_cases cwd path left with heq | heq <;> rw [heq]
  · exact hslots
  · exact pagecacheInvalidate_ne_nil hslots

theorem step_ne_nil (call : FsCall) (hslots : s.cache ≠ []) : (s.step call).cache ≠ [] := by
  cases call with
  | read cwd path size off len =>
    exact pagecacheRead_keeps (P := fun s => s.cache ≠ []) (fun _ _ => pcGet_ne_nil) hslots
      size off len
  | write cwd path left => exact vfsChangeFile_ne_nil left hslots
  | delete cwd path left => exact vfsChangeFile_ne_nil left hslots
  | rename cwd oldPath newPath done =>
    rw [step]
    rcases s.vfsRename_cases cwd oldPath newPath done with heq | heq <;> rw [heq]
    · exact hslots
    · exact pagecacheInvalidate_ne_nil (pagecacheInvalidate_ne_nil hslots)

/-- **Reads through the page cache are current.** After every run in which pages
cached under one string are pages of one file, and every call that changes files
finds no page of them under another string than the absolute paths it drops,
`pagecache_read` returns the bytes the driver would return. -/
theorem reads_current (mounts : List VfsMount) (driver : Driver) (files : Files)
    (calls : List FsCall) (hok : Meets Ok step (boot mounts driver files) calls)
    (cwd path : CStr) (size off len : ℕ)
    (hread : (calls.foldl step (boot mounts driver files)).Ok (.read cwd path size off len)) :
    ((calls.foldl step (boot mounts driver files)).pagecacheRead cwd path size off len).1
      = (calls.foldl step (boot mounts driver files)).current cwd path size off len := by
  have hboot : (boot mounts driver files).Coherent ∧ (boot mounts driver files).cache ≠ [] := by
    refine ⟨fun p hp hv => ?_, cons_ne_nil _ _⟩
    rw [eq_of_mem_replicate hp] at hv
    cases hv
  have hinv := Meets.invariant (P := fun s : FileSys => s.Coherent ∧ s.cache ≠ [])
    (fun s call hs hcall => ⟨hs.1.step call hcall, step_ne_nil call hs.2⟩) hboot hok
  exact pagecacheRead_eq hinv.1 hread hinv.2 size off len

/-- A driver for which every path names its own file, as that of `ext2` does for
the names of one directory. -/
def plainDriver : Driver where
  change m drv left files := Function.update files m (Function.update (files m) drv left)
  move _ _ _ _ files := files

/-- A volume with one file of one byte in its root. -/
def oneFile : FileSys :=
  boot [⟨"/".toList, .ext2, 0⟩] plainDriver
    (fun _ drv => if drv = "/f".toList then some [1] else none)

/-- The file is read by its absolute path and written by a relative one. -/
def readThenWrite : List FsCall :=
  [.read "/".toList "/f".toList 1 0 1, .write "/".toList "f".toList (some [2])]

/-- The theorem at a file that is read, written and read again. -/
theorem reads_current_absolute :
    Meets Ok step oneFile readThenWrite
      ∧ ((readThenWrite.foldl step oneFile).pagecacheRead "/".toList "/f".toList 1 0 1).1
        = (readThenWrite.foldl step oneFile).current "/".toList "/f".toList 1 0 1 := by
  refine ⟨?ok, reads_current _ _ _ _ ?ok _ _ 1 0 1 (by decide +kernel)⟩
  decide +kernel

/-- **A stale page**: a file that was read by a relative path and is then written
keeps its old byte in the cache. -/
theorem stale_read :
    (([FsCall.read "/".toList "f".toList 1 0 1,
          .write "/".toList "/f".toList (some [2])].foldl step oneFile).pagecacheRead
        "/".toList "f".toList 1 0 1).1
      ≠ ([FsCall.read "/".toList "f".toList 1 0 1,
          .write "/".toList "/f".toList (some [2])].foldl step oneFile).current
        "/".toList "f".toList 1 0 1 := by
  decide +kernel

end FileSys

end Makar
