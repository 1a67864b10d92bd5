import Makar.ByteMemory
import Makar.Runs

/-!
# Files in memory

A file that is opened for writing, or that does not come from a disk, is held in
a buffer: `SYS_READ`, `SYS_WRITE`, `SYS_WRITEV` and `SYS_LSEEK` work on the bytes
in memory, and the file is written back when the descriptor is closed.

What the calls are meant to be is a `ByteFile`: a list of bytes with a cursor. A
write past the end fills the gap with zero bytes, a read past the end finds
nothing, and a write that fails changes nothing. `ByteFile.Runs` says which results
a sequence of calls may have; the only choice it leaves is that a write may fail
when the heap refuses memory.

The buffer keeps to it except in two places. `SYS_READ` computes what is left of
the file as the difference of two unsigned words, so that with the cursor past the
end it reads what lies in memory behind the file (`read_past_end`); and a write to a
descriptor opened for appending moves the cursor to the end before it knows
whether it will succeed. `OpenFile.CallOk` is the condition that a call avoids
both, and `calls_refine` says that every sequence of calls that does has the
results of the byte file.
-/

namespace Makar

open List

/-- `SYSCALL_FILE_MAX`. -/
def syscallFileMax : ℕ := 8 * 1024 * 1024

/-- `SYSCALL_FILE_INITIAL`. -/
def syscallFileInitial : ℕ := 4 * 1024

/-- A buffered file behind a descriptor. -/
structure OpenFile where
  /-- The memory of the kernel from `data` on. -/
  data : ℕ → Byte
  /-- The end of the file. -/
  size : ℕ
  /-- How many bytes of the memory are the buffer. -/
  capacity : ℕ
  /-- The cursor. -/
  pos : ℕ
  /-- Whether it was opened for writing. -/
  writable : Bool
  /-- Whether it was opened for appending. -/
  append : Bool
  /-- Whether it has to be written back. -/
  dirty : Bool

/-- What a write is given: the buffer of the program, and what the heap says if the file has to
grow: that there is no memory, or a block and the memory behind it. -/
structure FileSeg where
  /-- The pointer is null. -/
  null : Bool
  /-- The bytes. -/
  bytes : List Byte
  /-- The memory from the new block on, if there is one. -/
  heap : Option (ℕ → Byte)

/-- A call on the descriptor. -/
inductive FileCall where
  /-- `SYS_READ`. -/
  | read (null : Bool) (len : ℕ)
  /-- `SYS_WRITE`. -/
  | write (seg : FileSeg)
  /-- `SYS_WRITEV`; nothing when the arguments are refused. -/
  | writev (iov : Option (List FileSeg))
  /-- `SYS_LSEEK`. -/
  | lseek (offset : Word) (whence : ℤ)

/-- What a call returns, and the bytes a read hands out. -/
abbrev FileResult := ℤ × List Byte

/-! ## The byte file -/

/-- **A file as an array of bytes with a cursor.** -/
structure ByteFile where
  /-- The bytes. -/
  contents : List Byte
  /-- The cursor. -/
  cursor : ℕ
  /-- Whether it may be written. -/
  writable : Bool
  /-- Whether writes go to the end. -/
  append : Bool

namespace ByteFile

/-- A read takes what there is from the cursor on. -/
def read (len : ℕ) (s : ByteFile) : FileResult × ByteFile :=
  let out := (s.contents.drop s.cursor).take len
  ((out.length, out), { s with cursor := s.cursor + out.length })

/-- Where a write goes. -/
def writeAt (s : ByteFile) : ℕ := if s.append then s.contents.length else s.cursor

/-- The bytes with zeros behind them, up to a length. -/
def pad (n : ℕ) (l : List Byte) : List Byte := l ++ List.replicate (n - l.length) 0

/-- A write puts its bytes over what is there, with zeros in the gap before them. -/
def put (bytes : List Byte) (s : ByteFile) : ByteFile :=
  { s with
    contents := (pad s.writeAt s.contents).take s.writeAt ++ bytes
      ++ s.contents.drop (s.writeAt + bytes.length)
    cursor := s.writeAt + bytes.length }

/-- A write succeeds, or changes nothing. It fails when it has no buffer, when the file may not be
written or would be too large, and it may fail when the heap refuses. -/
inductive Write (s : ByteFile) (seg : FileSeg) : ℤ → ByteFile → Prop
  /-- The call is refused. -/
  | refused (h : seg.null = true ∨ s.writable = false
      ∨ syscallFileMax < s.writeAt + seg.bytes.length ∨ seg.heap = none) : Write s seg (-1) s
  /-- The bytes are written. -/
  | written (hnull : seg.null = false) (hw : s.writable = true)
      (hmax : s.writeAt + seg.bytes.length ≤ syscallFileMax) :
      Write s seg seg.bytes.length (s.put seg.bytes)

/-- A gathering write: empty pieces are skipped, the first that fails ends the call. -/
inductive Writev : ByteFile → List FileSeg → ℤ → ℤ → ByteFile → Prop
  /-- All pieces are written. -/
  | done (s : ByteFile) (total : ℤ) : Writev s [] total total s
  /-- A piece is empty. -/
  | skip {s s' : ByteFile} {seg : FileSeg} {segs : List FileSeg} {total rc : ℤ}
      (hempty : seg.bytes = []) (hrest : Writev s segs total rc s') :
      Writev s (seg :: segs) total rc s'
  /-- A piece fails. -/
  | failed {s s' : ByteFile} {seg : FileSeg} {segs : List FileSeg} {total n : ℤ}
      (hsome : seg.bytes ≠ []) (hwrite : s.Write seg n s') (hn : n < 0) :
      Writev s (seg :: segs) total (if total = 0 then n else total) s'
  /-- A piece is written. -/
  | piece {s s₁ s' : ByteFile} {seg : FileSeg} {segs : List FileSeg} {total n rc : ℤ}
      (hsome : seg.bytes ≠ []) (hwrite : s.Write seg n s₁) (hn : 0 ≤ n)
      (hrest : Writev s₁ segs (total + n) rc s') : Writev s (seg :: segs) total rc s'

/-- How far a cursor may go: to the end, in a file that may not be written. -/
def limit (s : ByteFile) : ℕ := if s.writable then syscallFileMax else s.contents.length

/-- A seek to a place; a place before the start or past the limit is the limit. -/
def seekTo (place : ℤ) (s : ByteFile) : ℤ × ByteFile :=
  let place := if 0 ≤ place ∧ place ≤ s.limit then place.toNat else s.limit
  (place, { s with cursor := place })

/-- A seek counts from the start, the cursor or the end. -/
def lseek (offset : Word) (whence : ℤ) (s : ByteFile) : ℤ × ByteFile :=
  if whence = 0 then s.seekTo offset.toInt
  else if whence = 1 then s.seekTo (s.cursor + offset.toInt)
  else if whence = 2 then s.seekTo (s.contents.length + offset.toInt)
  else (-1, s)

/-- What a call may come to. -/
inductive Step (s : ByteFile) : FileCall → FileResult → ByteFile → Prop
  /-- A read for nothing. -/
  | readNothing {null : Bool} {len : ℕ} (h : null = true ∨ len = 0) :
      Step s (.read null len) (0, []) s
  /-- A read. -/
  | read {len : ℕ} (h : 0 < len) : Step s (.read false len) (s.read len).1 (s.read len).2
  /-- A write. -/
  | write {seg : FileSeg} {rc : ℤ} {s' : ByteFile} (h : s.Write seg rc s') :
      Step s (.write seg) (rc, []) s'
  /-- A gathering write without pieces to gather. -/
  | writevNothing : Step s (.writev none) (-1, []) s
  /-- A gathering write. -/
  | writev {segs : List FileSeg} {rc : ℤ} {s' : ByteFile} (h : s.Writev segs 0 rc s') :
      Step s (.writev (some segs)) (rc, []) s'
  /-- A seek. -/
  | lseek {offset : Word} {whence : ℤ} :
      Step s (.lseek offset whence) ((s.lseek offset whence).1, []) (s.lseek offset whence).2

/-- What a sequence of calls may come to. -/
inductive Runs : ByteFile → List FileCall → List FileResult → ByteFile → Prop
  /-- No calls. -/
  | nil (s : ByteFile) : Runs s [] [] s
  /-- A call and the rest. -/
  | cons {s s₁ s' : ByteFile} {call : FileCall} {r : FileResult} {calls : List FileCall}
      {rs : List FileResult} (hcall : s.Step call r s₁) (hrest : Runs s₁ calls rs s') :
      Runs s (call :: calls) (r :: rs) s'

variable {s s' : ByteFile} {r : FileResult}

theorem Step.read_eq {len : ℕ} (h : s.Step (.read false len) r s') (hlen : 0 < len) :
    r = (s.read len).1 := by
  cases h with
  | readNothing h =>
    rcases h with h | h
    · cases h
    · omega
  | read _ => rfl

theorem Step.lseek_eq {offset : Word} {whence : ℤ} (h : s.Step (.lseek offset whence) r s') :
    s' = (s.lseek offset whence).2 := by
  cases h
  rfl

end ByteFile

/-! ## The buffer -/

namespace OpenFile

/-- `memset`. -/
def memset (data : ℕ → Byte) (start n : ℕ) : ℕ → Byte :=
  fun i => if start ≤ i ∧ i < start + n then 0 else data i

/-- `memcpy` into memory. -/
def memcpy (data : ℕ → Byte) (start : ℕ) (bytes : List Byte) : ℕ → Byte :=
  fun i => if start ≤ i then (bytes[i - start]?).getD (data i) else data i

/-- `SYS_READ`. The words are unsigned: `size - pos` wraps when the cursor is past the end. -/
def sysRead (null : Bool) (len : ℕ) (f : OpenFile) : FileResult × OpenFile :=
  if null ∨ len = 0 then ((0, []), f)
  else
    let avail := (2 ^ 32 + f.size - f.pos) % 2 ^ 32
    let n := if len < avail then len else avail
    ((n, (List.range n).map fun i => f.data (f.pos + i)),
      { f with pos := (f.pos + n) % 2 ^ 32 })

/-- The loop that doubles the capacity. -/
def doubled : ℕ → ℕ → ℕ → ℕ
  | 0, newCap, _ => newCap
  | n + 1, newCap, wantEnd =>
    if newCap < wantEnd then doubled n ((newCap * 2) % 2 ^ 32) wantEnd else newCap

/-- The capacity after growth. -/
def grownCapacity (wantEnd : ℕ) (f : OpenFile) : ℕ :=
  min (doubled wantEnd (if f.capacity = 0 then syscallFileInitial else f.capacity) wantEnd)
    syscallFileMax

/-- The buffer grows if it has to; nothing when the heap has no memory. `krealloc` keeps the old
bytes, and the new ones are set to zero. -/
def grow (wantEnd : ℕ) (heap : Option (ℕ → Byte)) (f : OpenFile) : Option OpenFile :=
  if wantEnd ≤ f.capacity then some f
  else
    heap.map fun behind =>
      { f with
        data := memset (fun i => if i < f.capacity then f.data i else behind i) f.capacity
          (f.grownCapacity wantEnd - f.capacity)
        capacity := f.grownCapacity wantEnd }

/-- The bytes are copied in at the cursor. -/
def store (bytes : List Byte) (f : OpenFile) : OpenFile :=
  let data := if f.size < f.pos then memset f.data f.size (f.pos - f.size) else f.data
  { f with
    data := memcpy data f.pos bytes
    pos := f.pos + bytes.length
    size := max f.size (f.pos + bytes.length)
    dirty := true }

/-- A write to a file opened for appending moves the cursor to the end first. -/
def atEnd (f : OpenFile) : OpenFile := if f.append then { f with pos := f.size } else f

/-- The file branch of `syscall_fd_write`. -/
def syscallFdWrite (seg : FileSeg) (f : OpenFile) : ℤ × OpenFile :=
  if seg.null then (-1, f)
  else if !f.writable then (-1, f)
  else
    let f := f.atEnd
    let wantEnd := f.pos + seg.bytes.length
    if syscallFileMax < wantEnd then (-1, f)
    else
      match f.grow wantEnd seg.heap with
      | none => (-1, f)
      | some f => (seg.bytes.length, f.store seg.bytes)

/-- The loop of `SYS_WRITEV`. -/
def writevLoop : List FileSeg → ℤ → OpenFile → ℤ × OpenFile
  | [], total, f => (total, f)
  | seg :: segs, total, f =>
    if seg.bytes.length = 0 then writevLoop segs total f
    else
      let r := f.syscallFdWrite seg
      if r.1 < 0 then (if total = 0 then r.1 else total, r.2)
      else if r.1 < seg.bytes.length then (total + r.1, r.2)
      else writevLoop segs (total + r.1) r.2

/-- The place is taken as an unsigned word and cut off at the limit. -/
def seekTo (place : ℤ) (f : OpenFile) : ℤ × OpenFile :=
  let newPos := (place % 2 ^ 32).toNat
  let limit := if f.writable then syscallFileMax else f.size
  let newPos := if limit < newPos then limit else newPos
  (newPos, { f with pos := newPos })

/-- `SYS_LSEEK`. -/
def sysLseek (offset : Word) (whence : ℤ) (f : OpenFile) : ℤ × OpenFile :=
  if whence = 0 then f.seekTo offset.toInt
  else if whence = 1 then f.seekTo (f.pos + offset.toInt)
  else if whence = 2 then f.seekTo (f.size + offset.toInt)
  else (-1, f)

/-- A call. -/
def call (c : FileCall) (f : OpenFile) : FileResult × OpenFile :=
  match c with
  | .read null len => f.sysRead null len
  | .write seg => (((f.syscallFdWrite seg).1, []), (f.syscallFdWrite seg).2)
  | .writev none => ((-1, []), f)
  | .writev (some segs) => (((writevLoop segs 0 f).1, []), (writevLoop segs 0 f).2)
  | .lseek offset whence => (((f.sysLseek offset whence).1, []), (f.sysLseek offset whence).2)

/-- The file after a call. -/
def step (f : OpenFile) (c : FileCall) : OpenFile := (f.call c).2

/-- The results of a sequence of calls. -/
def results : OpenFile → List FileCall → List FileResult
  | _, [] => []
  | f, c :: cs => (f.call c).1 :: results (f.step c) cs

/-- The byte file that the buffer stands for. -/
def bytes (f : OpenFile) : ByteFile where
  contents := (List.range f.size).map f.data
  cursor := f.pos
  writable := f.writable
  append := f.append

/-- The file lies in its buffer, and the buffer is not too large. -/
structure Ok (f : OpenFile) : Prop where
  /-- The file lies in the buffer. -/
  size_le : f.size ≤ f.capacity
  /-- The buffer is not too large. -/
  capacity_le : f.capacity ≤ syscallFileMax
  /-- Nor is the cursor too far. -/
  pos_le : f.pos ≤ syscallFileMax

variable {f : OpenFile}

@[simp] theorem bytes_length (f : OpenFile) : f.bytes.contents.length = f.size := by
  simp [bytes]

/-! ### Reading -/

/-- A read with the cursor in the file. -/
theorem sysRead_bytes (hok : f.Ok) {len : ℕ} (hlen : 0 < len) (hpos : f.pos ≤ f.size) :
    (f.sysRead false len).1 = (f.bytes.read len).1
      ∧ (f.sysRead false len).2.bytes = (f.bytes.read len).2 ∧ (f.sysRead false len).2.Ok := by
  have hsize := hok.size_le.trans hok.capacity_le
  have hmax : syscallFileMax < 2 ^ 32 := by decide
  have havail : (2 ^ 32 + f.size - f.pos) % 2 ^ 32 = f.size - f.pos := by omega
  have hmin : (if len < f.size - f.pos then len else f.size - f.pos) = min len (f.size - f.pos) := by
    split_ifs <;> omega
  have hout : (f.bytes.contents.drop f.bytes.cursor).take len
      = (range (min len (f.size - f.pos))).map fun i => f.data (f.pos + i) := by
    refine ext_getElem ?_ fun i hi _ => ?_
    · simp [bytes]
    · simp [bytes]
  have hnull : ¬ (false = true ∨ len = 0) := by simp; omega
  unfold sysRead ByteFile.read
  rw [if_neg hnull]
  dsimp only
  rw [havail, hmin, hout]
  have hwrap : (f.pos + min len (f.size - f.pos)) % 2 ^ 32 = f.pos + min len (f.size - f.pos) := by
    omega
  rw [hwrap]
  refine ⟨?_, ?_, hok.size_le, hok.capacity_le, ?_⟩
  · simp
  · simp [bytes]
  · show f.pos + min len (f.size - f.pos) ≤ _
    omega

/-! ### Writing -/

/-- Doubling comes to what is wanted. -/
theorem le_doubled {n newCap wantEnd : ℕ} (hpos : 0 < newCap) (hwant : wantEnd ≤ syscallFileMax)
    (hfuel : wantEnd ≤ newCap + n) : wantEnd ≤ doubled n newCap wantEnd := by
  have hmax : syscallFileMax * 2 < 2 ^ 32 := by decide
  induction n generalizing newCap with
  | zero => exact hfuel
  | succ n ih =>
    unfold doubled
    split_ifs with h
    · have hwrap : (newCap * 2) % 2 ^ 32 = newCap * 2 := by omega
      rw [hwrap]
      exact ih (by omega) (by omega)
    · omega

theorem le_grownCapacity {wantEnd : ℕ} (hwant : wantEnd ≤ syscallFileMax) :
    wantEnd ≤ f.grownCapacity wantEnd := by
  refine le_min (le_doubled ?_ hwant (by omega)) hwant
  split_ifs with h
  · decide
  · omega

/-- **Growth keeps the bytes**: it leaves everything but the memory and the capacity, and in the
file the memory is the same. It fails only where the heap does. -/
theorem grow_cases (wantEnd : ℕ) (heap : Option (ℕ → Byte)) (hok : f.Ok)
    (hwant : wantEnd ≤ syscallFileMax) :
    f.grow wantEnd heap = none ∧ heap = none
      ∨ ∃ data capacity, f.grow wantEnd heap = some { f with data := data, capacity := capacity }
        ∧ wantEnd ≤ capacity ∧ f.size ≤ capacity ∧ capacity ≤ syscallFileMax
        ∧ ∀ i < f.size, data i = f.data i := by
  unfold grow
  split_ifs with h
  · exact .inr ⟨f.data, f.capacity, rfl, h, hok.size_le, hok.capacity_le, fun _ _ => rfl⟩
  · cases heap with
    | none => exact .inl ⟨rfl, rfl⟩
    | some behind =>
      have hsize := hok.size_le
      have hgrown := le_grownCapacity (f := f) hwant
      refine .inr ⟨_, _, rfl, hgrown, by omega, min_le_right _ _, fun i hi => ?_⟩
      unfold memset
      rw [if_neg (by omega)]
      exact if_pos (by omega)

/-- The bytes that are copied in are a write of the byte file. -/
theorem store_bytes (bytes : List Byte) (f g : OpenFile) (hsize : g.size = f.size)
    (hpos : g.pos = f.bytes.writeAt) (hw : g.writable = f.writable) (happ : g.append = f.append)
    (hdata : ∀ i < f.size, g.data i = f.data i) : (g.store bytes).bytes = f.bytes.put bytes := by
  obtain ⟨c, hc⟩ : ∃ c, c = f.bytes.writeAt := ⟨_, rfl⟩
  have hlen : ((ByteFile.pad c f.bytes.contents).take c).length = c := by
    simp only [ByteFile.pad, length_take, length_append, bytes_length,
      length_replicate]
    omega
  rw [← hc] at hpos
  unfold ByteFile.put
  rw [← hc]
  unfold store
  rw [OpenFile.bytes, ByteFile.mk.injEq]
  dsimp only
  rw [hpos, hsize]
  refine ⟨ext_getElem ?_ fun i hi hi' => ?_, rfl, hw, happ⟩
  · simp only [length_map, length_range, length_append, length_drop, hlen,
      bytes_length]
    omega
  rw [length_map, length_range] at hi
  rw [getElem_map, getElem_range, memcpy]
  rcases lt_or_ge i c with hlt | hge
  · -- Before the place of the write: the old bytes, or zeros in the gap.
    rw [if_neg (by omega), getElem_append_left (by simp [hlen]; omega),
      getElem_append_left (by omega), getElem_take]
    unfold ByteFile.pad
    rcases lt_or_ge i f.size with hold | hgap
    · rw [getElem_append_left (by simpa using hold)]
      simp only [OpenFile.bytes, getElem_map, getElem_range]
      split_ifs
      · rw [memset, if_neg (by omega), hdata i hold]
      · exact hdata i hold
    · rw [getElem_append_right (by simpa using hgap), getElem_replicate,
        if_pos (by omega), memset, if_pos (by omega)]
  · rw [if_pos hge]
    rcases lt_or_ge i (c + bytes.length) with hin | hbehind
    · rw [getElem_append_left (by simp [hlen]; omega),
        getElem_append_right (by omega), getElem?_eq_getElem (by omega), Option.getD_some]
      simp only [hlen]
    · -- Behind the write: the old bytes.
      have hold : i < f.size := by omega
      rw [getElem?_eq_none (by omega), Option.getD_none,
        getElem_append_right (by simp [hlen]; omega), getElem_drop]
      have hsame : (if f.size < c then memset g.data f.size (c - f.size) else g.data) i
          = f.data i := by
        split_ifs
        · omega
        · exact hdata i hold
      have hplace : c + bytes.length
          + (i - ((ByteFile.pad c f.bytes.contents).take c ++ bytes).length) = i := by
        rw [length_append, hlen]
        omega
      rw [hsame]
      simp only [hplace]
      simp only [OpenFile.bytes, getElem_map, getElem_range]

/-- The write would be refused: the file would be too large, or has to grow and the heap has no
memory. -/
def Refused (seg : FileSeg) (f : OpenFile) : Prop :=
  syscallFileMax < f.size + seg.bytes.length
    ∨ f.capacity < f.size + seg.bytes.length ∧ seg.heap = none

/-- A write does not move the cursor to the end for nothing: it is refused before that, or the
cursor is there, or the write succeeds. -/
def WriteOk (seg : FileSeg) (f : OpenFile) : Prop :=
  f.append = true → f.writable = true → seg.null = false → f.pos ≠ f.size → ¬ f.Refused seg

theorem atEnd_fields (f : OpenFile) : f.atEnd.size = f.size ∧ f.atEnd.pos = f.bytes.writeAt
    ∧ f.atEnd.writable = f.writable ∧ f.atEnd.append = f.append ∧ f.atEnd.data = f.data
    ∧ f.atEnd.capacity = f.capacity := by
  have hlen := bytes_length f
  unfold atEnd ByteFile.writeAt
  cases happ : f.append with
  | true =>
    have hb : f.bytes.append = true := happ
    simp only [hb, if_true, hlen, and_self]
  | false =>
    have hb : f.bytes.append = false := happ
    simp only [hb, Bool.false_eq_true, if_false, happ, and_self, and_true, true_and]
    rfl

/-- When the cursor is at the end, or does not go there, nothing has moved. -/
theorem atEnd_eq (h : f.append = false ∨ f.pos = f.size) : f.atEnd = f := by
  unfold atEnd
  split_ifs with happ
  · rcases h with h | h
    · exact absurd (happ.symm.trans h) (by decide)
    · cases f
      cases h
      rfl
  · rfl

theorem Ok.atEnd (hok : f.Ok) : f.atEnd.Ok := by
  obtain ⟨hsize, -, -, -, -, hcap⟩ := atEnd_fields f
  refine ⟨by rw [hsize, hcap]; exact hok.size_le, by rw [hcap]; exact hok.capacity_le, ?_⟩
  unfold OpenFile.atEnd
  split_ifs
  · exact hok.size_le.trans hok.capacity_le
  · exact hok.pos_le

/-- **A write is a write of the byte file.** -/
theorem syscallFdWrite_bytes (hok : f.Ok) {seg : FileSeg} (hcond : f.WriteOk seg) :
    f.bytes.Write seg (f.syscallFdWrite seg).1 (f.syscallFdWrite seg).2.bytes
      ∧ (f.syscallFdWrite seg).2.Ok
      ∧ (0 ≤ (f.syscallFdWrite seg).1 → (f.syscallFdWrite seg).2.append = true →
        (f.syscallFdWrite seg).2.pos = (f.syscallFdWrite seg).2.size) := by
  have hnot : ¬ (0 : ℤ) ≤ -1 := by decide
  unfold syscallFdWrite
  rcases Bool.eq_false_or_eq_true seg.null with hnull | hnull
  · rw [if_pos hnull]
    exact ⟨.refused (.inl hnull), hok, fun h => absurd h hnot⟩
  rcases Bool.eq_false_or_eq_true f.writable with hw | hw
  swap
  · rw [if_neg (by simp [hnull]), if_pos (by simp [hw])]
    exact ⟨.refused (.inr (.inl hw)), hok, fun h => absurd h hnot⟩
  rw [if_neg (by simp [hnull]), if_neg (by simp [hw])]
  dsimp only
  obtain ⟨g, hg⟩ : ∃ g, g = f.atEnd := ⟨_, rfl⟩
  obtain ⟨hsize, hpos, hgw, hga, hdata, hcap⟩ := hg ▸ atEnd_fields f
  have hgok : g.Ok := hg ▸ hok.atEnd
  rw [← hg]
  -- Where the write is refused, the cursor has not moved.
  have hstays : (syscallFileMax < g.pos + seg.bytes.length
      ∨ g.capacity < g.pos + seg.bytes.length ∧ seg.heap = none) → g = f := by
    intro hno
    rw [hg]
    refine atEnd_eq ?_
    by_contra hmoved
    rw [not_or, Bool.not_eq_false] at hmoved
    have hend : g.pos = f.size := by
      rw [hg, atEnd, if_pos hmoved.1]
    rw [hend, hcap] at hno
    exact hcond hmoved.1 hw hnull hmoved.2 hno
  split_ifs with hmax
  · rw [hstays (.inl hmax)]
    rw [hpos] at hmax
    exact ⟨.refused (.inr (.inr (.inl hmax))), hok, fun h => absurd h hnot⟩
  rw [Nat.not_lt] at hmax
  rcases grow_cases (g.pos + seg.bytes.length) seg.heap hgok hmax with
    ⟨hnone, hheap⟩ | ⟨data, capacity, hsome, hfits, hle, hcapmax, hsame⟩
  · have hsmall : g.capacity < g.pos + seg.bytes.length := by
      by_contra hbig
      unfold grow at hnone
      rw [if_pos (by omega)] at hnone
      cases hnone
    rw [hnone]
    dsimp only
    rw [hstays (.inr ⟨hsmall, hheap⟩)]
    exact ⟨.refused (.inr (.inr (.inr hheap))), hok, fun h => absurd h hnot⟩
  · rw [hsome]
    dsimp only
    have hbytes := store_bytes seg.bytes f { g with data := data, capacity := capacity } hsize hpos
      hgw hga (fun i hi => (hsame i (hsize ▸ hi)).trans (congrFun hdata i))
    refine ⟨?_, ⟨?_, hcapmax, hmax⟩, fun _ happ => ?_⟩
    · rw [hbytes]
      exact .written hnull hw (hpos ▸ hmax)
    · show max g.size (g.pos + seg.bytes.length) ≤ capacity
      omega
    · show g.pos + seg.bytes.length = max g.size (g.pos + seg.bytes.length)
      have hend : g.pos = g.size := by
        rw [hg, atEnd, if_pos (hga ▸ happ)]
      omega

/-- A gathering write meets the condition when its first piece that is not empty does. -/
def WritevOk (segs : List FileSeg) (f : OpenFile) : Prop :=
  ∀ seg, segs.find? (fun seg => 0 < seg.bytes.length) = some seg → f.WriteOk seg

theorem writevLoop_bytes (segs : List FileSeg) (total : ℤ) (hok : f.Ok) (hcond : f.WritevOk segs) :
    f.bytes.Writev segs total (writevLoop segs total f).1 (writevLoop segs total f).2.bytes
      ∧ (writevLoop segs total f).2.Ok := by
  induction segs generalizing f total with
  | nil => exact ⟨.done _ total, hok⟩
  | cons seg segs ih =>
    unfold writevLoop
    by_cases hempty : seg.bytes.length = 0
    · rw [if_pos hempty]
      have hrest : f.WritevOk segs := by
        intro seg' hseg'
        refine hcond seg' ?_
        rw [find?_cons_of_neg (by simp [hempty]), hseg']
      obtain ⟨hw, hok'⟩ := ih total hok hrest
      exact ⟨.skip (length_eq_zero_iff.1 hempty) hw, hok'⟩
    · rw [if_neg hempty]
      have hne : seg.bytes ≠ [] := fun h => hempty (by rw [h]; rfl)
      have hfirst : f.WriteOk seg :=
        hcond seg (find?_cons_of_pos (by simpa using Nat.pos_of_ne_zero hempty))
      obtain ⟨hwrite, hok', hend⟩ := syscallFdWrite_bytes hok hfirst
      dsimp only
      by_cases hneg : (f.syscallFdWrite seg).1 < 0
      · rw [if_pos hneg]
        exact ⟨.failed hne hwrite hneg, hok'⟩
      · have hall : ¬ (f.syscallFdWrite seg).1 < seg.bytes.length := by
          -- A file takes all or nothing.
          generalize (f.syscallFdWrite seg).1 = n at hwrite hneg
          generalize (f.syscallFdWrite seg).2.bytes = s at hwrite
          cases hwrite with
          | refused h => exact absurd (by decide) hneg
          | written hnull hw hmax => exact lt_irrefl _
        rw [if_neg hneg, if_neg hall]
        have hrest : (f.syscallFdWrite seg).2.WritevOk segs :=
          fun _ _ happ _ _ hpos => absurd (hend (by omega) happ) hpos
        obtain ⟨hw, hok''⟩ := ih (total + (f.syscallFdWrite seg).1) hok' hrest
        exact ⟨.piece hne hwrite (by omega) hw, hok''⟩

/-! ### Seeking -/

theorem seekTo_bytes (hok : f.Ok) {place : ℤ} (hlo : -2 ^ 31 ≤ place) (hhi : place < 2 ^ 32) :
    (f.seekTo place).1 = (f.bytes.seekTo place).1
      ∧ (f.seekTo place).2.bytes = (f.bytes.seekTo place).2 ∧ (f.seekTo place).2.Ok := by
  have hsize := hok.size_le.trans hok.capacity_le
  have hmax : syscallFileMax < 2 ^ 31 := by decide
  have hlimit : f.bytes.limit = if f.writable then syscallFileMax else f.size := by
    unfold ByteFile.limit
    rw [bytes_length]
    rfl
  have hle : f.bytes.limit ≤ syscallFileMax := by
    rw [hlimit]
    split_ifs <;> omega
  -- A negative place wraps to a word above every limit.
  have hplace : (if f.bytes.limit < (place % 2 ^ 32).toNat then f.bytes.limit
      else (place % 2 ^ 32).toNat)
      = if 0 ≤ place ∧ place ≤ f.bytes.limit then place.toNat else f.bytes.limit := by
    split_ifs <;> omega
  unfold seekTo ByteFile.seekTo
  dsimp only
  rw [← hlimit, hplace]
  refine ⟨rfl, rfl, hok.size_le, hok.capacity_le, ?_⟩
  dsimp only
  split_ifs <;> omega

theorem sysLseek_bytes (hok : f.Ok) (offset : Word) (whence : ℤ) :
    (f.sysLseek offset whence).1 = (f.bytes.lseek offset whence).1
      ∧ (f.sysLseek offset whence).2.bytes = (f.bytes.lseek offset whence).2
      ∧ (f.sysLseek offset whence).2.Ok := by
  have hsize := hok.size_le.trans hok.capacity_le
  have hpos := hok.pos_le
  have hmax : syscallFileMax < 2 ^ 31 := by decide
  have hlo := offset.le_toInt
  have hhi := offset.toInt_lt
  unfold sysLseek ByteFile.lseek
  rw [bytes_length]
  split_ifs
  · exact seekTo_bytes hok (by omega) (by omega)
  · exact seekTo_bytes hok (by omega) (by omega)
  · exact seekTo_bytes hok (by omega) (by omega)
  · exact ⟨rfl, rfl, hok⟩

/-! ### Sequences of calls -/

/-- **The condition on a call**, read in the state before it: a read for something finds the cursor
not past the end, and a write does not move the cursor of a file opened for appending only to be
refused. -/
def CallOk (f : OpenFile) : FileCall → Prop
  | .read null len => null = true ∨ len = 0 ∨ f.pos ≤ f.size
  | .write seg => f.WriteOk seg
  | .writev none => True
  | .writev (some segs) => f.WritevOk segs
  | .lseek _ _ => True

/-- A call that meets the condition is a call of the byte file. -/
theorem call_refines (hok : f.Ok) {c : FileCall} (hcond : f.CallOk c) :
    f.bytes.Step c (f.call c).1 (f.step c).bytes ∧ (f.step c).Ok := by
  cases c with
  | read null len =>
    by_cases hnothing : null = true ∨ len = 0
    · have hsame : f.sysRead null len = ((0, []), f) := if_pos hnothing
      simp only [step, call, hsame]
      exact ⟨.readNothing hnothing, hok⟩
    · rw [not_or, Bool.not_eq_true] at hnothing
      obtain ⟨rfl, hlen⟩ := hnothing
      have hpos : f.pos ≤ f.size := by
        rcases hcond with h | h | h
        · cases h
        · exact absurd h hlen
        · exact h
      obtain ⟨hres, hbytes, hok'⟩ := sysRead_bytes hok (Nat.pos_of_ne_zero hlen) hpos
      refine ⟨?_, hok'⟩
      simp only [step, call]
      rw [hres, hbytes]
      exact .read (Nat.pos_of_ne_zero hlen)
  | write seg =>
    obtain ⟨hwrite, hok', -⟩ := syscallFdWrite_bytes hok hcond
    exact ⟨.write hwrite, hok'⟩
  | writev iov =>
    cases iov with
    | none => exact ⟨.writevNothing, hok⟩
    | some segs =>
      obtain ⟨hwrite, hok'⟩ := writevLoop_bytes segs 0 hok hcond
      exact ⟨.writev hwrite, hok'⟩
  | lseek offset whence =>
    obtain ⟨hres, hbytes, hok'⟩ := sysLseek_bytes hok offset whence
    refine ⟨?_, hok'⟩
    simp only [step, call]
    rw [hres, hbytes]
    exact .lseek

/-- **A buffered file is a byte file.** A sequence of calls that all meet the condition has results
that the byte file may have, and leaves the buffer standing for the byte file after them. -/
theorem calls_refine (hok : f.Ok) {calls : List FileCall} (hcalls : Meets CallOk step f calls) :
    f.bytes.Runs calls (f.results calls) (calls.foldl step f).bytes := by
  induction calls generalizing f with
  | nil => exact .nil _
  | cons c calls ih =>
    obtain ⟨hstep, hok'⟩ := call_refines hok hcalls.1
    exact .cons hstep (ih hok' hcalls.2)

/-- A file that was just created. -/
def created (append : Bool) : OpenFile where
  data := fun _ => 0
  size := 0
  capacity := syscallFileInitial
  pos := 0
  writable := true
  append := append
  dirty := true

theorem ok_created (append : Bool) : (created append).Ok :=
  ⟨Nat.zero_le _, (by decide : syscallFileInitial ≤ syscallFileMax), Nat.zero_le _⟩

/-- A seek past the end, a write there, and a read of the whole. -/
theorem calls_refine_gap : ∃ s,
    (created false).bytes.Runs
      [.lseek 2 0, .write ⟨false, [7], none⟩, .lseek 0 0, .read false 10]
      [(2, []), (1, []), (0, []), (3, [0, 0, 7])] s := by
  have hmeets : Meets CallOk step (created false)
      [.lseek 2 0, .write ⟨false, [7], none⟩, .lseek 0 0, .read false 10] :=
    ⟨trivial, fun happ => absurd happ (by decide), trivial, .inr (.inr (by decide +kernel)), trivial⟩
  have hresults : (created false).results
      [.lseek 2 0, .write ⟨false, [7], none⟩, .lseek 0 0, .read false 10]
      = [(2, []), (1, []), (0, []), (3, [0, 0, 7])] := by decide +kernel
  exact ⟨_, hresults ▸ calls_refine (ok_created false) hmeets⟩

/-- **A read past the end**: one byte past the end of an empty file it finds a byte. -/
theorem read_past_end : ¬ ∃ s, (created false).bytes.Runs [.lseek 1 0, .read false 1]
    ((created false).results [.lseek 1 0, .read false 1]) s := by
  have hresults : (created false).results [.lseek 1 0, .read false 1] = [(1, []), (1, [0])] := by
    decide +kernel
  rw [hresults]
  rintro ⟨s, h⟩
  obtain ⟨s₁, hseek, s₂, hread⟩ : ∃ s₁, (created false).bytes.Step (.lseek 1 0) (1, []) s₁
      ∧ ∃ s₂, s₁.Step (.read false 1) (1, [0]) s₂ := by
    cases h with
    | cons hseek hrest =>
      cases hrest with
      | cons hread _ => exact ⟨_, hseek, _, hread⟩
  have hs₁ := hseek.lseek_eq
  have hr := hread.read_eq (by decide)
  rw [hs₁] at hr
  exact absurd hr (by decide +kernel)

end OpenFile

end Makar
