import Makar.Inflate
import Makar.Vfs

/-!
# `unzip_archive`

The model of `fs/unzip.c`. The archive is in memory and adversarial. The end record is found
by a search from the end, the central directory is walked from there, and every entry whose
name passes `name_is_unsafe` is written below the destination directory.

What the function does to the file system is a list of calls: the directories along the way to
an entry, and the entry itself. A name is an array of bytes with a length, and the calls get a
pointer into a buffer, so that the path a call sees ends at the first zero in it (`cstr`).

The outside world says for every entry whether the heap has room for its data. Whether a call
of the file system succeeds decides only the counts that are returned.
-/

namespace Makar

/-- `ZIP_EOCD_SIG`. -/
def zipEocdSig : ℕ := 0x06054b50

/-- `ZIP_CEN_SIG`. -/
def zipCenSig : ℕ := 0x02014b50

/-- `ZIP_LOC_SIG`. -/
def zipLocSig : ℕ := 0x04034b50

/-- An archive in memory. -/
structure Archive where
  /-- `zip`. -/
  zip : ℕ → UInt8
  /-- `len`. -/
  len : ℕ

namespace Archive

/-- `rd16`. -/
def rd16 (a : Archive) (p : ℕ) : ℕ := (a.zip p).toNat + (a.zip (p + 1)).toNat * 2 ^ 8

/-- `rd32`. -/
def rd32 (a : Archive) (p : ℕ) : ℕ := a.rd16 p + a.rd16 (p + 2) * 2 ^ 16

end Archive

/-- An entry of the central directory. -/
structure ZipEntry where
  /-- `method`. -/
  method : ℕ
  /-- `csize`. -/
  csize : ℕ
  /-- `usize`. -/
  usize : ℕ
  /-- `elen + clen`: what follows the name. -/
  tail : ℕ
  /-- `lh_off`. -/
  lhOff : ℕ
  /-- `name`, all `nlen` bytes of it. -/
  name : CStr
  deriving DecidableEq, Repr

/-- A call of the file system. -/
inductive UnzipCall where
  /-- `vfs_mkdir`. -/
  | mkdir (path : CStr)
  /-- `vfs_write_file`. -/
  | writeFile (path : CStr) (data : Bytes)
  deriving DecidableEq, Repr

/-- The path of a call. -/
def UnzipCall.path : UnzipCall → CStr
  | .mkdir path => path
  | .writeFile path _ => path

/-! ## Names -/

/-- The characters in front of the first zero: what a callee sees of a buffer. -/
def cstr (buf : CStr) : CStr := buf.takeWhile (· ≠ '\x00')

/-- The test of `name_is_unsafe` at a position. -/
def unsafeAt (name : CStr) (i : ℕ) : Bool :=
  name.getD i '\x00' = '\\'
    || (name.getD i '\x00' = '.' && decide (i + 1 < name.length) && name.getD (i + 1) '\x00' = '.'
      && (i = 0 || name.getD (i - 1) '\x00' = '/')
      && (i + 2 = name.length || name.getD (i + 2) '\x00' = '/'))

/-- `name_is_unsafe`. -/
def nameIsUnsafe (name : CStr) : Bool :=
  name.isEmpty || name.getD 0 '\x00' = '/' || name.getD 0 '\x00' = '\\'
    || (List.range name.length).any (unsafeAt name)

/-- `make_parent_dirs`: the directories it makes. -/
def makeParentDirs (path : CStr) : List CStr :=
  (List.range (min path.length (vfsPathMax - 1))).filterMap fun i =>
    if path.getD i '\x00' = '/' ∧ 0 < i then some (path.take i) else none

/-- The directory and the separator in `build_dest`. -/
def destBase (destdir : CStr) : CStr :=
  let d := destdir.take (vfsPathMax - 1)
  if d ≠ [] ∧ d.getLast? ≠ some '/' ∧ d.length < vfsPathMax - 1 then d ++ ['/'] else d

/-- `build_dest`: the buffer, or none where it would overflow or is empty. -/
def buildDest (destdir name : CStr) : Option CStr :=
  let d := destBase destdir ++ name.take (vfsPathMax - 1 - (destBase destdir).length)
  if vfsPathMax - 1 ≤ d.length ∨ d = [] then none else some d

/-! ## The central directory -/

namespace Archive

/-- The entry at a position. -/
def entryAt (a : Archive) (p : ℕ) : ZipEntry where
  method := a.rd16 (p + 10)
  csize := a.rd32 (p + 20)
  usize := a.rd32 (p + 24)
  tail := a.rd16 (p + 30) + a.rd16 (p + 32)
  lhOff := a.rd32 (p + 42)
  name := (List.range (a.rd16 (p + 28))).map fun i => Char.ofNat (a.zip (p + 46 + i)).toNat

/-- The walk: the entries it reaches. The next one is found in the same way whatever becomes of
an entry. -/
def walk (a : Archive) : ℕ → ℕ → List ZipEntry
  | 0, _ => []
  | n + 1, p =>
    if a.len < (p + 46) % 2 ^ 32 ∨ a.rd32 p ≠ zipCenSig then []
    else
      let e := a.entryAt p
      if a.len < (p + 46 + e.name.length) % 2 ^ 32 then []
      else e :: a.walk n ((p + 46 + e.name.length + e.tail) % 2 ^ 32)

/-- The end record, searched from the end. -/
def eocd (a : Archive) : Option ℕ :=
  let limit := if 22 + 65535 < a.len then a.len - 22 - 65535 else 0
  ((List.range (a.len - 22 - limit + 1)).map fun k => a.len - 22 - k).find?
    fun i => a.rd32 i = zipEocdSig

/-- The entries, or none where the archive is not valid. -/
def entries (a : Archive) : Option (List ZipEntry) :=
  if a.len < 22 then none
  else
    match a.eocd with
    | none => none
    | some i =>
      if a.len ≤ a.rd32 (i + 16) then none else some (a.walk (a.rd16 (i + 10)) (a.rd32 (i + 16)))

/-! ## Entries -/

/-- Where the data of an entry are, by its local header. -/
def dataOff (a : Archive) (e : ZipEntry) : Option ℕ :=
  if a.len < (e.lhOff + 30) % 2 ^ 32 ∨ a.rd32 e.lhOff ≠ zipLocSig then none
  else
    let off := (e.lhOff + 30 + a.rd16 (e.lhOff + 26) + a.rd16 (e.lhOff + 28)) % 2 ^ 32
    if a.len < off + e.csize then none else some off

/-- The data of an entry: as they are, or through `inflate_raw`, for which the heap must have
room. -/
def dataOf (a : Archive) (room : Bool) (e : ZipEntry) : Option Bytes :=
  match a.dataOff e with
  | none => none
  | some off =>
    if e.method = 0 then
      if e.csize ≠ e.usize then none else some ((List.range e.usize).map fun i => a.zip (off + i))
    else if e.method = 8 then
      if room then
        match inflateRaw ⟨fun i => a.zip (off + i), e.csize, e.usize⟩ (fun _ => 0)
          (8 * e.csize + 1) with
        | .ok (rc, s) =>
          if rc = 0 ∧ s.dstPos = e.usize then some ((List.range e.usize).map s.dst) else none
        | .error _ => none
      else none
    else none

/-- The call that makes an entry, at the path in the buffer: a directory or a file. -/
def makeEntry (a : Archive) (room : Bool) (e : ZipEntry) (path : CStr) : Option UnzipCall :=
  if e.name.getLast? = some '/' then some (.mkdir path)
  else (a.dataOf room e).map (.writeFile path)

end Archive

/-- The path of an entry that is in the buffer: without the separator at the end. -/
def ZipEntry.path (e : ZipEntry) (dest : CStr) : CStr :=
  cstr (if e.name.getLast? = some '/' then dest.dropLast else dest)

namespace Archive

/-- The calls for an entry: the directories along the way and the entry itself. -/
def entryCalls (a : Archive) (room : Bool) (destdir : CStr) (e : ZipEntry) : List UnzipCall :=
  if nameIsUnsafe e.name then []
  else
    match buildDest destdir e.name with
    | none => []
    | some dest =>
      (makeParentDirs (e.path dest)).map .mkdir ++ (a.makeEntry room e (e.path dest)).toList

/-- The calls of the whole function, with the room in the heap at every entry. -/
def calls (a : Archive) (room : ℕ → Bool) (destdir : CStr) : List UnzipCall :=
  ((a.entries.getD []).zipIdx).flatMap fun x => a.entryCalls (room x.2) destdir x.1

/-- What becomes of an entry in the counts: written, failed, or neither for a directory. -/
def entryCount (a : Archive) (room ok : Bool) (destdir : CStr) (e : ZipEntry) : ℕ × ℕ :=
  if nameIsUnsafe e.name ∨ buildDest destdir e.name = none then (0, 1)
  else if e.name.getLast? = some '/' then (0, 0)
  else if (a.dataOf room e).isSome && ok then (1, 0)
  else (0, 1)

/-- **`unzip_archive`**: the number of files that were written and of entries that failed, none
for an archive that is not valid, and the calls it made. -/
def unzipArchive (a : Archive) (room ok : ℕ → Bool) (destdir : CStr) :
    Option (ℕ × ℕ) × List UnzipCall :=
  (a.entries.map fun es =>
    (es.zipIdx.map fun x => a.entryCount (room x.2) (ok x.2) destdir x.1).sum,
    a.calls room destdir)

end Archive

end Makar
