import Mathlib
import Makar.Buffer
import Makar.Runs
import Makar.Vfs

/-!
# Files in memory

`tmpfs.c` keeps its files in a list of records, each with a buffer of its own. A write makes the
record of a new file before it looks at the length and asks for the buffer. Where one of these
fails the record stays, and there is an empty file that no write has made
(`failed_write_creates`). `tmpfs_refines_iff` says that in all other respects the files are a
map from names to bytes.
-/

namespace Makar

open Buf List
open Function (update update_self update_of_ne update_idem)

/-- `TMPFS_NAME_MAX`. -/
def tmpfsNameMax : ℕ := 256

/-- `TMPFS_FILE_MAX`. -/
def tmpfsFileMax : ℕ := 16 * 1024 * 1024

/-- `tmpfile_t`, without the namespace and the name. -/
structure TmpFile where
  buf : Buf
  cap : ℕ
  len : ℕ

/-- `s_files`. A record is made only for a name that has none, so that no two of the list have
the same namespace and name. -/
abbrev TmpFiles := AList fun _ : ℤ × CStr => TmpFile

namespace Tmpfs

/-- `leaf_name`. -/
def leafName : CStr → Option CStr
  | '/' :: c :: rest => some (c :: rest)
  | _ => none

/-- `find_or_create`, by the answer of `kmalloc`: the record, and the list with it. -/
def findOrCreate (k : ℤ × CStr) (recordOk : Bool) (files : TmpFiles) : Option (TmpFile × TmpFiles) :=
  match files.lookup k with
  | some f => some (f, files)
  | none =>
    if tmpfsNameMax ≤ k.2.length ∨ recordOk = false then none
    else some (⟨zero, 0, 0⟩, files.insert k ⟨zero, 0, 0⟩)

/-- `tmpfs_write`, by the answers of `kmalloc` and `krealloc`. The record comes to the front of
the list when it is written to, which no call here can tell. -/
def tmpfsWrite (ns : ℤ) (path : CStr) (bytes : List UInt8) (recordOk bufOk : Bool)
    (files : TmpFiles) : Option ℕ × TmpFiles :=
  match leafName path with
  | none => (none, files)
  | some name =>
    match findOrCreate (ns, name) recordOk files with
    | none => (none, files)
    | some (f, files) =>
      if tmpfsFileMax < bytes.length then (none, files)
      else if f.cap < bytes.length ∧ bufOk = false then (none, files)
      else (some bytes.length, files.insert (ns, name)
        ⟨blit f.buf 0 bytes, max f.cap bytes.length, bytes.length⟩)

/-- `tmpfs_read`. -/
def tmpfsRead (ns : ℤ) (path : CStr) (bufsz : ℕ) (files : TmpFiles) : Option (List UInt8) :=
  ((leafName path).bind fun name => files.lookup (ns, name)).map fun f =>
    slice f.buf 0 (if f.len < bufsz then f.len else bufsz)

/-- `tmpfs_delete`. -/
def tmpfsDelete (ns : ℤ) (path : CStr) (files : TmpFiles) : Bool × TmpFiles :=
  match leafName path with
  | none => (false, files)
  | some name =>
    if (files.lookup (ns, name)).isSome then (true, files.erase (ns, name)) else (false, files)

inductive Call where
  | write (ns : ℤ) (path : CStr) (bytes : List UInt8) (recordOk bufOk : Bool)
  | read (ns : ℤ) (path : CStr) (bufsz : ℕ)
  | delete (ns : ℤ) (path : CStr)

def step (files : TmpFiles) : Call → TmpFiles
  | .write ns path bytes recordOk bufOk => (tmpfsWrite ns path bytes recordOk bufOk files).2
  | .read .. => files
  | .delete ns path => (tmpfsDelete ns path files).2

/-! ## The map -/

/-- What a name holds. -/
def contents (files : TmpFiles) (k : ℤ × CStr) : Option (List UInt8) :=
  (files.lookup k).map fun f => slice f.buf 0 f.len

/-- **A call is one on the map**: a write sets its key or nothing, a read returns the front of
what is there, and a delete takes the key away. -/
def Refined (files : TmpFiles) : Call → Prop
  | .write ns path bytes recordOk bufOk =>
    match tmpfsWrite ns path bytes recordOk bufOk files with
    | (none, files') => contents files' = contents files
    | (some n, files') => n = bytes.length ∧ ∃ name, leafName path = some name
      ∧ contents files' = update (contents files) (ns, name) (some bytes)
  | .read ns path bufsz => tmpfsRead ns path bufsz files
      = (leafName path).bind fun name => (contents files (ns, name)).map (take bufsz)
  | .delete ns path =>
    match leafName path with
    | none => tmpfsDelete ns path files = (false, files)
    | some name => (tmpfsDelete ns path files).1 = (contents files (ns, name)).isSome
      ∧ contents (tmpfsDelete ns path files).2 = update (contents files) (ns, name) none

/-- A write that makes a record does not fail after that. -/
def Finishes (files : TmpFiles) : Call → Prop
  | .write ns path bytes recordOk bufOk => ∀ name, leafName path = some name →
    contents files (ns, name) = none → name.length < tmpfsNameMax → recordOk = true →
      bytes.length ≤ tmpfsFileMax ∧ (bytes = [] ∨ bufOk = true)
  | _ => True

variable {files : TmpFiles} {k : ℤ × CStr}

theorem contents_insert (f : TmpFile) :
    contents (files.insert k f) = update (contents files) k (some (slice f.buf 0 f.len)) := by
  funext k'
  by_cases hk : k' = k
  · subst hk
    simp [contents]
  · rw [update_of_ne hk, contents, contents, AList.lookup_insert_ne hk]

theorem contents_erase : contents (files.erase k) = update (contents files) k none := by
  funext k'
  by_cases hk : k' = k
  · subst hk
    simp [contents]
  · rw [update_of_ne hk, contents, contents, AList.lookup_erase_ne hk]

theorem take_slice {b : Buf} {n m : ℕ} :
    (slice b 0 n).take m = slice b 0 (if n < m then n else m) := by
  rw [slice, ← map_take, take_range, slice]
  congr 2
  split_ifs <;> omega

theorem refined_write_iff (ns : ℤ) (path : CStr) (bytes : List UInt8) (recordOk bufOk : Bool) :
    Refined files (.write ns path bytes recordOk bufOk)
      ↔ Finishes files (.write ns path bytes recordOk bufOk) := by
  simp only [Refined, Finishes, tmpfsWrite]
  cases leafName path with
  | none => simp
  | some name =>
    simp only [findOrCreate, Option.some.injEq, forall_eq']
    cases hfind : files.lookup (ns, name) with
    | some f =>
      -- the record is there, and a write that fails leaves it
      have hsome : contents files (ns, name) ≠ none := by simp [contents, hfind]
      dsimp only
      split_ifs
      · simp [hsome]
      · simp [hsome]
      · simp [hsome, contents_insert, slice_blit]
    | none =>
      have hnone : contents files (ns, name) = none := by rw [contents, hfind, Option.map_none]
      have hempty : contents (files.insert (ns, name) ⟨zero, 0, 0⟩) ≠ contents files := by
        intro h
        have := congrFun h (ns, name)
        rw [hnone, contents_insert, update_self] at this
        cases this
      by_cases hmake : tmpfsNameMax ≤ name.length ∨ recordOk = false
      · simp only [if_pos hmake]
        grind
      · simp only [if_neg hmake]
        split_ifs with hlong hbuf
        · grind
        · grind
        · simp only [contents_insert, update_idem, slice_blit]
          grind

/-- **The files are a map exactly as long as no write fails after it has made a record.** -/
theorem tmpfs_refines_iff (files : TmpFiles) (calls : List Call) :
    Meets Refined step files calls ↔ Meets Finishes step files calls := by
  have hiff : Refined = Finishes := by
    funext files c
    cases c with
    | write ns path bytes recordOk bufOk => exact propext (refined_write_iff ..)
    | read ns path bufsz =>
      refine propext ⟨fun _ => trivial, fun _ => ?_⟩
      simp only [Refined, tmpfsRead]
      cases leafName path with
      | none => rfl
      | some name => simp [contents, take_slice, Function.comp_def]
    | delete ns path =>
      refine propext ⟨fun _ => trivial, fun _ => ?_⟩
      simp only [Refined, tmpfsDelete]
      cases leafName path with
      | none => rfl
      | some name =>
        dsimp only
        split_ifs with h
        · exact ⟨by simp [contents, h], contents_erase⟩
        · have hnone : contents files (ns, name) = none := by
            rw [contents, Option.not_isSome_iff_eq_none.1 h, Option.map_none]
          exact ⟨by simp [hnone], by rw [← hnone, Function.update_eq_self]⟩
  rw [hiff]

/-- **A write that fails makes a file.** -/
theorem failed_write_creates : ¬ Meets Refined step ∅ [.write 0 "/a".toList [1] true false] :=
  fun h => absurd (congrFun h.1 (0, ['a'])) (by decide)

end Tmpfs

end Makar
