import Mathlib.Tactic

/-!
# Paths, mounts and files

The part of `fs/vfs.c` that decides which file a path names. A path is resolved
against the working directory of the calling task and normalised
(`path_resolve`), the longest mountpoint that is a prefix of the result selects a
mount (`vfs_route`), and the driver of the mount looks the rest up.

The drivers are here what the calls above them see: `Files` is what they return
for a path within a mount. They compare names each in their own way, `fat32.c`
without regard to case and by the long or the short name, and one volume can be
mounted twice, so a change of one file may change the answer for many paths.
-/

namespace Makar

open List

/-- A string, without its terminating zero. -/
abbrev CStr := List Char

/-- The contents of a file, or a part of them. -/
abbrev Bytes := List UInt8

/-- `VFS_PATH_MAX`. -/
def vfsPathMax : ℕ := 256

/-! ## `path_normalize` and `path_resolve` -/

/-- The local state of `path_normalize`: what is written to the output, and the
stack of the positions at which its components start. -/
structure NormState where
  /-- `out`, up to `olen`. -/
  out : CStr
  /-- `comp_start`, the top first. -/
  compStart : List ℕ
  deriving DecidableEq, Repr

/-- A segment of the path: nothing for an empty one or a dot, a component less
for two dots, a component more otherwise, cut off where the buffer ends. -/
def normSegment (s : NormState) (seg : CStr) : NormState :=
  if seg = [] ∨ seg = ['.'] then s
  else if seg = ['.', '.'] then
    match s.compStart with
    | [] => s
    | start :: rest => ⟨s.out.take start, rest⟩
  else
    let starts :=
      if s.compStart.length < vfsPathMax / 2 then s.out.length :: s.compStart else s.compStart
    let out :=
      if 1 < s.out.length ∧ s.out.length < vfsPathMax - 1 then s.out ++ ['/'] else s.out
    ⟨out ++ seg.take (vfsPathMax - 1 - out.length), starts⟩

/-- `path_normalize`. -/
def pathNormalize (path : CStr) : CStr :=
  ((path.splitOn '/').foldl normSegment ⟨['/'], []⟩).out

/-- `path_resolve`, with the working directory of the calling task. -/
def pathResolve (cwd path : CStr) : CStr :=
  match path with
  | [] => pathNormalize cwd
  | '/' :: _ => pathNormalize path
  | _ =>
    if cwd.length + 1 + path.length + 1 ≤ vfsPathMax * 2 then pathNormalize (cwd ++ '/' :: path)
    else pathNormalize ['/']

/-! ## `vfs_route` -/

/-- `vfs_backend_t`. -/
inductive VfsBackend where
  | none | ext2 | fat32 | iso9660 | devfs | procfs | tmpfs | logfs
  deriving DecidableEq, Repr

/-- `fs_backend_disk`. -/
def fsBackendDisk : VfsBackend → Bool
  | .ext2 | .fat32 | .iso9660 => true
  | _ => false

/-- An entry of the mount table (`vfs_mount_t`). -/
structure VfsMount where
  /-- `mountpoint`. -/
  mountpoint : CStr
  /-- `backend`. -/
  backend : VfsBackend
  /-- `drive`. -/
  drive : ℕ
  deriving DecidableEq, Repr

/-- A turn of the loop of `vfs_route`: the best match so far and its length. -/
def routeStep (abs : CStr) (best : Option VfsMount × ℕ) (m : VfsMount) : Option VfsMount × ℕ :=
  if m.mountpoint = ['/'] then
    if best.1 = .none then (some m, 1) else best
  else if ¬ m.mountpoint <+: abs then best
  else
    match abs.drop m.mountpoint.length with
    | [] => if best.2 < m.mountpoint.length then (some m, m.mountpoint.length) else best
    | c :: _ =>
      if c = '/' ∧ best.2 < m.mountpoint.length then (some m, m.mountpoint.length) else best

/-- `vfs_route`: the mount of an absolute path and the path within it, or none
when no mount covers it. -/
def vfsRoute (mounts : List VfsMount) (abs : CStr) : Option (VfsMount × CStr) :=
  match (mounts.foldl (routeStep abs) (.none, 0)).1 with
  | .none => .none
  | some m =>
    if m.mountpoint = ['/'] then some (m, abs)
    else
      match abs.drop m.mountpoint.length with
      | '/' :: rest => some (m, '/' :: rest)
      | _ => some (m, ['/'])

/-! ## The mount that is chosen -/

/-- The mountpoint is the path, or a prefix of it that ends where a component does; the root is
above every path. -/
def VfsMount.Covers (m : VfsMount) (abs : CStr) : Prop :=
  m.mountpoint = ['/'] ∨ m.mountpoint = abs ∨ m.mountpoint ++ ['/'] <+: abs

/-- A path within a mount, put behind its mountpoint. -/
def joinPath (mountpoint drv : CStr) : CStr :=
  if mountpoint = ['/'] then drv else if drv = ['/'] then mountpoint else mountpoint ++ drv

/-- A normalised absolute path: the root, or names that are not empty and no dots. -/
def NormalPath (abs : CStr) : Prop :=
  abs = ['/'] ∨ ∃ names : List CStr, names ≠ []
    ∧ (∀ n ∈ names, n ≠ [] ∧ '/' ∉ n ∧ n ≠ ['.'] ∧ n ≠ ['.', '.'])
    ∧ abs = names.flatMap ('/' :: ·)

variable {abs : CStr} {l : List VfsMount} {b : Option VfsMount × ℕ}

/-- Only the root ends with a slash. -/
theorem NormalPath.ne_append {p : CStr} (h : NormalPath abs) (hp : p ≠ []) : abs ≠ p ++ ['/'] := by
  rintro rfl
  rcases h with h | ⟨names, hne, hn, h⟩
  · exact hp (append_inj' h rfl).1
  · obtain ⟨init, last, rfl⟩ := (eq_nil_or_concat' names).resolve_left hne
    obtain ⟨hlast, hslash, -⟩ := hn last (by simp)
    obtain ⟨q, c, rfl⟩ := (eq_nil_or_concat' last).resolve_left hlast
    have heq : p ++ ['/'] = (init.flatMap ('/' :: ·) ++ '/' :: q) ++ [c] := by simpa using h
    have hc : '/' = c := head_eq_of_cons_eq (append_inj' heq rfl).2
    exact hslash (hc ▸ by simp)

/-- A turn takes a mount that covers the path and is longer, and keeps the best one otherwise. -/
theorem routeStep_cases (hb : b.1 = none ↔ b.2 = 0) (m : VfsMount) :
    m.Covers abs ∧ b.2 < m.mountpoint.length ∧ routeStep abs b m = (some m, m.mountpoint.length)
      ∨ (m.Covers abs → m.mountpoint.length ≤ b.2) ∧ routeStep abs b m = b := by
  unfold routeStep VfsMount.Covers
  generalize m.mountpoint = mp
  by_cases hroot : mp = ['/']
  · subst hroot
    by_cases hnone : b.1 = none
    · simp [hnone, hb.1 hnone]
    · have := mt hb.2 hnone
      simp [hnone]
      omega
  rw [if_neg hroot]
  by_cases hpre : mp <+: abs
  · obtain ⟨rest, rfl⟩ := hpre
    rw [if_neg (not_not.2 (prefix_append _ _)), drop_left]
    have hcovers : (mp = ['/'] ∨ mp = mp ++ rest ∨ mp ++ ['/'] <+: mp ++ rest)
        ↔ rest = [] ∨ ['/'] <+: rest := by
      simp [hroot, prefix_append_right_inj]
    rw [hcovers]
    cases rest with
    | nil => grind
    | cons c rest => grind
  · rw [if_pos hpre]
    refine .inr ⟨?_, rfl⟩
    rintro (hc | hc | hc)
    · exact absurd hc hroot
    · exact absurd (hc ▸ prefix_rfl) hpre
    · exact absurd ((prefix_append _ _).trans hc) hpre

/-- The best match among the mounts that were looked at. -/
structure BestMount (abs : CStr) (l : List VfsMount) (b : Option VfsMount × ℕ) : Prop where
  none_iff : b.1 = none ↔ b.2 = 0
  chosen : ∀ m, b.1 = some m → m ∈ l ∧ m.Covers abs ∧ m.mountpoint.length = b.2
  longest : ∀ m ∈ l, m.Covers abs → m.mountpoint.length ≤ b.2

theorem BestMount.foldl (ms : List VfsMount) (h : BestMount abs l b) :
    BestMount abs (l ++ ms) (ms.foldl (routeStep abs) b) := by
  induction ms generalizing l b with
  | nil => rwa [append_nil]
  | cons m ms ih =>
    rw [foldl_cons, append_cons]
    refine ih ?_
    rcases routeStep_cases h.none_iff m with ⟨hc, hlt, heq⟩ | ⟨hc, heq⟩ <;> rw [heq]
    · refine ⟨by simp only [reduceCtorEq, false_iff]; omega, by simp [hc], fun m' hm' hc' => ?_⟩
      rcases mem_append.1 hm' with hm' | hm'
      · exact (h.longest m' hm' hc').trans hlt.le
      · rw [mem_singleton.1 hm']
    · refine ⟨h.none_iff, fun m' hm' => ?_, fun m' hm' hc' => ?_⟩
      · exact ⟨mem_append_left _ (h.chosen m' hm').1, (h.chosen m' hm').2⟩
      · rcases mem_append.1 hm' with hm' | hm'
        · exact h.longest m' hm' hc'
        · obtain rfl := mem_singleton.1 hm'
          exact hc hc'

/-- **The longest mountpoint above the path is chosen**, and the path within the mount is what is
left of it. -/
theorem vfsRoute_longest (mounts : List VfsMount) (abs : CStr)
    (hroot : ∃ m ∈ mounts, m.mountpoint = ['/']) (habs : NormalPath abs) :
    ∃ m drv, vfsRoute mounts abs = some (m, drv) ∧ m ∈ mounts ∧ m.Covers abs
      ∧ (∀ m' ∈ mounts, m'.Covers abs → m'.mountpoint.length ≤ m.mountpoint.length)
      ∧ joinPath m.mountpoint drv = abs := by
  have hbest : BestMount abs mounts (mounts.foldl (routeStep abs) (none, 0)) :=
    BestMount.foldl mounts (l := []) ⟨by simp, by simp, by simp⟩
  unfold vfsRoute
  generalize mounts.foldl (routeStep abs) (none, 0) = b at hbest
  obtain ⟨r, hr, hr1⟩ := hroot
  have hpos : 1 ≤ b.2 := by
    have := hbest.longest r hr (.inl hr1)
    rwa [hr1] at this
  obtain ⟨m, hm⟩ := Option.ne_none_iff_exists'.1 fun h => by have := hbest.none_iff.1 h; omega
  obtain ⟨hmem, hcov, hlen⟩ := hbest.chosen m hm
  rw [hm]
  dsimp only
  have hlongest := hbest.longest
  rw [← hlen] at hpos hlongest
  by_cases hslash : m.mountpoint = ['/']
  · exact ⟨m, abs, if_pos hslash, hmem, hcov, hlongest, if_pos hslash⟩
  rw [if_neg hslash]
  unfold joinPath
  rcases id hcov with hc | hc | ⟨rest, hc⟩
  · exact absurd hc hslash
  · refine ⟨m, ['/'], ?_, hmem, hcov, hlongest, ?_⟩
    · rw [← hc, drop_length]
    · rw [if_neg hslash, if_pos rfl, hc]
  · have hrest : '/' :: rest ≠ ['/'] := by
      rintro h
      obtain rfl := tail_eq_of_cons_eq h
      exact habs.ne_append (ne_nil_of_length_pos hpos) (by simpa using hc.symm)
    rw [append_assoc] at hc
    refine ⟨m, '/' :: rest, ?_, hmem, hcov, hlongest, ?_⟩
    · rw [← hc, drop_left]
      rfl
    · rw [if_neg hslash, if_neg hrest]
      exact hc

/-- A name that begins with the name of a mount is not below it. -/
theorem vfsRoute_longest_of_names :
    let mounts := [⟨"/mnt/ab".toList, .fat32, 0⟩, ⟨"/".toList, .ext2, 0⟩, ⟨"/mnt".toList, .tmpfs, 1⟩]
    vfsRoute mounts "/mnt/abc".toList = some (⟨"/mnt".toList, .tmpfs, 1⟩, "/abc".toList) ∧
    ∃ m drv, vfsRoute mounts "/mnt/abc".toList = some (m, drv) ∧ m ∈ mounts
      ∧ m.Covers "/mnt/abc".toList
      ∧ (∀ m' ∈ mounts, m'.Covers "/mnt/abc".toList → m'.mountpoint.length ≤ m.mountpoint.length)
      ∧ joinPath m.mountpoint drv = "/mnt/abc".toList :=
  ⟨by decide, vfsRoute_longest _ _ (by decide)
    (.inr ⟨["mnt".toList, "abc".toList], by decide, by decide, by decide⟩)⟩

/-! ## Files -/

/-- What the drivers answer: the contents of the file that a path within a mount
leads to. -/
abbrev Files := VfsMount → CStr → Option Bytes

/-- What the drivers do with the files. Which paths lead to one file, and so for
which paths a change is seen, is for them to say. -/
structure Driver where
  /-- A file is written or deleted: what is left in it is the new contents,
  nothing, or after an error whatever the driver had got to. -/
  change : VfsMount → CStr → Option Bytes → Files → Files
  /-- An entry is renamed, or not after an error. -/
  move : VfsBackend → CStr → CStr → Bool → Files → Files

end Makar
