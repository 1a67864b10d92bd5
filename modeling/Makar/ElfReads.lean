import Makar.Buffer

/-!
# What `elf_exec` reads and maps

The loader reads an executable whole into a buffer and then believes what is in it. It checks
the header, that the table of program headers is in the file, that every segment is above the
kernel and that its bytes are in the file. The checks add in 32 bits. For the interpreter of a
dynamic image, which goes through the same loop over its segments, the table is not checked at
all, and no check has an upper end for the addresses.

What follows from that is said of the runs that get to user mode: the pieces of each file that
were read, an offset and a size, and the pages that were mapped. A run that ends with an error
is one that rejects the file. The bytes around the file are those of the memory around the
buffer, so a file is a function on all offsets together with its size.
-/

namespace Makar

open List Nat

/-- A file in the staging buffer. -/
structure ElfFile where
  /-- `s_elf_buf`, and what is around it. -/
  buf : Buf
  /-- `filesz`. -/
  size : ℕ
  /-- `ELF_BUF_MAX`. -/
  le : size ≤ 2 * 1024 * 1024

namespace ElfFile

variable {f : ElfFile} {base q i : ℕ}

/-! ## Headers -/

/-- `e_type`. -/
def eType (f : ElfFile) : ℕ := f.buf.rd16 16

/-- `e_phoff`. -/
def phoff (f : ElfFile) : ℕ := f.buf.rd32 28

/-- `e_phentsize`. -/
def phentsize (f : ElfFile) : ℕ := f.buf.rd16 42

/-- `e_phnum`. -/
def phnum (f : ElfFile) : ℕ := f.buf.rd16 44

/-- The offset of a program header. -/
def phdr (f : ElfFile) (i : ℕ) : ℕ := f.phoff + i * f.phentsize

/-- The checks of the header of the program: the magic number, the class, the byte order,
`e_type`, `e_machine`, the program headers and `e_entry`. -/
def HeaderOk (f : ElfFile) : Prop :=
  52 ≤ f.size ∧ f.buf.slice 0 6 = [0x7F, 0x45, 0x4C, 0x46, 1, 1] ∧ (f.eType = 2 ∨ f.eType = 3)
    ∧ f.buf.rd16 18 = 3 ∧ f.phnum ≠ 0 ∧ 32 ≤ f.phentsize
    ∧ (f.phoff + f.phnum * f.phentsize) % 2 ^ 32 ≤ f.size
    ∧ (f.eType = 2 → 0x10000000 ≤ f.buf.rd32 24)

/-- The checks of the header of an interpreter. -/
def InterpOk (f : ElfFile) : Prop :=
  52 ≤ f.size ∧ f.buf 0 = 0x7F ∧ f.buf.rd16 18 = 3 ∧ f.eType = 3

instance (f : ElfFile) : Decidable f.HeaderOk := inferInstanceAs (Decidable (_ ∧ _))

instance (f : ElfFile) : Decidable f.InterpOk := inferInstanceAs (Decidable (_ ∧ _))

/-- `load_base`. -/
def loadBase (f : ElfFile) : ℕ := if f.eType = 3 then 0x50000000 else 0

/-! ## Segments -/

/-- The header at an offset is that of a `PT_LOAD` segment with memory. -/
def Loads (f : ElfFile) (q : ℕ) : Prop := f.buf.rd32 q = 1 ∧ f.buf.rd32 (q + 20) ≠ 0

instance (f : ElfFile) (q : ℕ) : Decidable (f.Loads q) := inferInstanceAs (Decidable (_ ∧ _))

/-- `vaddr`. -/
def vaddr (f : ElfFile) (base q : ℕ) : ℕ := (f.buf.rd32 (q + 8) + base) % 2 ^ 32

/-- The first page. -/
def first (f : ElfFile) (base q : ℕ) : ℕ := f.vaddr base q / 4096 * 4096

/-- `end`, rounded up to a page in 32 bits. -/
def stop (f : ElfFile) (base q : ℕ) : ℕ :=
  ((f.vaddr base q + f.buf.rd32 (q + 20)) % 2 ^ 32 + 4095) % 2 ^ 32 / 4096 * 4096

/-- The pages of a segment. The last one ends below `2 ^ 32`, so `va` does not wrap. -/
def segPages (f : ElfFile) (base q : ℕ) : List ℕ :=
  (List.range ((f.stop base q - f.first base q) / 4096)).map fun j => f.first base q + 4096 * j

/-- What is copied from the file to a page. -/
def copyReads (f : ElfFile) (base q va : ℕ) : List (ℕ × ℕ) :=
  let copyFrom := max (f.vaddr base q) va
  let copyTo := min ((f.vaddr base q + f.buf.rd32 (q + 16)) % 2 ^ 32) (va + 4096)
  if copyFrom < copyTo then
    [((f.buf.rd32 (q + 4) + (copyFrom - f.vaddr base q)) % 2 ^ 32, copyTo - copyFrom)]
  else []

/-- What a turn of `map_load_segments` reads: the fields of the header and the data. -/
def segReads (f : ElfFile) (base q : ℕ) : List (ℕ × ℕ) :=
  (q, 4) ::
    if f.buf.rd32 q ≠ 1 then []
    else (q + 20, 4) ::
      if f.buf.rd32 (q + 20) = 0 then []
      else [(q + 8, 4), (q + 4, 4), (q + 16, 4), (q + 24, 4)]
        ++ (f.segPages base q).flatMap (f.copyReads base q)

/-- The checks of a segment. -/
def Accepts (f : ElfFile) (base q : ℕ) : Prop :=
  f.Loads q → 0x10000000 ≤ f.vaddr base q
    ∧ (f.buf.rd32 (q + 4) + f.buf.rd32 (q + 16)) % 2 ^ 32 ≤ f.size

instance (f : ElfFile) (base q : ℕ) : Decidable (f.Accepts base q) :=
  inferInstanceAs (Decidable (_ → _))

/-- `map_load_segments`, over some headers: what it reads and the pages it maps, and none for
an error. -/
def mapLoadSegments (f : ElfFile) (base : ℕ) : List ℕ → Option (List (ℕ × ℕ) × List ℕ)
  | [] => some ([], [])
  | i :: is =>
    if f.Accepts base (f.phdr i) then
      (f.mapLoadSegments base is).map fun r =>
        (f.segReads base (f.phdr i) ++ r.1,
          (if f.Loads (f.phdr i) then f.segPages base (f.phdr i) else []) ++ r.2)
    else none

/-! ## The program and its interpreter -/

/-- The loops that look for `at_phdr`, for the break and for the interpreter read the fields
of the headers once more. -/
def tableReads (f : ElfFile) : List (ℕ × ℕ) :=
  (List.range f.phnum).flatMap fun i =>
    [(f.phdr i, 4), (f.phdr i + 4, 4), (f.phdr i + 8, 4), (f.phdr i + 16, 4), (f.phdr i + 20, 4)]

/-- Where the path of the interpreter is: in the first `PT_INTERP` segment of a dynamic
image. -/
def interpAt (f : ElfFile) : Option (ℕ × ℕ) :=
  if f.eType = 3 then
    ((List.range f.phnum).find? fun i => f.buf.rd32 (f.phdr i) = 3).bind fun i =>
      let offset := f.buf.rd32 (f.phdr i + 4)
      let n := f.buf.rd32 (f.phdr i + 16)
      if n = 0 ∨ 128 < n ∨ f.size < (offset + n) % 2 ^ 32 then none else some (offset, n)
  else none

/-- `interp_path`. -/
def path (f : ElfFile) (at' : ℕ × ℕ) : List UInt8 :=
  (f.buf.slice at'.1 (at'.2 - 1)).takeWhile (· ≠ 0)

/-- The pages of the stack. -/
def stackPages : List ℕ := (List.range 8).map fun j => 0xBFFF0000 - (j + 1) * 4096

/-- A run of `elf_exec` that gets to user mode. -/
structure Run where
  /-- What was read of the file. -/
  reads : List (ℕ × ℕ)
  /-- The interpreter and what was read of it. -/
  interp : Option (ElfFile × List (ℕ × ℕ))
  /-- The pages that were mapped. -/
  pages : List ℕ

/-- The interpreter, if there is one: where its path was read, what was read of it and its
pages. -/
def loadInterp (vfs : List UInt8 → Option ElfFile) (f : ElfFile) :
    Option (List (ℕ × ℕ) × Option (ElfFile × List (ℕ × ℕ)) × List ℕ) :=
  match f.interpAt with
  | none => some ([], none, [])
  | some s =>
    (vfs (f.path s)).bind fun g =>
      if g.InterpOk then
        (g.mapLoadSegments 0x70000000 (List.range g.phnum)).map fun r =>
          ([s], some (g, (0, 52) :: r.1), r.2)
      else none

/-- **`elf_exec`**, with the files of `vfs_read_file` and whether there is memory for all
pages. -/
def elfExec (vfs : List UInt8 → Option ElfFile) (room : Bool) (f : ElfFile) : Option Run :=
  if f.HeaderOk ∧ room then
    (f.mapLoadSegments f.loadBase (List.range f.phnum)).bind fun r =>
      (f.loadInterp vfs).map fun x =>
        ⟨(0, 52) :: r.1 ++ f.tableReads ++ x.1, x.2.1, r.2 ++ x.2.2 ++ stackPages⟩
  else none

/-! ## What is asked of a run -/

/-- A piece is in the file. -/
def Within (f : ElfFile) (s : ℕ × ℕ) : Prop := s.1 + s.2 ≤ f.size

/-- A page is in the user window. -/
def InWindow (va : ℕ) : Prop := 0x10000000 ≤ va ∧ va + 4096 ≤ 0xC0000000

/-- **Every read is inside its file and every page inside the user window.** -/
structure Run.Safe (f : ElfFile) (r : Run) : Prop where
  /-- The program. -/
  reads : ∀ s ∈ r.reads, f.Within s
  /-- The interpreter. -/
  interp : ∀ g l, r.interp = some (g, l) → ∀ s ∈ l, g.Within s
  /-- The pages. -/
  pages : ∀ va ∈ r.pages, InWindow va

/-! ## Segments that are safe -/

/-- **The sums of a segment do not go astray**: it has no pages; or they end in the window,
and, if something is copied, the bytes in the file end below `2 ^ 32`. -/
def SegOk (f : ElfFile) (base q : ℕ) : Prop :=
  f.Loads q → f.stop base q ≤ f.first base q
    ∨ (f.stop base q ≤ 0xC0000000
      ∧ (f.buf.rd32 (q + 16) = 0 ∨ 2 ^ 32 ≤ f.vaddr base q + f.buf.rd32 (q + 16)
        ∨ f.buf.rd32 (q + 4) + f.buf.rd32 (q + 16) < 2 ^ 32))

/-- How much of a program header is read. -/
def used (f : ElfFile) (q : ℕ) : ℕ :=
  if f.buf.rd32 q ≠ 1 then 4 else if f.buf.rd32 (q + 20) = 0 then 24 else 28

theorem mem_segPages {va : ℕ} : va ∈ f.segPages base q
    ↔ ∃ j, f.first base q + 4096 * j = va ∧ va < f.stop base q := by
  have hfirst : f.first base q % 4096 = 0 := mul_mod_left _ _
  have hstop : f.stop base q % 4096 = 0 := mul_mod_left _ _
  unfold segPages
  simp only [mem_map, mem_range]
  constructor
  · rintro ⟨j, hj, rfl⟩
    exact ⟨j, rfl, by omega⟩
  · rintro ⟨j, rfl, hj⟩
    exact ⟨j, by omega, rfl⟩

/-- The pages of a segment above the kernel. -/
theorem segPages_inWindow (hlow : 0x10000000 ≤ f.vaddr base q) :
    (∀ va ∈ f.segPages base q, InWindow va)
      ↔ f.stop base q ≤ f.first base q ∨ f.stop base q ≤ 0xC0000000 := by
  have hfirst : f.first base q % 4096 = 0 := mul_mod_left _ _
  have hstop : f.stop base q % 4096 = 0 := mul_mod_left _ _
  have hge : 0x10000000 ≤ f.first base q := by
    unfold first
    omega
  constructor
  · intro h
    by_contra hc
    push Not at hc
    -- the last page ends where the segment does
    have := (h (f.stop base q - 4096) (mem_segPages.2
      ⟨(f.stop base q - 4096 - f.first base q) / 4096, by omega, by omega⟩)).2
    omega
  · rintro h va hva
    obtain ⟨j, rfl, hj⟩ := mem_segPages.1 hva
    exact ⟨by omega, by omega⟩

/-- What is copied to the pages of a segment. -/
theorem copyReads_within (hcheck : (f.buf.rd32 (q + 4) + f.buf.rd32 (q + 16)) % 2 ^ 32 ≤ f.size)
    (hlow : 0x10000000 ≤ f.vaddr base q) :
    (∀ s ∈ (f.segPages base q).flatMap (f.copyReads base q), f.Within s)
      ↔ f.stop base q ≤ f.first base q ∨ f.buf.rd32 (q + 16) = 0
        ∨ 2 ^ 32 ≤ f.vaddr base q + f.buf.rd32 (q + 16)
        ∨ f.buf.rd32 (q + 4) + f.buf.rd32 (q + 16) < 2 ^ 32 := by
  have hle := f.le
  have hoff := Buf.rd32_lt f.buf (q + 4)
  have hfsz := Buf.rd32_lt f.buf (q + 16)
  have hv : f.vaddr base q < 2 ^ 32 := mod_lt _ (by norm_num)
  have hpage : f.first base q ≤ f.vaddr base q ∧ f.vaddr base q < f.first base q + 4096 := by
    unfold first
    omega
  constructor
  · intro h
    by_contra hc
    push Not at hc
    obtain ⟨hpages, hsome, hend, hwrap⟩ := hc
    -- the first page reads at `p_offset`, which is far behind the file
    have hread : (f.buf.rd32 (q + 4),
        min (f.vaddr base q + f.buf.rd32 (q + 16)) (f.first base q + 4096) - f.vaddr base q)
        ∈ (f.segPages base q).flatMap (f.copyReads base q) := by
      refine mem_flatMap.2 ⟨f.first base q, mem_segPages.2 ⟨0, by omega, hpages⟩, ?_⟩
      unfold copyReads
      dsimp only
      rw [Nat.max_eq_left hpage.1, Nat.mod_eq_of_lt hend, if_pos (by omega), Nat.sub_self,
        Nat.add_zero, Nat.mod_eq_of_lt hoff]
      exact mem_singleton_self _
    have := h _ hread
    unfold Within at this
    dsimp only at this
    omega
  · intro h s hs
    obtain ⟨va, hva, hs⟩ := mem_flatMap.1 hs
    obtain ⟨j, hj, hlt⟩ := mem_segPages.1 hva
    unfold copyReads at hs
    dsimp only at hs
    split_ifs at hs with hcopy
    · obtain rfl := mem_singleton.1 hs
      unfold Within
      have hmin := min_le_left ((f.vaddr base q + f.buf.rd32 (q + 16)) % 2 ^ 32) (va + 4096)
      have hmax := le_max_left (f.vaddr base q) va
      generalize max (f.vaddr base q) va = copyFrom at *
      generalize min ((f.vaddr base q + f.buf.rd32 (q + 16)) % 2 ^ 32) (va + 4096) = copyTo at *
      -- where the end of the data wraps nothing is copied
      have hend : f.vaddr base q + f.buf.rd32 (q + 16) < 2 ^ 32 := by
        by_contra hc
        omega
      rw [mod_eq_of_lt hend] at hmin
      have hsum : f.buf.rd32 (q + 4) + f.buf.rd32 (q + 16) < 2 ^ 32 := by
        rcases h with h | h | h | h
        · omega
        · omega
        · omega
        · exact h
      rw [mod_eq_of_lt hsum] at hcheck
      dsimp only
      rw [mod_eq_of_lt (by omega)]
      omega
    · cases hs

/-- **A segment that is accepted**: it is read inside the file and mapped inside the window
exactly if the fields of its header are inside and its sums do not go astray. -/
theorem seg_safe_iff (h : f.Accepts base q) :
    ((∀ s ∈ f.segReads base q, f.Within s)
        ∧ ∀ va ∈ (if f.Loads q then f.segPages base q else []), InWindow va)
      ↔ q + f.used q ≤ f.size ∧ f.SegOk base q := by
  unfold segReads used SegOk Within
  by_cases htype : f.buf.rd32 q ≠ 1
  · have hno : ¬ f.Loads q := fun hl => htype hl.1
    rw [if_pos htype, if_pos htype, if_neg hno, forall_mem_singleton]
    exact ⟨fun h => ⟨h.1, fun hl => absurd hl hno⟩, fun h => ⟨h.1, fun _ h => nomatch h⟩⟩
  by_cases hmem : f.buf.rd32 (q + 20) = 0
  · have hno : ¬ f.Loads q := fun hl => hl.2 hmem
    rw [if_neg htype, if_neg htype, if_pos hmem, if_pos hmem, if_neg hno, forall_mem_cons,
      forall_mem_singleton]
    constructor
    · exact fun h => ⟨h.1.2, fun hl => absurd hl hno⟩
    · exact fun h => ⟨⟨by dsimp only; omega, h.1⟩, fun _ h => nomatch h⟩
  · have hl : f.Loads q := ⟨not_not.1 htype, hmem⟩
    obtain ⟨hlow, hcheck⟩ := h hl
    have hcopy := copyReads_within hcheck hlow
    unfold Within at hcopy
    rw [if_pos hl, segPages_inWindow hlow, forall_prop_of_true hl]
    simp only [if_neg htype, if_neg hmem, forall_mem_cons, forall_mem_append, not_mem_nil,
      false_imp_iff, implies_true, and_true, hcopy]
    omega

variable {r : List (ℕ × ℕ) × List ℕ}

/-- **The loop over the segments.** -/
theorem mapLoadSegments_safe {is : List ℕ} (h : f.mapLoadSegments base is = some r) :
    ((∀ s ∈ r.1, f.Within s) ∧ ∀ va ∈ r.2, InWindow va)
      ↔ ∀ i ∈ is, f.phdr i + f.used (f.phdr i) ≤ f.size ∧ f.SegOk base (f.phdr i) := by
  induction is generalizing r with
  | nil =>
    cases h
    exact iff_of_true ⟨(fun _ h => nomatch h), fun _ h => nomatch h⟩ (fun _ h => nomatch h)
  | cons i is ih =>
    unfold mapLoadSegments at h
    have hacc : f.Accepts base (f.phdr i) := by
      by_contra hc
      rw [if_neg hc] at h
      cases h
    rw [if_pos hacc] at h
    obtain ⟨r', hr', rfl⟩ := Option.map_eq_some_iff.1 h
    dsimp only
    rw [forall_mem_append, forall_mem_append, forall_mem_cons, ← ih hr', ← seg_safe_iff hacc]
    exact and_and_and_comm

/-- The segments of a list are accepted exactly if the loop gets to its end. -/
theorem mapLoadSegments_isSome {is : List ℕ} :
    (f.mapLoadSegments base is).isSome ↔ ∀ i ∈ is, f.Accepts base (f.phdr i) := by
  induction is with
  | nil => exact iff_of_true rfl (fun _ h => nomatch h)
  | cons i is ih =>
    unfold mapLoadSegments
    rw [forall_mem_cons]
    by_cases hacc : f.Accepts base (f.phdr i)
    · rw [if_pos hacc, Option.isSome_map, ih]
      exact ⟨fun h => ⟨hacc, h⟩, And.right⟩
    · rw [if_neg hacc]
      exact iff_of_false Bool.false_ne_true (fun h => hacc h.1)

/-! ## Whole runs -/

/-- The table of an accepted header is inside the file if its end is below `2 ^ 32`. -/
theorem HeaderOk.phdr_le (h : f.HeaderOk) (hend : f.phoff + f.phnum * f.phentsize < 2 ^ 32)
    (hi : i < f.phnum) : f.phdr i + 32 ≤ f.size := by
  obtain ⟨-, -, -, -, -, hsize, htable, -⟩ := h
  rw [mod_eq_of_lt hend] at htable
  have hmul : (i + 1) * f.phentsize ≤ f.phnum * f.phentsize := mul_le_mul_right _ hi
  rw [succ_mul] at hmul
  unfold phdr
  omega

/-- If the last header is inside, the table ends below `2 ^ 32`. -/
theorem HeaderOk.table_lt (h : f.HeaderOk) (hall : ∀ i, i < f.phnum → f.phdr i + 4 ≤ f.size) :
    f.phoff + f.phnum * f.phentsize < 2 ^ 32 := by
  obtain ⟨-, -, -, -, hnum, -, -, -⟩ := h
  have hlast := hall (f.phnum - 1) (by omega)
  have hmul : f.phnum * f.phentsize = (f.phnum - 1) * f.phentsize + f.phentsize := by
    rw [← Nat.succ_mul, Nat.succ_eq_add_one, Nat.sub_add_cancel (by omega)]
  have hsmall : f.phentsize < 65536 := Buf.rd16_lt _ _
  have hle := f.le
  unfold phdr at hlast
  omega

theorem used_le : 4 ≤ f.used q ∧ f.used q ≤ 28 := by
  unfold used
  split_ifs <;> omega

theorem stackPages_inWindow : ∀ va ∈ stackPages, InWindow va := by
  unfold InWindow
  decide

/-- **The program**: what is read of it and its pages. -/
theorem program_safe_iff (h : f.HeaderOk)
    (hr : f.mapLoadSegments f.loadBase (List.range f.phnum) = some r) :
    ((∀ s ∈ (0, 52) :: r.1 ++ f.tableReads, f.Within s) ∧ ∀ va ∈ r.2, InWindow va)
      ↔ f.phoff + f.phnum * f.phentsize < 2 ^ 32
        ∧ ∀ i, i < f.phnum → f.SegOk f.loadBase (f.phdr i) := by
  have hsegs := mapLoadSegments_safe hr
  simp only [mem_range] at hsegs
  rw [cons_append, forall_mem_cons, forall_mem_append]
  constructor
  · rintro ⟨⟨-, hreads, -⟩, hpages⟩
    have hall := hsegs.1 ⟨hreads, hpages⟩
    refine ⟨h.table_lt fun i hi => ?_, fun i hi => (hall i hi).2⟩
    have := (hall i hi).1
    have := (used_le (f := f) (q := f.phdr i)).1
    omega
  · rintro ⟨hend, hsegok⟩
    have hin : ∀ i, i < f.phnum → f.phdr i + 32 ≤ f.size := fun i hi => h.phdr_le hend hi
    obtain ⟨hreads, hpages⟩ := hsegs.2 fun i hi =>
      ⟨by have := hin i hi; have := (used_le (f := f) (q := f.phdr i)).2; omega, hsegok i hi⟩
    refine ⟨⟨h.1, hreads, fun s hs => ?_⟩, hpages⟩
    obtain ⟨i, hi, hs⟩ := mem_flatMap.1 hs
    have := hin i (mem_range.1 hi)
    simp only [mem_cons, not_mem_nil, or_false] at hs
    unfold Within
    rcases hs with rfl | rfl | rfl | rfl | rfl <;> dsimp only <;> omega

/-- The path of the interpreter is inside the file if its end is below `2 ^ 32`. -/
theorem interpAt_within {s : ℕ × ℕ} (h : f.interpAt = some s) : f.Within s ↔ s.1 + s.2 < 2 ^ 32 := by
  unfold interpAt at h
  split_ifs at h
  obtain ⟨i, -, h⟩ := Option.bind_eq_some_iff.1 h
  dsimp only at h
  split_ifs at h with hbad
  obtain rfl := Option.some.inj h
  push Not at hbad
  have hle := f.le
  unfold Within
  dsimp only
  constructor
  · intro hin
    omega
  · intro hlt
    have := hbad.2.2
    rwa [mod_eq_of_lt hlt] at this

/-- The interpreter is accepted, if there is one. -/
def Interprets (vfs : List UInt8 → Option ElfFile) (f : ElfFile) (o : Option ElfFile) : Prop :=
  match f.interpAt with
  | none => o = none
  | some s => ∃ g, o = some g ∧ vfs (f.path s) = some g ∧ g.InterpOk
    ∧ ∀ i, i < g.phnum → g.Accepts 0x70000000 (g.phdr i)

variable {vfs : List UInt8 → Option ElfFile}

/-- **The interpreter**: the path, what is read of it and its pages. -/
theorem loadInterp_safe_iff {x : List (ℕ × ℕ) × Option (ElfFile × List (ℕ × ℕ)) × List ℕ}
    (h : f.loadInterp vfs = some x) :
    f.Interprets vfs (x.2.1.map Prod.fst)
      ∧ (((∀ s ∈ x.1, f.Within s) ∧ (∀ g l, x.2.1 = some (g, l) → ∀ s ∈ l, g.Within s)
          ∧ ∀ va ∈ x.2.2, InWindow va)
        ↔ (∀ s, f.interpAt = some s → s.1 + s.2 < 2 ^ 32)
          ∧ ∀ g, x.2.1.map Prod.fst = some g → ∀ i, i < g.phnum →
            g.phdr i + g.used (g.phdr i) ≤ g.size ∧ g.SegOk 0x70000000 (g.phdr i)) := by
  unfold loadInterp at h
  unfold Interprets
  cases hat : f.interpAt with
  | none =>
    rw [hat] at h
    obtain rfl := Option.some.inj h
    refine ⟨rfl, iff_of_true ⟨(fun _ h => nomatch h), (fun _ _ h => nomatch h), fun _ h => nomatch h⟩
      ⟨(fun _ h => nomatch h), fun _ h => nomatch h⟩⟩
  | some s =>
    rw [hat] at h
    obtain ⟨g, hvfs, h⟩ := Option.bind_eq_some_iff.1 h
    split_ifs at h with hok
    obtain ⟨r, hr, rfl⟩ := Option.map_eq_some_iff.1 h
    have hsegs := mapLoadSegments_safe hr
    simp only [mem_range] at hsegs
    have hacc := mapLoadSegments_isSome.1 (Option.isSome_iff_exists.2 ⟨r, hr⟩)
    refine ⟨⟨g, rfl, hvfs, hok, fun i hi => hacc i (mem_range.2 hi)⟩, ?_⟩
    constructor
    · rintro ⟨hpath, hreads, hpages⟩
      refine ⟨fun s' hs => ?_, fun g' hg => ?_⟩
      · obtain rfl := Option.some.inj hs
        exact (interpAt_within hat).1 (hpath s (mem_singleton_self s))
      · obtain rfl := Option.some.inj hg
        exact hsegs.1 ⟨(forall_mem_cons.1 (hreads g _ rfl)).2, hpages⟩
    · rintro ⟨hpath, hgood⟩
      obtain ⟨hreads, hpages⟩ := hsegs.2 (hgood g rfl)
      refine ⟨forall_mem_singleton.2 ((interpAt_within hat).2 (hpath s rfl)), ?_, hpages⟩
      intro g' l hl
      obtain ⟨rfl, rfl⟩ := Prod.mk.inj (Option.some.inj hl)
      exact forall_mem_cons.2 ⟨hok.1, hreads⟩

/-- An interpreter that is accepted is loaded. -/
theorem Interprets.loads {o : Option ElfFile} (h : f.Interprets vfs o) :
    ∃ x, f.loadInterp vfs = some x ∧ x.2.1.map Prod.fst = o := by
  unfold Interprets at h
  unfold loadInterp
  cases hat : f.interpAt with
  | none =>
    rw [hat] at h
    exact ⟨_, rfl, h.symm⟩
  | some s =>
    rw [hat] at h
    obtain ⟨g, rfl, hvfs, hok, hacc⟩ := h
    obtain ⟨r, hr⟩ := Option.isSome_iff_exists.1
      (mapLoadSegments_isSome.2 fun i hi => hacc i (mem_range.1 hi))
    refine ⟨([s], some (g, (0, 52) :: r.1), r.2), ?_, rfl⟩
    dsimp only
    rw [hvfs, Option.bind_some, if_pos hok, hr, Option.map_some]

/-- **When a run of `elf_exec` that completes is safe.** If the program and its interpreter
are accepted, then the table of program headers and the path of the interpreter end below
`2 ^ 32`, the sums of no segment go astray, and the program headers of the interpreter are in
its file. -/
theorem elfExec_safe_iff (vfs : List UInt8 → Option ElfFile) (f : ElfFile) :
    (∀ room r, elfExec vfs room f = some r → r.Safe f)
      ↔ ∀ o, f.HeaderOk → (∀ i, i < f.phnum → f.Accepts f.loadBase (f.phdr i)) →
        f.Interprets vfs o →
        (f.phoff + f.phnum * f.phentsize < 2 ^ 32
          ∧ ∀ i, i < f.phnum → f.SegOk f.loadBase (f.phdr i))
        ∧ (∀ s, f.interpAt = some s → s.1 + s.2 < 2 ^ 32)
        ∧ ∀ g, o = some g → ∀ i, i < g.phnum →
          g.phdr i + g.used (g.phdr i) ≤ g.size ∧ g.SegOk 0x70000000 (g.phdr i) := by
  unfold elfExec
  constructor
  · intro h o hhead hacc hint
    obtain ⟨r, hr⟩ := Option.isSome_iff_exists.1
      (mapLoadSegments_isSome.2 fun i hi => hacc i (mem_range.1 hi))
    obtain ⟨x, hx, rfl⟩ := hint.loads
    have hsafe := h true _ (by rw [if_pos ⟨hhead, rfl⟩, hr, Option.bind_some, hx, Option.map_some])
    obtain ⟨hreads, hpath⟩ := forall_mem_append.1 hsafe.reads
    obtain ⟨hpages, hpages₂⟩ := forall_mem_append.1 (forall_mem_append.1 hsafe.pages).1
    exact ⟨(program_safe_iff hhead hr).1 ⟨hreads, hpages⟩,
      (loadInterp_safe_iff hx).2.1 ⟨hpath, hsafe.interp, hpages₂⟩⟩
  · intro h room run hrun
    split_ifs at hrun with hhead
    obtain ⟨r, hr, hrun⟩ := Option.bind_eq_some_iff.1 hrun
    obtain ⟨x, hx, rfl⟩ := Option.map_eq_some_iff.1 hrun
    have hacc := mapLoadSegments_isSome.1 (Option.isSome_iff_exists.2 ⟨r, hr⟩)
    obtain ⟨hint, hiff⟩ := loadInterp_safe_iff hx
    obtain ⟨hprog, hgood⟩ := h _ hhead.1 (fun i hi => hacc i (mem_range.2 hi)) hint
    obtain ⟨hreads, hpages⟩ := (program_safe_iff hhead.1 hr).2 hprog
    obtain ⟨hpath, hinterp, hpages₂⟩ := hiff.2 hgood
    exact ⟨forall_mem_append.2 ⟨hreads, hpath⟩, hinterp,
      forall_mem_append.2 ⟨forall_mem_append.2 ⟨hpages, hpages₂⟩, stackPages_inWindow⟩⟩

/-- A file that is a header only: its program headers are said to be at `2 ^ 32 - 32`. -/
def headerOnly : ElfFile where
  buf := fun i => ([0x7F, 0x45, 0x4C, 0x46, 1, 1, 0, 0, 0, 0, 0, 0, 0, 0, 0, 0, 2, 0, 3, 0, 1, 0, 0, 0,
    0, 0, 0, 0x40, 0xE0, 0xFF, 0xFF, 0xFF, 0, 0, 0, 0, 0, 0, 0, 0, 52, 0, 32, 0, 1, 0] :
      List UInt8).getD i 0
  size := 52
  le := by decide

/-- **A program header in front of the buffer.** The table ends at `2 ^ 32`, which is zero in
the check, and its only header is read 32 bytes before the file. -/
theorem elfExec_reads_before :
    ∃ r, elfExec (fun _ => none) true headerOnly = some r ∧ (2 ^ 32 - 32, 4) ∈ r.reads
      ∧ ¬ r.Safe headerOnly := by
  have hrun : (elfExec (fun _ => none) true headerOnly).map
      (fun r => decide ((2 ^ 32 - 32, 4) ∈ r.reads)) = some true := by
    decide +kernel
  obtain ⟨r, hr, hread⟩ := Option.map_eq_some_iff.1 hrun
  refine ⟨r, hr, of_decide_eq_true hread, fun hsafe => ?_⟩
  have := hsafe.reads _ (of_decide_eq_true hread)
  exact absurd this (by unfold Within; decide)

end ElfFile

end Makar
