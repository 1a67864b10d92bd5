import Makar.Pmm

/-!
# Address spaces

The model of `mm/vmm.c`. Physical memory is what it is to the source: frames
of 1024 words, reached by their number through the identity map. A page
directory is a frame whose words point at page tables, a page table is a frame
whose words point at pages, and nothing but the way a word is used tells the
three apart; that no frame is used in two ways at once is a property to be
proved of the code, not one of the model.

A word is written as the fields the source masks out of it: the frame number
and the flags it tests, with the remaining bits kept together. The kernel's
own page directory is a static array outside the managed frames. Its entries
are copied into every new directory, so its page tables are shared by all
address spaces.
-/

namespace Makar

/-- A 32-bit word, as an entry of a directory or of a table. -/
structure Entry where
  /-- The frame number, `e >> 12`. -/
  frame : ℕ
  /-- `PAGE_PRESENT`. -/
  present : Bool
  /-- `PAGE_WRITABLE`. -/
  writable : Bool
  /-- `PAGE_USER`. -/
  user : Bool
  /-- `PAGE_LARGE`. -/
  large : Bool
  /-- `VMM_PTE_COW`. -/
  cow : Bool
  /-- The other seven bits. -/
  rest : BitVec 7
  deriving DecidableEq, Repr

namespace Entry

/-- The word zero. -/
def zero : Entry := ⟨0, false, false, false, false, false, 0⟩

/-- The directory entry `vmm_map_page` installs for a new page table. -/
def pointer (pt : ℕ) : Entry := ⟨pt, true, true, true, false, false, 0⟩

/-- The table entry for a frame, `phys | flags | PAGE_PRESENT`, where the flags
are `VMM_FLAG_USER` with or without `VMM_FLAG_WRITABLE`. -/
def leaf (frame : ℕ) (writable : Bool) : Entry := ⟨frame, true, writable, true, false, false, 0⟩

/-- The entry `vmm_clone_pd_cow` leaves in both tables. -/
def share (e : Entry) : Entry := { e with writable := false, cow := true }

/-- The entry the page-fault handler makes of a copy-on-write one. -/
def promote (e : Entry) (frame : ℕ) : Entry :=
  { e with frame := frame, writable := true, cow := false }

end Entry

/-- Entries in a directory or table. -/
def tableSize : ℕ := 1024

/-- The end of the identity map, in frames (`VMM_KERNEL_IDMAP_END >> 12`). -/
def idmapEnd : ℕ := 0x10000

/-- Physical memory, its allocator, and the kernel's directory. -/
structure Vm where
  /-- The frame allocator. -/
  pmm : Pmm
  /-- The words of each frame. -/
  mem : ℕ → ℕ → Entry
  /-- `paging_kernel_pd()`. -/
  kpd : ℕ → Entry

/-- The directory index of an address. -/
def pdIndex (virt : ℕ) : ℕ := virt / 2 ^ 22

/-- The table index of an address. -/
def ptIndex (virt : ℕ) : ℕ := virt / 2 ^ 12 % tableSize

namespace Vm

/-! ## Frames -/

/-- Write a word. -/
def setWord (f i : ℕ) (e : Entry) (s : Vm) : Vm :=
  { s with mem := Function.update s.mem f (Function.update (s.mem f) i e) }

/-- Fill a frame. -/
def setFrame (f : ℕ) (words : ℕ → Entry) (s : Vm) : Vm :=
  { s with mem := Function.update s.mem f words }

/-- `pmm_alloc_frame`, with the address as a frame number. -/
def allocFrame (s : Vm) : Option ℕ × Vm :=
  let r := s.pmm.pmmAllocFrame
  (if r.1 = pmmAllocError then none else some (r.1 / pmmFrameSize), { s with pmm := r.2 })

/-- `pmm_free_frame`. -/
def freeFrame (f : ℕ) (s : Vm) : Vm := { s with pmm := s.pmm.pmmFreeFrame (f * pmmFrameSize) }

/-- `pmm_inc_ref`. -/
def incRef (f : ℕ) (s : Vm) : Vm := { s with pmm := s.pmm.pmmIncRef (f * pmmFrameSize) }

/-- `pmm_ref_count`. -/
def refCount (f : ℕ) (s : Vm) : ℕ := s.pmm.pmmRefCount (f * pmmFrameSize)

/-! ## Single pages -/

/-- A fresh directory: the entries of the kernel's, the rest zero. -/
def kernelEntries (s : Vm) (i : ℕ) : Entry :=
  if s.kpd i ≠ Entry.zero then s.kpd i else Entry.zero

/-- `vmm_create_pd`. -/
def vmmCreatePd (s : Vm) : Option ℕ × Vm :=
  match s.allocFrame with
  | (none, s) => (none, s)
  | (some pd, s) => (some pd, s.setFrame pd s.kernelEntries)

/-- The first half of `vmm_map_page`: a page table for the directory entry, if
there is none. False when no frame is left for it. -/
def vmmTable (pd i : ℕ) (s : Vm) : Bool × Vm :=
  if (s.mem pd i).present then (true, s)
  else
    match s.allocFrame with
    | (none, s) => (false, s)
    | (some pt, s) => (true, (s.setFrame pt (fun _ => Entry.zero)).setWord pd i (Entry.pointer pt))

/-- `vmm_map_page`, for user mappings. A large entry of the kernel is left
alone, and so is everything when no table can be had. -/
def vmmMapPage (pd virt phys : ℕ) (writable : Bool) (s : Vm) : Vm :=
  if (s.mem pd (pdIndex virt)).large then s
  else
    let r := s.vmmTable pd (pdIndex virt)
    if r.1 then
      r.2.setWord (r.2.mem pd (pdIndex virt)).frame (ptIndex virt) (Entry.leaf phys writable)
    else r.2

/-- The table of an address, when its directory entry is present and not
large: the check before every walk. -/
def tableOf (pd virt : ℕ) (s : Vm) : Option ℕ :=
  let e := s.mem pd (pdIndex virt)
  if e.present ∧ ¬ e.large then some e.frame else none

/-- `vmm_protect_page`, for user flags. -/
def vmmProtectPage (pd virt : ℕ) (writable : Bool) (s : Vm) : Vm :=
  match s.tableOf pd virt with
  | none => s
  | some pt =>
    let e := s.mem pt (ptIndex virt)
    if e.present then s.setWord pt (ptIndex virt) (Entry.leaf e.frame writable) else s

/-- `vmm_unmap_page`. -/
def vmmUnmapPage (pd virt : ℕ) (s : Vm) : Vm :=
  match s.tableOf pd virt with
  | none => s
  | some pt =>
    if (s.mem pt (ptIndex virt)).present then s.setWord pt (ptIndex virt) Entry.zero else s

/-- Release a frame a table entry names, if it is one of the identity map. -/
def releaseFrame (f : ℕ) (s : Vm) : Vm := if f ≠ 0 ∧ f < idmapEnd then s.freeFrame f else s

/-- `vmm_unmap_and_free`. -/
def vmmUnmapAndFree (pd virt : ℕ) (s : Vm) : Vm :=
  match s.tableOf pd virt with
  | none => s
  | some pt =>
    let e := s.mem pt (ptIndex virt)
    if e.present then (s.setWord pt (ptIndex virt) Entry.zero).releaseFrame e.frame else s

/-! ## Whole address spaces -/

/-- The directory entry points at a page table of the address space itself:
present, not large, and not the kernel's. -/
def OwnTable (s : Vm) (pd i : ℕ) : Prop :=
  (s.mem pd i).present = true ∧ (s.mem pd i).large = false
    ∧ (s.mem pd i).frame ≠ (s.kpd i).frame

instance (s : Vm) (pd i : ℕ) : Decidable (s.OwnTable pd i) :=
  inferInstanceAs (Decidable (_ ∧ _))

/-- The check the walkers make before they follow a directory entry. -/
def Walkable (s : Vm) (pd i : ℕ) : Prop :=
  s.OwnTable pd i ∧ (s.mem pd i).frame ≠ 0 ∧ (s.mem pd i).frame < idmapEnd

instance (s : Vm) (pd i : ℕ) : Decidable (s.Walkable pd i) :=
  inferInstanceAs (Decidable (_ ∧ _))

/-- One turn of the inner loop of `vmm_free_pd`. -/
def freeEntry (pt : ℕ) (s : Vm) (j : ℕ) : Vm :=
  if (s.mem pt j).present then s.releaseFrame (s.mem pt j).frame else s

/-- One turn of the outer loop of `vmm_free_pd`: the pages of the table, then
the table. -/
def freeTable (pd : ℕ) (s : Vm) (i : ℕ) : Vm :=
  if s.Walkable pd i then
    let pt := (s.mem pd i).frame
    ((List.range tableSize).foldl (freeEntry pt) s).freeFrame pt
  else s

/-- `vmm_free_pd`. -/
def vmmFreePd (pd : ℕ) (s : Vm) : Vm :=
  ((List.range tableSize).foldl (freeTable pd) s).freeFrame pd

/-- One turn of the inner loop of `vmm_clone_pd_cow`: a user page becomes
copy-on-write in both tables, any other is mirrored. -/
def cloneEntry (parentPt childPt : ℕ) (s : Vm) (j : ℕ) : Vm :=
  let e := s.mem parentPt j
  if e.present then
    if e.user then
      ((s.incRef e.frame).setWord parentPt j e.share).setWord childPt j e.share
    else s.setWord childPt j e
  else s

/-- A page table of the clone: zeroed, then filled page by page. -/
def cloneTable (parentPt childPt : ℕ) (s : Vm) : Vm :=
  (List.range tableSize).foldl (cloneEntry parentPt childPt)
    (s.setFrame childPt (fun _ => Entry.zero))

/-- The outer loop of `vmm_clone_pd_cow`. False when a table could not be
had. -/
def cloneTables (parent child : ℕ) : List ℕ → Vm → Bool × Vm
  | [], s => (true, s)
  | i :: is, s =>
    if s.Walkable parent i then
      let e := s.mem parent i
      match s.allocFrame with
      | (none, s) => (false, s)
      | (some pt, s) =>
        cloneTables parent child is
          ((s.cloneTable e.frame pt).setWord child i { e with frame := pt })
    else cloneTables parent child is s

/-- `vmm_clone_pd_cow`: a copy-on-write clone, or none, with everything taken
for it given back. -/
def vmmClonePdCow (parent : ℕ) (s : Vm) : Option ℕ × Vm :=
  match s.vmmCreatePd with
  | (none, s) => (none, s)
  | (some child, s) =>
    match cloneTables parent child (List.range tableSize) s with
    | (true, s) => (some child, s)
    | (false, s) => (none, s.vmmFreePd child)

end Vm

end Makar
