import Makar.Runs

/-!
# The kernel heap

The model of `mm/heap.c`: a first-fit allocator over the fixed window from
`HEAP_START` to `HEAP_MAX`. The state is the chain of block headers in the
order of their `next` pointers; a header carries its own address, so a
pointer is an address and not a position in the chain. `kfree` is given an
address and marks the block whose data starts there; an address in the
window at which no block starts would have the source write over whatever
lies before it, and is left out.

Sizes are 32-bit words, so rounding a request up to a multiple of four and
adding the header can wrap.
-/

namespace Makar

/-- First byte of the heap (`HEAP_START`). -/
def heapStart : ℕ := 0x800000

/-- First byte past the heap (`HEAP_MAX`). -/
def heapMax : ℕ := 0x3000000

/-- Bytes of a block header (`BLOCK_HDR_SIZE`). -/
def blockHdrSize : ℕ := 12

/-- The smallest remainder a block is split for (`SPLIT_MIN`). -/
def splitMin : ℕ := 16

/-- A block header (`block_hdr_t`), with its address; `next` is the order of
the chain. -/
structure HeapBlock where
  /-- Address of the header. -/
  addr : ℕ
  /-- Bytes of data after the header. -/
  size : ℕ
  /-- The block can be allocated. -/
  isFree : Bool
  deriving DecidableEq, Repr

/-- The heap: the headers from `heap_head` on. -/
abbrev Heap := List HeapBlock

namespace Heap

/-- `heap_init`: one free block over the whole window. -/
def heapInit : Heap := [⟨heapStart, heapMax - heapStart - blockHdrSize, true⟩]

/-- The walk of `kmalloc`, for a request already rounded: the first free
block large enough, split when the remainder is worth a block. -/
def kmallocWalk (size : ℕ) : Heap → Option (ℕ × Heap)
  | [] => none
  | b :: bs =>
    if b.isFree ∧ size ≤ b.size then
      if (size + blockHdrSize + splitMin) % 2 ^ 32 ≤ b.size then
        some (b.addr + blockHdrSize,
          ⟨b.addr, size, false⟩
            :: ⟨b.addr + blockHdrSize + size, b.size - size - blockHdrSize, true⟩ :: bs)
      else some (b.addr + blockHdrSize, { b with isFree := false } :: bs)
    else (kmallocWalk size bs).map (fun r => (r.1, b :: r.2))

/-- `kmalloc`: the address of at least the rounded number of bytes, or none. -/
def kmalloc (size : ℕ) (h : Heap) : Option ℕ × Heap :=
  if size = 0 then (none, h)
  else
    match kmallocWalk ((size + 3) % 2 ^ 32 / 4 * 4) h with
    | none => (none, h)
    | some (p, h) => (some p, h)

/-- The coalescing loop of `kfree`: the block takes in the free blocks that
follow it. A `next` outside the window ends the chain. -/
def absorb (b : HeapBlock) : Heap → Heap
  | [] => [b]
  | c :: cs =>
    if c.addr < heapStart ∨ heapMax ≤ c.addr then [b]
    else if c.isFree then absorb { b with size := b.size + (blockHdrSize + c.size) } cs
    else b :: c :: cs

/-- Free the block whose header is at `addr`. -/
def freeAt (addr : ℕ) : Heap → Heap
  | [] => []
  | b :: bs => if b.addr = addr then absorb { b with isFree := true } bs else b :: freeAt addr bs

/-- `kfree`. -/
def kfree (ptr : ℕ) (h : Heap) : Heap :=
  if ptr < heapStart + blockHdrSize ∨ heapMax ≤ ptr then h
  else freeAt (ptr - blockHdrSize) h

/-! ## The blocks tile the window -/

/-- The blocks follow one another without a gap from `a` to the end of the
window. -/
def TilesFrom : ℕ → Heap → Prop
  | a, [] => a = heapMax
  | a, b :: bs => b.addr = a ∧ TilesFrom (a + blockHdrSize + b.size) bs

variable {a : ℕ} {h : Heap}

theorem tilesFrom_heapInit : TilesFrom heapStart heapInit := ⟨rfl, rfl⟩

/-- A chain ends at the end of the window, so it starts before it. -/
theorem TilesFrom.le (ht : TilesFrom a h) : a ≤ heapMax := by
  induction h generalizing a with
  | nil => exact Nat.le_of_eq ht
  | cons b bs ih =>
    have := ih ht.2
    omega

/-- **Allocation keeps the tiling**, and returns the data of a block of it. -/
theorem TilesFrom.kmallocWalk {size p : ℕ} {h' : Heap} (ht : TilesFrom a h)
    (hp : kmallocWalk size h = some (p, h')) : TilesFrom a h' := by
  induction h generalizing a p h' with
  | nil => cases hp
  | cons b bs ih =>
    obtain ⟨rfl, hbs⟩ := ht
    unfold Heap.kmallocWalk at hp
    split_ifs at hp with hfit hsplit
    · obtain ⟨-, rfl⟩ := Prod.mk.injEq .. ▸ Option.some.inj hp
      have hmax := hbs.le
      have hsize : size + blockHdrSize ≤ b.size := by
        unfold blockHdrSize splitMin heapMax at *
        omega
      refine ⟨rfl, rfl, ?_⟩
      have hend : b.addr + blockHdrSize + size + blockHdrSize + (b.size - size - blockHdrSize)
          = b.addr + blockHdrSize + b.size := by omega
      show TilesFrom (b.addr + blockHdrSize + size + blockHdrSize
        + (b.size - size - blockHdrSize)) bs
      rw [hend]
      exact hbs
    · obtain ⟨-, rfl⟩ := Prod.mk.injEq .. ▸ Option.some.inj hp
      exact ⟨rfl, hbs⟩
    · obtain ⟨⟨q, bs'⟩, hwalk, hr⟩ := Option.map_eq_some_iff.1 hp
      obtain ⟨-, rfl⟩ := Prod.mk.injEq .. ▸ hr
      exact ⟨rfl, ih hbs hwalk⟩

section

variable {b c : HeapBlock} {cs : Heap} (ht : TilesFrom a (b :: c :: cs))
include ht

/-- A block that follows another is in the heap. -/
theorem TilesFrom.inside (ha : heapStart ≤ a) : ¬ (c.addr < heapStart ∨ heapMax ≤ c.addr) := by
  obtain ⟨-, hc, hcs⟩ := ht
  have hmax := hcs.le
  rw [hc]
  unfold blockHdrSize at hmax ⊢
  omega

/-- A block takes in the one that follows. -/
theorem TilesFrom.join :
    TilesFrom a ({ b with size := b.size + (blockHdrSize + c.size) } :: cs) := by
  refine ⟨ht.1, ?_⟩
  show TilesFrom (a + blockHdrSize + (b.size + (blockHdrSize + c.size))) cs
  rw [← Nat.add_assoc (a + blockHdrSize), ← Nat.add_assoc (a + blockHdrSize + b.size)]
  exact ht.2.2

end

/-- **Coalescing keeps the tiling**: the blocks taken in are the ones that
follow. -/
theorem TilesFrom.absorb {b : HeapBlock} {bs : Heap} (ht : TilesFrom a (b :: bs))
    (ha : heapStart ≤ a) : TilesFrom a (absorb b bs) := by
  induction bs generalizing b with
  | nil => exact ht
  | cons c cs ih =>
    rw [Heap.absorb, if_neg (ht.inside ha)]
    split_ifs
    · exact ih ht.join
    · exact ht

theorem TilesFrom.freeAt (addr : ℕ) (ht : TilesFrom a h) (ha : heapStart ≤ a) :
    TilesFrom a (freeAt addr h) := by
  induction h generalizing a with
  | nil => exact ht
  | cons b bs ih =>
    rw [Heap.freeAt]
    split_ifs
    · exact TilesFrom.absorb (b := { b with isFree := true }) ⟨ht.1, ht.2⟩ ha
    · exact ⟨ht.1, ih ht.2 (by omega)⟩

/-- `kmalloc` keeps the tiling. -/
theorem TilesFrom.kmalloc (size : ℕ) (ht : TilesFrom a h) : TilesFrom a (h.kmalloc size).2 := by
  unfold Heap.kmalloc
  split_ifs
  · exact ht
  · cases hwalk : Heap.kmallocWalk ((size + 3) % 2 ^ 32 / 4 * 4) h with
    | none => exact ht
    | some r => exact ht.kmallocWalk hwalk

/-- `kfree` keeps the tiling. -/
theorem TilesFrom.kfree (ptr : ℕ) (ht : TilesFrom heapStart h) :
    TilesFrom heapStart (h.kfree ptr) := by
  unfold Heap.kfree
  split_ifs
  · exact ht
  · exact ht.freeAt _ (Nat.le_refl _)

/-- A block of the chain lies in the window, header and data. -/
theorem TilesFrom.bounds {b : HeapBlock} (ht : TilesFrom a h) (hb : b ∈ h) :
    a ≤ b.addr ∧ b.addr + blockHdrSize + b.size ≤ heapMax := by
  induction h generalizing a with
  | nil => cases hb
  | cons c cs ih =>
    rcases List.mem_cons.1 hb with rfl | hb
    · exact ⟨Nat.le_of_eq ht.1.symm, ht.1.symm ▸ ht.2.le⟩
    · have := ih ht.2 hb
      omega

end Heap

end Makar
