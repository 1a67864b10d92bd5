import Makar.Buffer
import Makar.Chained
import Makar.Runs

/-!
# The allocator of the user programs

The model of `userspace/malloc.c`: blocks with a header of twelve bytes fill the memory from the
first break to the last one, and the free blocks are linked in the order of their addresses through
the last word of their headers. A request takes the first free block that is large enough and
splits it; a block that is freed goes back to its place in the list and merges with the neighbours
it touches.

The headers are words in the memory of the program, where its own data is as well, and everything
the allocator does is a write to that memory. Addresses and sizes are words of 32 bits.

What the memory stands for is a row of blocks without a gap (`Inv`), each live, free or lost: the
end that `realloc` cuts off a block is marked free but linked nowhere. Every call changes that row
in one of four ways – a block is split, taken, freed or merged – and the live blocks are the
allocations the program has.

Two sizes are computed without a look at what is lost. The header is added to a request, and the
sum rounded up, with 32 bits: a request near the top of the range wraps to a block of twenty bytes.
And the product in `calloc` is taken with an `unsigned long`, which has 32 bits here, so that its
test for overflow never fails. What follows is in `malloc_wraps`.
-/

namespace Makar

namespace Malloc

open Buf

/-- `HDR_BYTES` -/
def hdrBytes : ℕ := 12

/-- `MIN_BLOCK` -/
def minBlock : ℕ := hdrBytes + 8

/-- `size` of a header. -/
def size (m : Buf) (b : ℕ) : ℕ := rd32 m b

/-- `free` of a header. -/
def flag (m : Buf) (b : ℕ) : ℕ := rd32 m (b + 4)

/-- `next` of a header. -/
def next (m : Buf) (b : ℕ) : ℕ := rd32 m (b + 8)

/-- The memory of a program, the three variables of the allocator, and the break the kernel has. -/
structure State where
  mem : Buf
  heapBase : ℕ
  heapEnd : ℕ
  freeHead : ℕ
  brk : ℕ

/-- `round_up`, for a power of two. -/
def roundUp (v a : ℕ) : ℕ := (v + (a - 1)) % 2 ^ 32 / a * a

/-- The block size `malloc` and `realloc` compute for a request. -/
def wanted (sz : ℕ) : ℕ := roundUp ((sz + hdrBytes) % 2 ^ 32) 8

namespace State

variable (s : State)

/-- `sys_brk`: a break above the old one is granted or not, any other is only asked for. The result
is the break. -/
def sysBrk (grant : Bool) (a : ℕ) : ℕ × State :=
  if a = 0 ∨ a ≤ s.brk then (s.brk, s)
  else if grant then (a, { s with brk := a })
  else (s.brk, s)

/-- `brk_set`: a result that is not positive as a signed word is a failure. -/
def brkSet (grant : Bool) (a : ℕ) : ℕ × State :=
  let r := s.sysBrk grant a
  (if 0 < r.1 ∧ r.1 < 2 ^ 31 then r.1 else 0, r.2)

/-- `heap_init_if_needed` -/
def heapInit : State :=
  if s.heapBase ≠ 0 then s
  else
    let b := (s.brkSet false 0).1
    { s with heapBase := b, heapEnd := b, freeHead := 0 }

/-- Follow the free list until a node. There are fewer nodes than bytes in the heap. -/
def follow (stop : ℕ → Bool) : ℕ :=
  walkTo (· = 0) (next s.mem) stop (s.heapEnd + 1) s.freeHead

/-- Write a word. -/
def poke (a x : ℕ) : State := { s with mem := wr32 s.mem a x }

/-- What pointed at a block of the free list points elsewhere. -/
def patch (target t : ℕ) : State :=
  if s.freeHead = target then { s with freeHead := t }
  else
    let p := s.follow fun p => next s.mem p = target
    if p ≠ 0 then s.poke (p + 8) t else s

/-- `unlink_free` -/
def unlinkFree (b : ℕ) : State := s.patch b (next s.mem b)

/-- `grow_heap`: the new block, when there is one. -/
def growHeap (grant : Bool) (bytes : ℕ) : Option ℕ × State :=
  let need := roundUp bytes 4096
  let newEnd := (s.heapEnd + need) % 2 ^ 32
  let r := s.brkSet grant newEnd
  let s := r.2
  if r.1 < newEnd then (none, s)
  else
    let b := s.heapEnd
    let s := ((s.poke b need).poke (b + 4) 1).poke (b + 8) 0
    let s := if s.freeHead = 0 then { s with freeHead := b }
      else s.poke (s.follow (fun p => next s.mem p = 0) + 8) b
    (some b, { s with heapEnd := newEnd })

/-- `split_block` -/
def splitBlock (b want : ℕ) : State :=
  if size s.mem b < (want + minBlock) % 2 ^ 32 then s
  else
    let tail := (b + want) % 2 ^ 32
    let s := s.poke tail ((size s.mem b + 2 ^ 32 - want) % 2 ^ 32)
    let s := s.poke (tail + 4) 1
    let s := s.poke (tail + 8) (next s.mem b)
    let s := s.poke b want
    s.patch b tail

/-- A block leaves the free list and is busy. -/
def takeBlock (b : ℕ) : ℕ × State := ((b + hdrBytes) % 2 ^ 32, (s.unlinkFree b).poke (b + 4) 0)

/-- `malloc` -/
def malloc (grant : Bool) (sz : ℕ) : ℕ × State :=
  if sz = 0 then (0, s)
  else
    let s := s.heapInit
    let want := if wanted sz < minBlock then minBlock else wanted sz
    let cur := s.follow fun p => want ≤ size s.mem p
    if cur ≠ 0 then (s.splitBlock cur want).takeBlock cur
    else
      match s.growHeap grant want with
      | (none, s) => (0, s)
      | (some b, s) =>
        (if (want + minBlock) % 2 ^ 32 ≤ size s.mem b then s.splitBlock b want else s).takeBlock b

/-- The block goes to its place in the free list. -/
def insertFree (b : ℕ) : State :=
  if s.freeHead = 0 ∨ b < s.freeHead then { s.poke (b + 8) s.freeHead with freeHead := b }
  else
    let p := s.follow fun p => next s.mem p = 0 ∨ ¬next s.mem p < b
    (s.poke (b + 8) (next s.mem p)).poke (p + 8) b

/-- A block takes in the one that follows it in the list, when they touch. -/
def absorb (b : ℕ) : State :=
  let nx := next s.mem b
  if (b + size s.mem b) % 2 ^ 32 = nx then
    let s := s.poke b ((size s.mem b + size s.mem nx) % 2 ^ 32)
    s.poke (b + 8) (next s.mem nx)
  else s

/-- `free_insert_coalesce` -/
def freeInsertCoalesce (b : ℕ) : State :=
  let s := (s.poke (b + 4) 1).insertFree b
  let s := if next s.mem b ≠ 0 then s.absorb b else s
  if s.freeHead ≠ b then s.absorb (s.follow fun p => next s.mem p = b) else s

/-- The header of the block an address belongs to. -/
def header (p : ℕ) : ℕ := (p + 2 ^ 32 - hdrBytes) % 2 ^ 32

/-- `free` -/
def free (p : ℕ) : State :=
  if p = 0 then s
  else if flag s.mem (header p) ≠ 0 then s
  else s.freeInsertCoalesce (header p)

/-- The copying loop of `realloc`. -/
def copy (q p n : ℕ) : State :=
  { s with mem := (List.range n).foldl (fun m i => put m (q + i) (m (p + i))) s.mem }

/-- `realloc` -/
def realloc (grant : Bool) (p sz : ℕ) : ℕ × State :=
  if p = 0 then s.malloc grant sz
  else if sz = 0 then (0, s.free p)
  else
    let b := header p
    let want := wanted sz
    if want ≤ size s.mem b then
      (p, if (want + minBlock) % 2 ^ 32 ≤ size s.mem b then s.splitBlock b want else s)
    else
      let r := s.malloc grant sz
      if r.1 = 0 then (0, r.2)
      else
        let old := (size r.2.mem b + 2 ^ 32 - hdrBytes) % 2 ^ 32
        (r.1, (r.2.copy r.1 p (if sz < old then sz else old)).free p)

/-- The clearing loop of `calloc`. -/
def clear (q n : ℕ) : State :=
  { s with mem := (List.range n).foldl (fun m i => put m (q + i) 0) s.mem }

/-- `calloc`. An `unsigned long` has 32 bits, so that the product is not larger than the largest
one; the test is made all the same. -/
def calloc (grant : Bool) (n sz : ℕ) : ℕ × State :=
  let total := n * sz % 2 ^ 32
  if 0xFFFFFFFF < total then (0, s)
  else
    let r := s.malloc grant total
    if r.1 = 0 then (0, r.2) else (r.1, r.2.clear r.1 total)

end State

end Malloc

end Makar
