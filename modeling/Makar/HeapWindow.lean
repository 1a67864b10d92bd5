import Makar.Heap
import Makar.PmmWellFormed

/-!
# The pool and the heap window

`heap_init` takes the physical frames of the window from `HEAP_START` to
`HEAP_MAX` by mapping them to themselves and writing block headers into
them. It tells the frame allocator nothing, and `pmm_init` reserves the null
page and the kernel image only. So whether the two share memory is decided
by the memory map alone: the allocator never hands out a frame of the window
exactly when `pmm_init` frees none.
-/

namespace Makar

open Finset

namespace Pmm

variable {s : Pmm} {M : Set ℕ} {x : ℕ}

/-- The bytes from an address on overlap the heap window. -/
def OverlapsHeap (addr bytes : ℕ) : Prop := addr < heapMax ∧ heapStart < addr + bytes

instance (addr bytes : ℕ) : Decidable (OverlapsHeap addr bytes) :=
  inferInstanceAs (Decidable (_ ∧ _))

/-- The window in frames. -/
theorem overlapsHeap_iff (f n : ℕ) :
    OverlapsHeap (f * pmmFrameSize) (n * pmmFrameSize) ↔ f < 0x3000 ∧ 0x800 < f + n := by
  have hmax : heapMax = 0x3000 * pmmFrameSize := rfl
  have hstart : heapStart = 0x800 * pmmFrameSize := rfl
  have hpos : 0 < pmmFrameSize := by decide
  unfold OverlapsHeap
  rw [hmax, hstart, ← Nat.add_mul, Nat.mul_lt_mul_right hpos, Nat.mul_lt_mul_right hpos]

/-- **A block overlaps the window exactly when one of its frames does.** -/
theorem overlapsHeap_block (f o : ℕ) :
    OverlapsHeap (f * pmmFrameSize) (2 ^ o * pmmFrameSize)
      ↔ ∃ x, Covers f o x ∧ OverlapsHeap (x * pmmFrameSize) pmmFrameSize := by
  have hpos := Nat.two_pow_pos o
  have hone : ∀ x, OverlapsHeap (x * pmmFrameSize) pmmFrameSize ↔ x < 0x3000 ∧ 0x800 < x + 1 :=
    fun x => overlapsHeap_iff x 1
  simp only [overlapsHeap_iff, hone, Covers]
  constructor
  · rintro ⟨hlo, hhi⟩
    by_cases hf : 0x800 ≤ f
    · exact ⟨f, by omega, by omega⟩
    · exact ⟨0x800, by omega, by omega⟩
  · rintro ⟨x, hx, hx'⟩
    omega

/-- What the allocator returns is made of managed frames. -/
theorem Inv.mem_of_alloc (h : s.Inv M none) {o addr : ℕ} {t : Pmm}
    (ha : s.pmmAllocPages o = (addr, t)) (hne : addr ≠ pmmAllocError) :
    ∃ f, addr = f * pmmFrameSize ∧ s.Allocated t f o ∧ ∀ x, Covers f o x → x ∈ M := by
  rcases pmmAllocPages_spec h o with ⟨heq, -⟩ | ⟨f, u, heq, -, halloc⟩
  · rw [heq] at ha
    exact absurd (congrArg Prod.fst ha).symm hne
  · rw [heq] at ha
    obtain ⟨rfl, rfl⟩ := Prod.mk.injEq .. ▸ ha
    exact ⟨f, rfl, halloc, fun x hx => (h.inPool_iff.1 (halloc.inPool x hx)).1⟩

/-! ## Every free frame is handed out in some run -/

/-- **A frame in the pool is handed out** after finitely many allocations of
one frame. The induction is on the number of frames in the pool. -/
theorem Inv.exists_alloc (h : s.Inv M none) (hx : s.InPool x) :
    ∃ (cs : List PmmCall) (t : Pmm),
      (cs.foldl Pmm.step s).pmmAllocPages 0 = (x * pmmFrameSize, t) := by
  obtain ⟨n, hn⟩ : ∃ n, s.freeFrames = n := ⟨_, rfl⟩
  induction n using Nat.strong_induction_on generalizing s with
  | _ n ih =>
    obtain ⟨f, t, heq, ht, ha⟩ := h.alloc_of_inPool hx
    by_cases hxf : x = f
    · exact ⟨[], t, by rw [hxf]; exact heq⟩
    · have hless := h.freeFrames_alloc ht ha
      obtain ⟨cs, u, hu⟩ := ih t.freeFrames (by omega) ht ((h.inPool_alloc ht ha).2 ⟨hx, hxf⟩) rfl
      refine ⟨.allocPages 0 :: cs, u, ?_⟩
      have hstep : s.step (.allocPages 0) = t := congrArg Prod.snd heq
      rw [List.foldl_cons, hstep]
      exact hu

/-! ## The heap window -/

/-- **No block handed out overlaps the heap window**, in any run from boot,
exactly when `pmm_init` frees no frame of it. -/
theorem alloc_avoids_heap_iff (kernelPhysEnd magic : ℕ) (tags : List MbTag)
    (hmap : (freedFrames kernelPhysEnd magic tags).Nodup) :
    (∀ (cs : List PmmCall) (o addr : ℕ) (t : Pmm),
        (cs.foldl Pmm.step (pmmInit kernelPhysEnd magic tags)).pmmAllocPages o = (addr, t) →
        addr ≠ pmmAllocError → ¬ OverlapsHeap addr (2 ^ o * pmmFrameSize))
      ↔ ∀ x ∈ freedFrames kernelPhysEnd magic tags,
        ¬ OverlapsHeap (x * pmmFrameSize) pmmFrameSize := by
  obtain ⟨hinv, href⟩ := inv_pmmInit hmap
  constructor
  · intro h x hx
    have hpool : (pmmInit kernelPhysEnd magic tags).InPool x :=
      hinv.inPool_iff.2 ⟨hx, fun f o ha _ => ha.1 (href f)⟩
    obtain ⟨cs, t, ht⟩ := hinv.exists_alloc hpool
    have := h cs 0 _ t ht (mul_pmmFrameSize_ne x)
    rw [Nat.pow_zero, Nat.one_mul] at this
    exact this
  · intro h cs o addr t ht hne hover
    obtain ⟨f, rfl, -, hmem⟩ := (hinv.run cs).mem_of_alloc ht hne
    obtain ⟨x, hx, hxo⟩ := (overlapsHeap_block f o).1 hover
    exact h x (hmem x hx) hxo

/-- The theorem at a map whose only region lies above the window. -/
theorem alloc_avoids_heap_above :
    (freedFrames 0x200000 multiboot2BootloaderMagic [.mmap [⟨0x3000000, 0x2000, 1⟩]]).Nodup
      ∧ ¬ OverlapsHeap ((pmmInit 0x200000 multiboot2BootloaderMagic
        [.mmap [⟨0x3000000, 0x2000, 1⟩]]).pmmAllocPages 1).1 (2 ^ 1 * pmmFrameSize) :=
  ⟨by decide, (alloc_avoids_heap_iff 0x200000 multiboot2BootloaderMagic
    [.mmap [⟨0x3000000, 0x2000, 1⟩]] (by decide)).2 (by decide) [] 1 _ _ rfl (by decide)⟩

/-- **The first allocation can be the first page of the heap**: with one page
of usable memory, at `HEAP_START`, and the kernel image below it. -/
theorem alloc_overlaps_heap :
    ((pmmInit 0x200000 multiboot2BootloaderMagic
        [.mmap [⟨0x800000, 0x1000, 1⟩]]).pmmAllocPages 0).1 = heapStart
      ∧ OverlapsHeap ((pmmInit 0x200000 multiboot2BootloaderMagic
        [.mmap [⟨0x800000, 0x1000, 1⟩]]).pmmAllocPages 0).1 (2 ^ 0 * pmmFrameSize) := by
  decide

end Pmm

end Makar
