import Makar.PmmCalls

/-!
# The allocator from boot on

`pmm_init` frees the frames of the bootloader's memory map one at a time.
Which frames those are is a pure function of the map, `freedFrames`, and the
whole initialisation is the fold of `initFrame` over them. When no frame
number comes up twice the invariant is established, over exactly those
frames, and every later call keeps it (`Inv.run`); what the invariant says
of a state between two calls is `Pmm.WellFormed`.

A frame number can come up twice although the regions of the map are
disjoint: it is computed by cutting a 64-bit page number to 32 bits *before*
the comparison with the window, so that regions `2 ^ 44` bytes apart give
the same frames, and freeing a frame that is free already ties its list
into a loop.
-/

namespace Makar

open List

namespace Pmm

/-! ## The frames of the map -/

/-- The frame numbers the region loop of `pmm_init` frees. -/
def regionFrames (kstart kend : ℕ) : ℕ → ℕ → List ℕ
  | 0, _ => []
  | n + 1, page =>
    let f := page % 2 ^ 32
    if pmmMaxFrames ≤ f then []
    else if f = 0 ∨ (kstart ≤ f ∧ f < kend) then regionFrames kstart kend n (page + 1)
    else f :: regionFrames kstart kend n (page + 1)

/-- The frame numbers one entry of the map gives. -/
def entryFrames (kernelPhysEnd : ℕ) (e : MmapEntry) : List ℕ :=
  if e.available then
    regionFrames kernelStartFrame (kernelEndFrame kernelPhysEnd)
      (e.endPage - e.startPage) e.startPage
  else []

/-- **The frame numbers `pmm_init` frees**, in order. -/
def freedFrames (kernelPhysEnd magic : ℕ) (tags : List MbTag) : List ℕ :=
  if magic ≠ multiboot2BootloaderMagic then []
  else
    match findMmap tags with
    | none => []
    | some entries => entries.flatMap (entryFrames kernelPhysEnd)

/-- The region loop is the fold over its frames. -/
theorem initRegion_eq_foldl (kstart kend n page : ℕ) (s : Pmm) :
    initRegion kstart kend n page s = (regionFrames kstart kend n page).foldl initFrame s := by
  induction n generalizing page s with
  | zero => rfl
  | succ n ih =>
    simp only [initRegion, regionFrames]
    split_ifs
    · rfl
    · exact ih (page + 1) s
    · exact ih (page + 1) (s.initFrame (page % 2 ^ 32))

/-- The entry loop is the fold over the frames of its entries. -/
theorem foldl_initEntry (kernelPhysEnd : ℕ) (entries : List MmapEntry) (s : Pmm) :
    entries.foldl (initEntry kernelPhysEnd) s
      = (entries.flatMap (entryFrames kernelPhysEnd)).foldl initFrame s := by
  induction entries generalizing s with
  | nil => rfl
  | cons e entries ih =>
    rw [foldl_cons, flatMap_cons, foldl_append, ih]
    congr 1
    unfold initEntry entryFrames
    split_ifs
    · exact initRegion_eq_foldl _ _ _ _ s
    · rfl

/-- **`pmm_init` is the fold of `initFrame` over the freed frames**, with the
counter copied at the end. -/
theorem pmmInit_eq (kernelPhysEnd magic : ℕ) (tags : List MbTag) :
    pmmInit kernelPhysEnd magic tags
      = { (freedFrames kernelPhysEnd magic tags).foldl initFrame empty with
          totalManaged := ((freedFrames kernelPhysEnd magic tags).foldl initFrame empty).freeFrames
        } := by
  unfold pmmInit freedFrames
  split_ifs
  · rfl
  · cases findMmap tags with
    | none => rfl
    | some entries => simp only [foldl_initEntry]

/-- Every frame freed is in the window, and is neither the null page nor a
frame of the kernel image. -/
theorem mem_regionFrames {kstart kend n page x : ℕ}
    (hx : x ∈ regionFrames kstart kend n page) :
    x < pmmMaxFrames ∧ x ≠ 0 ∧ ¬ (kstart ≤ x ∧ x < kend)
      ∧ ∃ i < n, x = (page + i) % 2 ^ 32 := by
  induction n generalizing page with
  | zero => cases hx
  | succ n ih =>
    have hrec : x ∈ regionFrames kstart kend n (page + 1) →
        x < pmmMaxFrames ∧ x ≠ 0 ∧ ¬ (kstart ≤ x ∧ x < kend)
          ∧ ∃ i < n + 1, x = (page + i) % 2 ^ 32 := by
      intro h
      obtain ⟨h₁, h₂, h₃, i, hi, hxi⟩ := ih h
      refine ⟨h₁, h₂, h₃, i + 1, by omega, ?_⟩
      rw [hxi, Nat.add_right_comm, Nat.add_assoc page i 1]
    simp only [regionFrames] at hx
    split_ifs at hx with hwin hskip
    · cases hx
    · exact hrec hx
    · rcases mem_cons.1 hx with rfl | hx
      · obtain ⟨h₀, hk⟩ := not_or.1 hskip
        exact ⟨Nat.lt_of_not_le hwin, h₀, hk, 0, by omega, rfl⟩
      · exact hrec hx

section

variable {kernelPhysEnd magic : ℕ} {tags : List MbTag} {x : ℕ}
  (hx : x ∈ freedFrames kernelPhysEnd magic tags)
include hx

/-- The frames freed are in the window, and not the null page. -/
theorem window_of_mem_freedFrames : x < pmmMaxFrames ∧ x ≠ 0 := by
  unfold freedFrames at hx
  split_ifs at hx
  · cases hx
  · cases hmap : findMmap tags with
    | none =>
      rw [hmap] at hx
      cases hx
    | some entries =>
      rw [hmap] at hx
      obtain ⟨e, -, he⟩ := mem_flatMap.1 hx
      unfold entryFrames at he
      split_ifs at he
      · obtain ⟨hlt, hz, -⟩ := mem_regionFrames he
        exact ⟨hlt, hz⟩
      · cases he

theorem lt_of_mem_freedFrames : x < pmmMaxFrames :=
  (window_of_mem_freedFrames hx).1

end

/-! ## The invariant after boot -/

variable {s : Pmm} {M : Set ℕ} {fs : List ℕ}

/-- **One frame of `pmm_init`** is managed from then on, and free. -/
theorem Inv.initFrame {f : ℕ} (h : s.Inv M none) (hf : f ∉ M) (hwin : f < pmmMaxFrames) :
    (s.initFrame f).Inv (insert f M) none
      ∧ ∀ g, ((s.initFrame f).memMap g).refcount = (s.memMap g).refcount := by
  obtain ⟨hinv, hkeep⟩ := buddyFree_spec
    (s := { s with maxFrames := if s.maxFrames < f + 1 then f + 1 else s.maxFrames })
    (h.enter hf hwin)
  exact ⟨hinv, hkeep.refcount⟩

/-- Freeing frames that are distinct and not managed yet manages them, and
allocates none. -/
theorem Inv.foldl_initFrame (h : s.Inv M none) (hnew : ∀ f ∈ fs, f ∉ M) (hnodup : fs.Nodup)
    (hwin : ∀ f ∈ fs, f < pmmMaxFrames) :
    (fs.foldl Pmm.initFrame s).Inv {x | x ∈ M ∨ x ∈ fs} none
      ∧ ∀ g, ((fs.foldl Pmm.initFrame s).memMap g).refcount = (s.memMap g).refcount := by
  induction fs generalizing s M with
  | nil =>
    have hM : {x | x ∈ M ∨ x ∈ ([] : List ℕ)} = M := by
      ext x
      simp
    rw [hM]
    exact ⟨h, fun g => rfl⟩
  | cons f fs ih =>
    obtain ⟨hf, hnodup⟩ := nodup_cons.1 hnodup
    obtain ⟨hstep, hkeep⟩ := h.initFrame (hnew f mem_cons_self) (hwin f mem_cons_self)
    have hrest := ih hstep (fun g hg => ?_) hnodup (fun g hg => hwin g (mem_cons_of_mem f hg))
    · have hM : {x | x ∈ M ∨ x ∈ f :: fs} = {x | x ∈ insert f M ∨ x ∈ fs} := by
        ext x
        simp only [Set.mem_ofPred_eq, mem_cons, Set.mem_insert_iff]
        tauto
      rw [hM, foldl_cons]
      exact ⟨hrest.1, fun g => (hrest.2 g).trans (hkeep g)⟩
    · rintro (rfl | hM)
      · exact hf hg
      · exact hnew g (mem_cons_of_mem f hg) hM

/-- **The invariant holds after boot**, when no frame is freed twice: the
managed frames are those freed, and none is allocated. -/
theorem inv_pmmInit {kernelPhysEnd magic : ℕ} {tags : List MbTag}
    (h : (freedFrames kernelPhysEnd magic tags).Nodup) :
    (pmmInit kernelPhysEnd magic tags).Inv
        {x | x ∈ freedFrames kernelPhysEnd magic tags} none
      ∧ ∀ f, ((pmmInit kernelPhysEnd magic tags).memMap f).refcount = 0 := by
  have hnew : ∀ f ∈ freedFrames kernelPhysEnd magic tags, f ∉ (∅ : Set ℕ) :=
    fun f _ => Set.notMem_empty f
  obtain ⟨hinv, href⟩ := inv_empty.foldl_initFrame hnew h (fun f hf => lt_of_mem_freedFrames hf)
  simp only [Set.mem_empty_iff_false, false_or] at hinv
  rw [pmmInit_eq]
  obtain ⟨L, hL, hcount⟩ := hinv.lists
  exact ⟨⟨⟨L, hL.congr rfl (fun _ => rfl) (fun _ _ => rfl), hcount⟩, hinv.tiles, hinv.lt_max,
    hinv.max_le, hinv.free_ref, hinv.hand_ref, hinv.not_buddies, hinv.ref_le⟩, href⟩

end Pmm

end Makar
