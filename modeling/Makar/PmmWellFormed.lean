import Makar.PmmInit

/-!
# The buddy state stays well formed

`Pmm.WellFormed` is what a reader of the allocator expects of its state
between two calls, with no ghost set in it: lists that are doubly linked and
hold exactly the free blocks, free blocks that are aligned, in range, apart
from one another and from the allocated ones, no free buddies, and a counter
that counts. The invariant implies it, so it holds after every run from a
memory map that gives no frame twice.

The condition is also necessary. Whatever the map, `pmm_init` only ever makes
free blocks out of frames it has freed (`FreedOnly`) and counts one for each
frame freed, so a map that gives a frame twice leaves a counter larger than
the frames there are to count.
-/

namespace Makar

open Finset List Set

namespace Pmm

variable {s : Pmm} {M : Set ℕ} {L : ℕ → List ℕ} {f o x : ℕ}

/-- **The buddy state is well formed.** -/
structure WellFormed (s : Pmm) : Prop where
  /-- Each free list is a doubly linked list without repetition, the lists
  hold exactly the free blocks of their order, and the counter is the sum of
  the sizes of the free blocks. -/
  lists : ∃ L, s.Lists L ∧ s.freeFrames = listFrames L
  /-- A free block is aligned to its size. -/
  aligned : ∀ f o, s.IsFree f o → Aligned f o
  /-- A free block is inside the managed range. -/
  in_range : ∀ f o, s.IsFree f o → f + 2 ^ o ≤ s.maxFrames
  /-- Distinct free blocks are disjoint. -/
  free_apart : ∀ f o g p, s.IsFree f o → s.IsFree g p → f ≠ g → Apart f o g p
  /-- A free block and an allocated block are disjoint. -/
  alloc_apart : ∀ f o g p, s.IsFree f o → s.IsAlloc g p → Apart f o g p
  /-- No two free blocks of one order below the top are buddies. -/
  not_buddies : ∀ f o, s.IsFree f o → o + 1 < pmmMaxOrder → ¬ s.IsFree (buddyOf f o) o

/-! ## Counting the free frames -/

/-- The number of listed frames, as a sum over the listed blocks. -/
theorem listFrames_eq_sum (h : s.Lists L) :
    listFrames L
      = ∑ b ∈ (Finset.range pmmMaxOrder).sigma (fun o => (L o).toFinset), 2 ^ b.1 := by
  rw [Finset.sum_sigma]
  unfold listFrames
  refine sum_congr rfl (fun o ho => ?_)
  show (L o).length * 2 ^ o = ∑ _f ∈ (L o).toFinset, 2 ^ o
  rw [Finset.sum_const, toFinset_card_of_nodup (h.linked o (Finset.mem_range.1 ho)).nodup,
    smul_eq_mul]

/-- **Free blocks that are apart list the frames of the pool.** -/
theorem listFrames_eq_ncard (h : s.Lists L)
    (hapart : ∀ f o g p, s.IsFree f o → s.IsFree g p → f ≠ g → Apart f o g p) :
    listFrames L = {x | s.InPool x}.ncard := by
  rw [listFrames_eq_sum h]
  have hfree : ∀ b ∈ (Finset.range pmmMaxOrder).sigma (fun o => (L o).toFinset),
      s.IsFree b.2 b.1 := by
    intro b hb
    obtain ⟨ho, hf⟩ := mem_sigma.1 hb
    exact (h.mem_iff b.1 (Finset.mem_range.1 ho) b.2).1 (mem_toFinset.1 hf)
  rw [sum_two_pow_eq_ncard _ (fun b : (_ : ℕ) × ℕ => (b.2, b.1)) (fun b hb c hc hne => ?_)]
  · congr 1
    ext x
    constructor
    · rintro ⟨b, hb, hx⟩
      exact ⟨b.2, b.1, hfree b hb, hx⟩
    · rintro ⟨f, o, hf, hx⟩
      have ho : o < pmmMaxOrder := hf.2 ▸ h.order_lt f hf.1
      exact ⟨⟨o, f⟩, mem_sigma.2 ⟨Finset.mem_range.2 ho,
        mem_toFinset.2 ((h.mem_iff o ho f).2 hf)⟩, hx⟩
  · refine hapart _ _ _ _ (hfree b hb) (hfree c hc) (fun heq => hne ?_)
    -- one frame heads at most one free block
    obtain ⟨o, f⟩ := b
    obtain ⟨p, g⟩ := c
    have heq : f = g := heq
    subst heq
    have hop : o = p := (hfree _ hb).2.symm.trans (hfree _ hc).2
    rw [hop]

/-- They are no more than any set has that holds them. -/
theorem listFrames_le_card (h : s.Lists L) (S : Finset ℕ)
    (hapart : ∀ f o g p, s.IsFree f o → s.IsFree g p → f ≠ g → Apart f o g p)
    (hS : ∀ f o x, s.IsFree f o → Covers f o x → x ∈ S) : listFrames L ≤ S.card := by
  rw [listFrames_eq_ncard h hapart, ← ncard_coe_finset]
  exact ncard_le_ncard (fun x ⟨f, o, hf, hx⟩ => hS f o x hf hx) S.finite_toSet

/-- **The invariant makes the state well formed.** -/
theorem Inv.wellFormed (h : s.Inv M none) : s.WellFormed := by
  have hapart : ∀ f o g p, s.IsFree f o → s.IsFree g p → f ≠ g → Apart f o g p := by
    intro f o g p hf hg hne
    exact h.tiles.apart _ hf.mem_blocks _ hg.mem_blocks (fun heq => hne (congrArg Prod.fst heq))
  have hmem : ∀ f o x, s.IsFree f o → Covers f o x → x < s.maxFrames := fun f o x hf hx =>
    h.lt_max x (h.tiles.mem_of_covers hf.mem_blocks hx)
  refine ⟨?_, fun f o hf => h.tiles.aligned _ hf.mem_blocks, fun f o hf => ?_, hapart, ?_,
    h.not_buddies⟩
  · obtain ⟨L, hL, hcount⟩ := h.lists
    refine ⟨L, hL, ?_⟩
    have hle : listFrames L ≤ (Finset.range s.maxFrames).card :=
      listFrames_le_card hL _ hapart
        (fun f o x hf hx => Finset.mem_range.2 (hmem f o x hf hx))
    have hmax := h.max_le
    rw [card_range] at hle
    rw [hcount]
    unfold pmmMaxFrames at hmax
    simp only [handSize]
    omega
  · have hpos := Nat.two_pow_pos o
    have hlast : Covers f o (f + 2 ^ o - 1) := by
      unfold Covers
      omega
    have := hmem f o _ hf hlast
    omega
  · intro f o g p hf hg
    refine h.tiles.apart _ hf.mem_blocks _ hg.mem_blocks (fun heq => ?_)
    obtain ⟨rfl, rfl⟩ := Prod.mk.injEq .. ▸ heq
    exact hg.1 (h.free_ref f hf.1)

/-! ## The counter and the pool -/

/-- The pool is finite. -/
theorem Inv.finite_pool (h : s.Inv M none) : {x | s.InPool x}.Finite :=
  (finite_lt_nat s.maxFrames).subset fun x hx => h.lt_max x (h.inPool_iff.1 hx).1

/-- **The counter is the number of frames in the pool.** -/
theorem Inv.freeFrames_eq (h : s.Inv M none) : s.freeFrames = {x | s.InPool x}.ncard := by
  obtain ⟨L, hL, hcount⟩ := h.wellFormed.lists
  rw [hcount, listFrames_eq_ncard hL h.wellFormed.free_apart]

/-- Where the blocks and their counts are the same, so is the counter. -/
theorem KeepsAllocs.freeFrames {t : Pmm} (hk : s.KeepsAllocs t) (h : s.Inv M none)
    (ht : t.Inv M none) : t.freeFrames = s.freeFrames := by
  rw [h.freeFrames_eq, ht.freeFrames_eq]
  congr 1
  ext x
  have halloc : ∀ f o, t.IsAlloc f o ↔ s.IsAlloc f o := by
    intro f o
    unfold IsAlloc
    rw [hk.refcount f]
    exact and_congr_right fun hne => by rw [hk.order f hne]
  simp only [mem_ofPred_eq, ht.inPool_iff, h.inPool_iff, halloc]

/-- One frame handed out is one frame less. -/
theorem Inv.freeFrames_alloc {t : Pmm} (h : s.Inv M none) (ht : t.Inv M none)
    (ha : s.Allocated t f 0) : t.freeFrames + 1 = s.freeFrames := by
  rw [h.freeFrames_eq, ht.freeFrames_eq]
  have hpool : {x | t.InPool x} = {x | s.InPool x} \ {f} := by
    ext x
    exact h.inPool_alloc ht ha
  rw [hpool]
  exact ncard_sdiff_singleton_add_one (ha.inPool f (covers_self f 0)) h.finite_pool

/-! ## Initialisation frees nothing else -/

/-- Free blocks are aligned and made of frames of `S` only. -/
def FreedOnly (S : Set ℕ) (s : Pmm) : Prop :=
  ∀ f o, s.IsFree f o → Aligned f o ∧ ∀ x, Covers f o x → x ∈ S

variable {S : Set ℕ}

theorem isFree_of_buddyIsFree (h : s.buddyIsFree f o = true) : s.IsFree f o := by
  unfold buddyIsFree at h
  rw [Bool.and_eq_true, Bool.and_eq_true, decide_eq_true_iff, decide_eq_true_iff] at h
  exact ⟨h.1.2, h.2⟩

/-- The coalescing loop makes a block of frames of `S` into a larger one of
frames of `S`, and leaves the counter alone. -/
theorem FreedOnly.coalesce (n : ℕ) (h : s.FreedOnly S) (hal : Aligned f o)
    (hf : ∀ x, Covers f o x → x ∈ S) :
    (coalesce n f o s).2.2.FreedOnly S
      ∧ Aligned (coalesce n f o s).1 (coalesce n f o s).2.1
      ∧ (∀ x, Covers (coalesce n f o s).1 (coalesce n f o s).2.1 x → x ∈ S)
      ∧ (coalesce n f o s).2.2.freeFrames = s.freeFrames := by
  induction n generalizing f o s with
  | zero => exact ⟨h, hal, hf, rfl⟩
  | succ n ih =>
    by_cases hgo : o + 1 < pmmMaxOrder ∧ s.buddyIsFree (buddyOf f o) o = true
    · rw [coalesce_merge n hgo.1 hgo.2]
      have hb : s.IsFree (buddyOf f o) o := isFree_of_buddyIsFree hgo.2
      have hdel : (s.listDel o (buddyOf f o)).FreedOnly S :=
        fun g p hg => h g p (isFree_listDel.1 hg).1
      have hlow : ∀ x, Covers (lowerHalf f o) (o + 1) x → x ∈ S := by
        intro x hx
        rcases (covers_lowerHalf hal x).1 hx with hx | hx
        · exact hf x hx
        · exact (h _ _ hb).2 x hx
      obtain ⟨h₁, h₂, h₃, h₄⟩ := ih hdel (aligned_lowerHalf hal) hlow
      exact ⟨h₁, h₂, h₃, h₄.trans listDel_freeFrames⟩
    · rw [coalesce_stay _ hgo]
      exact ⟨h, hal, hf, rfl⟩

/-- One frame of `pmm_init` counts one, and is all that becomes free. -/
theorem FreedOnly.initFrame (h : s.FreedOnly S) (hf : f ∈ S) :
    (s.initFrame f).FreedOnly S
      ∧ (s.initFrame f).freeFrames = (s.freeFrames + 1) % 2 ^ 32 := by
  obtain ⟨h₁, h₂, h₃, h₄⟩ := FreedOnly.coalesce (s :=
      { s with
        maxFrames := if s.maxFrames < f + 1 then f + 1 else s.maxFrames
        freeFrames := (s.freeFrames + 1 <<< 0) % 2 ^ 32 })
    (f := f) (o := 0) pmmMaxOrder h (aligned_zero f)
    (fun x hx => by rw [covers_zero.1 hx]; exact hf)
  simp only [Pmm.initFrame, buddyFree]
  generalize Pmm.coalesce pmmMaxOrder f 0 _ = r at h₁ h₂ h₃ h₄
  obtain ⟨f', o', t⟩ := r
  refine ⟨?_, ?_⟩
  · rintro g p ⟨hb, hp⟩
    rw [listAdd_pgBuddy] at hb
    rw [listAdd_order] at hp
    by_cases hg : g = f'
    · rw [if_pos hg] at hp
      subst hg hp
      exact ⟨h₂, h₃⟩
    · rw [if_neg hg] at hp hb
      rw [setPage_memMap_of_ne _ hg] at hp hb
      exact h₁ g p ⟨hb, hp⟩
  · rw [listAdd_freeFrames, setPage_freeFrames]
    exact h₄

/-- The frames of a list, freed one after another. -/
theorem FreedOnly.foldl_initFrame (fs : List ℕ) (h : s.FreedOnly S) (hfs : ∀ f ∈ fs, f ∈ S)
    (hlt : s.freeFrames < 2 ^ 32) :
    (fs.foldl Pmm.initFrame s).FreedOnly S
      ∧ (fs.foldl Pmm.initFrame s).freeFrames = (s.freeFrames + fs.length) % 2 ^ 32 := by
  induction fs generalizing s with
  | nil => exact ⟨h, (Nat.mod_eq_of_lt hlt).symm⟩
  | cons f fs ih =>
    obtain ⟨hone, hcount⟩ := h.initFrame (hfs f mem_cons_self)
    obtain ⟨hrest, hall⟩ := ih hone (fun g hg => hfs g (mem_cons_of_mem f hg))
      (by rw [hcount]; exact Nat.mod_lt _ (by decide))
    refine ⟨hrest, ?_⟩
    rw [foldl_cons, hall, hcount, Nat.mod_add_mod, length_cons]
    congr 1
    omega

/-- **Whatever the map**, `pmm_init` makes free blocks of the frames it frees
only, and counts them with repetition. -/
theorem freedOnly_pmmInit (kernelPhysEnd magic : ℕ) (tags : List MbTag) :
    (pmmInit kernelPhysEnd magic tags).FreedOnly {x | x ∈ freedFrames kernelPhysEnd magic tags}
      ∧ (pmmInit kernelPhysEnd magic tags).freeFrames
        = (freedFrames kernelPhysEnd magic tags).length % 2 ^ 32 := by
  have hempty : empty.FreedOnly {x | x ∈ freedFrames kernelPhysEnd magic tags} := by
    rintro f o ⟨hf, -⟩
    exact absurd hf Bool.false_ne_true
  obtain ⟨h₁, h₂⟩ := hempty.foldl_initFrame (freedFrames kernelPhysEnd magic tags)
    (fun f hf => hf) (by decide)
  rw [pmmInit_eq]
  refine ⟨h₁, ?_⟩
  rw [h₂]
  congr 1
  exact Nat.zero_add _

/-- A map that gives a frame twice leaves a state that is not well formed:
the counter exceeds the frames there are. -/
theorem not_wellFormed_of_not_nodup {kernelPhysEnd magic : ℕ} {tags : List MbTag}
    (hlen : (freedFrames kernelPhysEnd magic tags).length < 2 ^ 32)
    (hdup : ¬ (freedFrames kernelPhysEnd magic tags).Nodup) :
    ¬ (pmmInit kernelPhysEnd magic tags).WellFormed := by
  intro h
  obtain ⟨hfreed, hcount⟩ := freedOnly_pmmInit kernelPhysEnd magic tags
  obtain ⟨L, hL, hsum⟩ := h.lists
  rw [Nat.mod_eq_of_lt hlen, hsum] at hcount
  have hle : listFrames L ≤ (freedFrames kernelPhysEnd magic tags).toFinset.card :=
    listFrames_le_card hL _ h.free_apart
      (fun f o x hf hx => mem_toFinset.2 ((hfreed f o hf).2 x hx))
  have hcard : (freedFrames kernelPhysEnd magic tags).toFinset.card
      ≠ (freedFrames kernelPhysEnd magic tags).length :=
    fun heq => hdup (Multiset.toFinset_card_eq_card_iff_nodup.1 heq)
  have := toFinset_card_le (freedFrames kernelPhysEnd magic tags)
  omega

/-! ## Every run from boot -/

/-- **The buddy state stays well formed** through every run from boot, with
whatever arguments, exactly when `pmm_init` frees no frame twice. (A map that
gives `2 ^ 32` frames or more gives some frame twice.) -/
theorem wellFormed_run_iff (kernelPhysEnd magic : ℕ) (tags : List MbTag)
    (hlen : (freedFrames kernelPhysEnd magic tags).length < 2 ^ 32) :
    (∀ cs : List PmmCall, (cs.foldl Pmm.step (pmmInit kernelPhysEnd magic tags)).WellFormed)
      ↔ (freedFrames kernelPhysEnd magic tags).Nodup := by
  constructor
  · intro h
    by_contra hdup
    exact not_wellFormed_of_not_nodup hlen hdup (h [])
  · intro hnodup cs
    exact ((inv_pmmInit hnodup).1.run cs).wellFormed

/-- The run theorem at a map with one region of four pages, and a run that
allocates, shares and frees. -/
theorem wellFormed_run_one_region :
    (freedFrames 0x200000 multiboot2BootloaderMagic
        [.mmap [⟨0x300000, 0x4000, 1⟩]]).length < 2 ^ 32
      ∧ ([PmmCall.allocPages 1, .incRef 0x300000, .freePages 0x300000 0].foldl Pmm.step
        (pmmInit 0x200000 multiboot2BootloaderMagic [.mmap [⟨0x300000, 0x4000, 1⟩]])).WellFormed :=
  ⟨by decide, (wellFormed_run_iff 0x200000 multiboot2BootloaderMagic
    [.mmap [⟨0x300000, 0x4000, 1⟩]] (by decide)).2 (by decide) _⟩

/-! ## Disjoint regions -/

/-- The available regions of the map are pairwise disjoint. -/
def DisjointRegions (entries : List MmapEntry) : Prop :=
  entries.Pairwise (fun a b => a.available = true → b.available = true →
    a.baseAddr.toNat + a.length.toNat ≤ b.baseAddr.toNat
      ∨ b.baseAddr.toNat + b.length.toNat ≤ a.baseAddr.toNat)

instance (entries : List MmapEntry) : Decidable (DisjointRegions entries) :=
  inferInstanceAs (Decidable (List.Pairwise _ _))

/-- Two disjoint one-page regions, `2 ^ 44` bytes apart. -/
def aliasedMap : List MmapEntry := [⟨0x1000, 0x1000, 1⟩, ⟨0x100000001000, 0x1000, 1⟩]

/-- **Disjoint regions are not enough**: both regions of `aliasedMap` give
frame 1, which is freed twice. -/
theorem not_wellFormed_aliasedMap :
    DisjointRegions aliasedMap
      ∧ ¬ (pmmInit 0x200000 multiboot2BootloaderMagic [.mmap aliasedMap]).WellFormed :=
  ⟨by decide, not_wellFormed_of_not_nodup (by decide) (by decide)⟩

end Pmm

end Makar
