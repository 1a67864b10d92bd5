import Makar.PmmInit

/-!
# Holders and reference counts

A block is handed out with one holder, `pmm_inc_ref` adds one, and each
holder ends with a `pmm_free_pages` of its own. `Held` runs the allocator
beside that bookkeeping: for each frame the number of allocations and
`pmm_inc_ref` calls on the block it heads, less the frees, kept as a number
and not as the byte the descriptor has for it.

While the byte can follow, it is the number, and a block goes back to the
pool with its last holder (`held_until_last_free`). `pmm_inc_ref` leaves a
count of 255 alone and says nothing to its caller, so a block with more
holders than that goes back early.
-/

namespace Makar

open Function List

open Pmm

/-- The allocator, with the holders of each block counted beside it. -/
structure Held where
  /-- The allocator. -/
  pmm : Pmm
  /-- Allocations and `pmm_inc_ref` calls on the block the frame heads, less
  the frees. -/
  holders : ℕ → ℕ
  /-- The order the block was last allocated with. -/
  order : ℕ → ℕ

namespace Held

/-- The state after a call, with the call booked. -/
def step (h : Held) : PmmCall → Held
  | .allocPages order =>
    let r := h.pmm.pmmAllocPages order
    if r.1 = pmmAllocError then { h with pmm := r.2 }
    else
      let f := r.1 / pmmFrameSize
      { pmm := r.2
        holders := Function.update h.holders f (h.holders f + 1)
        order := Function.update h.order f order }
  | .freePages addr order =>
    let f := addr / pmmFrameSize
    { h with
      pmm := h.pmm.pmmFreePages addr order
      holders := Function.update h.holders f (h.holders f - 1) }
  | .incRef addr =>
    let f := addr / pmmFrameSize
    { h with
      pmm := h.pmm.pmmIncRef addr
      holders := Function.update h.holders f (h.holders f + 1) }

/-- The calls the holders may make: a reference is taken on a block that has
a holder, and a free is matched by a holder. -/
def Valid (h : Held) : PmmCall → Prop
  | .allocPages _ => True
  | .freePages addr _ => 0 < h.holders (addr / pmmFrameSize)
  | .incRef addr => 0 < h.holders (addr / pmmFrameSize)

instance (h : Held) (c : PmmCall) : Decidable (h.Valid c) := by
  cases c <;> dsimp only [Valid] <;> infer_instance

/-- The call does not ask the reference count for more than a byte holds. -/
def Fits (h : Held) : PmmCall → Prop
  | .incRef addr => h.holders (addr / pmmFrameSize) < 0xFF
  | _ => True

instance (h : Held) (c : PmmCall) : Decidable (h.Fits c) := by
  cases c <;> dsimp only [Fits] <;> infer_instance

/-- The allocator as booted, with no holder of anything. -/
def boot (kernelPhysEnd magic : ℕ) (tags : List MbTag) : Held where
  pmm := pmmInit kernelPhysEnd magic tags
  holders := fun _ => 0
  order := fun _ => 0

/-! ## The byte is the number -/

/-- The counts of the descriptors are the numbers of holders, and a block
that is held has the order it was allocated with. -/
structure Counted (M : Set ℕ) (h : Held) : Prop where
  inv : h.pmm.Inv M none
  refcount : ∀ f, (h.pmm.memMap f).refcount = h.holders f
  order : ∀ f, h.holders f ≠ 0 → (h.pmm.memMap f).order = h.order f

variable {M : Set ℕ} {h : Held}

/-- A recount of one frame keeps counts and holders together. -/
theorem Counted.recounted (hc : h.Counted M) {t : Pmm} {f n : ℕ} (ht : t.Inv M none)
    (hr : h.pmm.Recounted t f n) (hn : n ≠ 0 → h.holders f ≠ 0) :
    Counted M { h with pmm := t, holders := update h.holders f n } := by
  have href : ∀ g, (t.memMap g).refcount = update h.holders f n g := by
    intro g
    rw [hr.refcount g, update_apply, hc.refcount g]
  refine ⟨ht, href, fun g hg => ?_⟩
  change update h.holders f n g ≠ 0 at hg
  have hne : (t.memMap g).refcount ≠ 0 := by
    rw [href g]
    exact hg
  have hold : h.holders g ≠ 0 := by
    by_cases hgf : g = f
    · subst hgf
      rw [update_self] at hg
      exact hn hg
    · rw [update_of_ne hgf] at hg
      exact hg
  exact (hr.order g hne).trans (hc.order g hold)

/-- **A call that is valid and fits keeps the byte equal to the number.** -/
theorem Counted.step (hc : h.Counted M) (c : PmmCall) (hok : h.Valid c ∧ h.Fits c) :
    (h.step c).Counted M := by
  cases c with
  | allocPages o =>
    rcases pmmAllocPages_spec hc.inv o with ⟨heq, -⟩ | ⟨f, t, heq, ht, ha⟩
    · simp only [Held.step, heq, if_true]
      exact ⟨hc.inv, hc.refcount, hc.order⟩
    · have hzero : h.holders f = 0 := by
        rw [← hc.refcount f]
        exact refcount_of_inPool hc.inv (ha.inPool f (covers_self f o))
      simp only [Held.step, heq, mul_pmmFrameSize_ne, if_false, mul_div_pmmFrameSize, hzero,
        Nat.zero_add]
      refine ⟨ht, fun g => ?_, fun g hg => ?_⟩
      · simp only [ha.refcount g, update_apply, hc.refcount g]
      · by_cases hgf : g = f
        · subst hgf
          simp only [ha.order g (.inl rfl), if_true, update_self]
        · simp only [update_of_ne hgf] at hg ⊢
          have hne : (h.pmm.memMap g).refcount ≠ 0 := by
            rw [hc.refcount g]
            exact hg
          rw [ha.order g (.inr hne), if_neg hgf]
          exact hc.order g hg
  | freePages addr o =>
    obtain ⟨ht, hr⟩ := pmmFreePages_spec hc.inv addr o
    rw [hc.refcount] at hr
    refine hc.recounted ht hr (fun _ => ?_)
    exact Nat.pos_iff_ne_zero.1 hok.1
  | incRef addr =>
    obtain ⟨ht, hr⟩ := pmmIncRef_spec hc.inv addr
    have hpos : h.holders (addr / pmmFrameSize) ≠ 0 := Nat.pos_iff_ne_zero.1 hok.1
    have hlt : h.holders (addr / pmmFrameSize) ≠ 0xFF := Nat.ne_of_lt hok.2
    rw [hc.refcount, if_neg (not_or.2 ⟨hpos, hlt⟩)] at hr
    exact hc.recounted ht hr (fun _ => hpos)

/-- After boot nothing is held and no count is other than zero. -/
theorem counted_boot {kernelPhysEnd magic : ℕ} {tags : List MbTag}
    (hmap : (freedFrames kernelPhysEnd magic tags).Nodup) :
    (boot kernelPhysEnd magic tags).Counted {x | x ∈ freedFrames kernelPhysEnd magic tags} := by
  obtain ⟨hinv, href⟩ := inv_pmmInit hmap
  exact ⟨hinv, href, fun f hf => absurd rfl hf⟩

/-! ## A block goes back with its last holder -/

/-- A block that is held has no frame in the pool. -/
theorem Counted.not_inPool (hc : h.Counted M) {f x : ℕ} (hf : 0 < h.holders f)
    (hx : Covers f (h.order f) x) : ¬ h.pmm.InPool x := by
  have hne : h.holders f ≠ 0 := Nat.pos_iff_ne_zero.1 hf
  intro hpool
  refine (hc.inv.inPool_iff.1 hpool).2 f (h.order f) ⟨?_, hc.order f hne⟩ hx
  rw [hc.refcount f]
  exact hne

/-- The free of the last holder puts every frame of the block in the pool. -/
theorem Counted.inPool_of_last (hc : h.Counted M) {addr o x : ℕ}
    (hlast : h.holders (addr / pmmFrameSize) = 1)
    (hx : Covers (addr / pmmFrameSize) (h.order (addr / pmmFrameSize)) x) :
    (h.step (.freePages addr o)).pmm.InPool x := by
  refine hc.inv.inPool_of_last o rfl (by rw [hc.refcount, hlast]) ?_
  rwa [hc.order _ (by omega)]

/-- **A block is held until its last holder frees it.** In every run of valid
calls from boot in which no `pmm_inc_ref` is made on a block with 255
holders, no frame of a block that is held is in the pool, and the free of
the last holder puts every frame of the block there. -/
theorem held_until_last_free (kernelPhysEnd magic : ℕ) (tags : List MbTag)
    (hmap : (freedFrames kernelPhysEnd magic tags).Nodup) (cs : List PmmCall)
    (hok : Meets (fun h c => h.Valid c ∧ h.Fits c) Held.step
      (boot kernelPhysEnd magic tags) cs) :
    let h := cs.foldl Held.step (boot kernelPhysEnd magic tags)
    (∀ f x, 0 < h.holders f → Covers f (h.order f) x → ¬ h.pmm.InPool x)
      ∧ ∀ addr o x, h.holders (addr / pmmFrameSize) = 1 →
        Covers (addr / pmmFrameSize) (h.order (addr / pmmFrameSize)) x →
          (h.step (.freePages addr o)).pmm.InPool x := by
  intro h
  have hc : h.Counted _ := hok.invariant (fun _ c hs => hs.step c) (counted_boot hmap)
  exact ⟨fun f x hf hx => hc.not_inPool hf hx, fun addr o x hlast hx => hc.inPool_of_last hlast hx⟩

/-- The theorem at a map of one page, after a run that allocates, shares and
frees once: the block is still out. -/
theorem held_until_last_free_shared :
    (freedFrames 0x200000 multiboot2BootloaderMagic [.mmap [⟨0x300000, 0x1000, 1⟩]]).Nodup
      ∧ ¬ ([PmmCall.allocPages 0, .incRef 0x300000, .freePages 0x300000 0].foldl Held.step
        (boot 0x200000 multiboot2BootloaderMagic
          [.mmap [⟨0x300000, 0x1000, 1⟩]])).pmm.InPool 0x300 :=
  ⟨by decide, (held_until_last_free 0x200000 multiboot2BootloaderMagic
    [.mmap [⟨0x300000, 0x1000, 1⟩]] (by decide)
    [.allocPages 0, .incRef 0x300000, .freePages 0x300000 0] (by decide)).1 0x300 0x300
    (by decide) (covers_self _ _)⟩

/-! ## More holders than a byte counts -/

/-- The run that takes 255 references on the only page of the map after
allocating it, and frees it 255 times. -/
def saturatingRun : List PmmCall :=
  .allocPages 0 :: (List.replicate 255 (.incRef 0x300000)
    ++ List.replicate 255 (.freePages 0x300000 0))

/-- The allocator of a map of one page, as booted. -/
def onePage : Held := boot 0x200000 multiboot2BootloaderMagic [.mmap [⟨0x300000, 0x1000, 1⟩]]

/-- **A block goes back early**: every call of the run is valid, the page has
a holder left at the end, and it is in the pool. -/
theorem inPool_while_held :
    Meets Valid Held.step onePage saturatingRun
      ∧ (saturatingRun.foldl Held.step onePage).holders 0x300 = 1
      ∧ (saturatingRun.foldl Held.step onePage).pmm.InPool 0x300 := by
  refine ⟨by decide +kernel, by decide +kernel, 0x300, 0, ?_, covers_self 0x300 0⟩
  unfold Pmm.IsFree
  decide +kernel

end Held

end Makar
