import Makar.PmmInv
import Makar.Runs

/-!
# What the calls of the allocator do

For each function of `pmm.c` one specification: it keeps the invariant, and
it changes the references of one block and of no other. The free pool is
read off the rest: a managed frame is in the pool exactly when no allocated
block covers it (`Inv.inPool_iff`), so a caller who knows the allocated
blocks knows the pool, and nothing above this module looks at a list again.
-/

namespace Makar

open List Nat

namespace Pmm

variable {s t u : Pmm} {M : Set ℕ} {f g o p x : ℕ}

/-- A frame is in the pool when a free block covers it. -/
def InPool (s : Pmm) (x : ℕ) : Prop := ∃ f o, s.IsFree f o ∧ Covers f o x

/-- **The pool is what is not allocated**: between calls a frame is in the
pool exactly when it is managed and no allocated block covers it. -/
theorem Inv.inPool_iff (h : s.Inv M none) :
    s.InPool x ↔ x ∈ M ∧ ∀ f o, s.IsAlloc f o → ¬ Covers f o x := by
  constructor
  · rintro ⟨f, o, hf, hx⟩
    refine ⟨h.tiles.mem_of_covers hf.mem_blocks hx, fun g p hg hgx => ?_⟩
    have heq := h.tiles.eq_of_covers hf.mem_blocks hg.mem_blocks hx hgx
    obtain ⟨rfl, rfl⟩ := Prod.mk.injEq .. ▸ heq
    exact hg.1 (h.free_ref f hf.1)
  · rintro ⟨hx, hno⟩
    obtain ⟨⟨f, o⟩, hb, hc⟩ := (h.tiles.covers x).1 hx
    rcases hb with hb | hb | hb
    · exact ⟨f, o, hb, hc⟩
    · exact absurd hc (hno f o hb)
    · cases hb

/-- An address of a block is not the error value. -/
theorem mul_pmmFrameSize_ne (f : ℕ) : f * pmmFrameSize ≠ pmmAllocError := by
  unfold pmmFrameSize pmmAllocError
  omega

theorem mul_div_pmmFrameSize (f : ℕ) : f * pmmFrameSize / pmmFrameSize = f :=
  Nat.mul_div_cancel f (by decide)

/-- A frame in the pool heads no allocated block. -/
theorem refcount_of_inPool (hs : s.Inv M none) (hf : s.InPool f) :
    (s.memMap f).refcount = 0 := by
  by_contra hne
  exact (hs.inPool_iff.1 hf).2 f _ ⟨hne, rfl⟩ (covers_self f _)

/-- Nothing changed about who holds what: the references of every block, its
order, and the managed range. -/
structure KeepsAllocs (s t : Pmm) : Prop where
  refcount : ∀ g, (t.memMap g).refcount = (s.memMap g).refcount
  order : ∀ g, (s.memMap g).refcount ≠ 0 → (t.memMap g).order = (s.memMap g).order
  maxFrames : t.maxFrames = s.maxFrames

theorem KeepsAllocs.refl (s : Pmm) : s.KeepsAllocs s :=
  ⟨fun _ => rfl, fun _ _ => rfl, rfl⟩

theorem KeepsAllocs.trans (h₁ : s.KeepsAllocs t) (h₂ : t.KeepsAllocs u) : s.KeepsAllocs u := by
  refine ⟨fun g => (h₂.refcount g).trans (h₁.refcount g), fun g hg => ?_,
    h₂.maxFrames.trans h₁.maxFrames⟩
  have hg' : (t.memMap g).refcount ≠ 0 := by
    rw [h₁.refcount g]
    exact hg
  exact (h₂.order g hg').trans (h₁.order g hg)

theorem keepsAllocs_listDel (s : Pmm) (o f : ℕ) : s.KeepsAllocs (s.listDel o f) :=
  ⟨fun g => listDel_refcount g, fun g _ => listDel_order g, listDel_maxFrames⟩

theorem keepsAllocs_listAdd (hf : (s.memMap f).refcount = 0) :
    s.KeepsAllocs (s.listAdd o f) := by
  refine ⟨fun g => listAdd_refcount g, fun g hg => ?_, listAdd_maxFrames⟩
  rw [listAdd_order, if_neg]
  rintro rfl
  exact hg hf

/-! ## `buddy_free` -/

variable {hand : Option (ℕ × ℕ)}

/-- Under the invariant the range check of `buddy_is_free` is idle. -/
theorem Inv.buddyIsFree_iff (h : s.Inv M hand) : s.buddyIsFree f o = true ↔ s.IsFree f o := by
  have hlt : s.IsFree f o → f < s.maxFrames := fun hf =>
    h.lt_max f (h.tiles.mem_of_covers hf.mem_blocks (covers_self f o))
  unfold buddyIsFree
  rw [Bool.and_eq_true, Bool.and_eq_true, decide_eq_true_iff, decide_eq_true_iff, and_assoc]
  exact ⟨And.right, fun hf => ⟨hlt hf, hf⟩⟩

/-- The loop goes on while the buddy is free. -/
theorem coalesce_merge (n : ℕ) (ho : o + 1 < pmmMaxOrder)
    (hb : s.buddyIsFree (buddyOf f o) o = true) :
    coalesce (n + 1) f o s = coalesce n (lowerHalf f o) (o + 1) (s.listDel o (buddyOf f o)) := by
  have hlt : o < pmmMaxOrder - 1 := lt_sub_of_add_lt ho
  have hb' : s.buddyIsFree (f ^^^ (1 <<< o)) o = true := hb
  rw [coalesce, if_pos hlt]
  simp only [hb', if_true]
  rfl

/-- The loop stops when the buddy is not free, or at the top order. -/
theorem coalesce_stay (n : ℕ)
    (h : ¬ (o + 1 < pmmMaxOrder ∧ s.buddyIsFree (buddyOf f o) o = true)) :
    coalesce n f o s = (f, o, s) := by
  cases n with
  | zero => rfl
  | succ n =>
    by_cases ho : o < pmmMaxOrder - 1
    · have hb : ¬ s.buddyIsFree (f ^^^ (1 <<< o)) o = true := fun hb =>
        h ⟨add_lt_of_lt_sub ho, hb⟩
      rw [coalesce, if_pos ho]
      exact if_neg hb
    · rw [coalesce, if_neg ho]

/-- **The coalescing loop** keeps the block in hand in order, stops with a
block the buddy of which is not free, and changes no references; the number
of turns it is given is enough. -/
theorem coalesce_stops (n : ℕ) (h : s.Inv M (some (f, o))) (hn : pmmMaxOrder ≤ o + n + 1) :
    (coalesce n f o s).2.2.Inv M (some ((coalesce n f o s).1, (coalesce n f o s).2.1))
      ∧ ((coalesce n f o s).2.1 + 1 < pmmMaxOrder →
        ¬ (coalesce n f o s).2.2.IsFree
          (buddyOf (coalesce n f o s).1 (coalesce n f o s).2.1) (coalesce n f o s).2.1)
      ∧ s.KeepsAllocs (coalesce n f o s).2.2 := by
  induction n generalizing f o s with
  | zero => exact ⟨h, fun hlt => absurd hlt (not_lt.2 hn), KeepsAllocs.refl s⟩
  | succ n ih =>
    by_cases hgo : o + 1 < pmmMaxOrder ∧ s.buddyIsFree (buddyOf f o) o = true
    · rw [coalesce_merge n hgo.1 hgo.2]
      have hstep := h.merge hgo.1 (h.buddyIsFree_iff.1 hgo.2)
      obtain ⟨hinv, hstop, hkeep⟩ := ih hstep (by omega)
      exact ⟨hinv, hstop, (keepsAllocs_listDel s o _).trans hkeep⟩
    · rw [coalesce_stay _ hgo]
      exact ⟨h, fun hlt hf => hgo ⟨hlt, h.buddyIsFree_iff.2 hf⟩, KeepsAllocs.refl s⟩

/-- **`buddy_free`**, once its counter update has put the block in hand. -/
theorem buddyFree_spec
    (h : Inv M (some (f, o)) { s with freeFrames := (s.freeFrames + 1 <<< o) % 2 ^ 32 }) :
    (s.buddyFree f o).Inv M none ∧ s.KeepsAllocs (s.buddyFree f o) := by
  obtain ⟨hinv, hstop, hkeep⟩ := coalesce_stops pmmMaxOrder h (by omega)
  simp only [buddyFree]
  generalize coalesce pmmMaxOrder f o
    { s with freeFrames := (s.freeFrames + 1 <<< o) % 2 ^ 32 } = r at hinv hstop hkeep
  obtain ⟨f', o', t⟩ := r
  have hclear := hinv.hand_ref f' o' rfl
  -- the write of zero to the reference count of the block writes what is there
  have hset : t.setPage f' (fun p => { p with refcount := 0 }) = t := by
    have hp : ({ t.memMap f' with refcount := 0 } : Page) = t.memMap f' := by
      rw [← hclear.2]
    simp only [setPage, hp, Function.update_eq_self]
  simp only [hset]
  refine ⟨hinv.give hstop, KeepsAllocs.trans ?_ (keepsAllocs_listAdd hclear.2)⟩
  exact ⟨hkeep.refcount, hkeep.order, hkeep.maxFrames⟩

/-! ## `pmm_alloc_pages` -/

/-- The search finds a list that is not empty, from the requested order up. -/
theorem findOrder_eq_some (h : s.findOrder p = some o) :
    p ≤ o ∧ o < pmmMaxOrder ∧ s.freeLists o ≠ pmmNil := by
  have hmem := mem_of_find?_eq_some h
  have hne := find?_some h
  rw [mem_range'_1] at hmem
  rw [decide_eq_true_iff] at hne
  refine ⟨hmem.1, ?_, hne⟩
  omega

/-- The search fails only when every list from the requested order up is
empty. -/
theorem findOrder_eq_none (h : s.findOrder p = none) (hpo : p ≤ o) (ho : o < pmmMaxOrder) :
    s.freeLists o = pmmNil := by
  have hall := find?_eq_none.1 h o (by rw [mem_range'_1]; omega)
  rw [decide_eq_true_iff] at hall
  exact not_not.1 hall

/-- **The splitting loop** leaves the lower part of the block in hand. -/
theorem splitDown_spec (k : ℕ) (h : s.Inv M (some (f, o + k))) :
    (splitDown o f k s).Inv M (some (f, o)) ∧ s.KeepsAllocs (splitDown o f k s) := by
  induction k generalizing s with
  | zero => exact ⟨h, KeepsAllocs.refl s⟩
  | succ k ih =>
    unfold splitDown
    rw [one_shiftLeft]
    have hup : Covers f (o + k + 1) (f + 2 ^ (o + k)) :=
      (covers_halves f (o + k) _).2 (.inr (covers_self _ _))
    obtain ⟨hinv, hkeep⟩ := ih h.park
    exact ⟨hinv, (keepsAllocs_listAdd (h.clear_of_hand hup).2).trans hkeep⟩

/-- What an allocation has done, when it has returned the block of that order
at frame `f`. -/
structure Allocated (s t : Pmm) (f o : ℕ) : Prop where
  /-- The order is one the allocator has. -/
  order_lt : o < pmmMaxOrder
  /-- Every frame of the block was in the pool. -/
  inPool : ∀ x, Covers f o x → s.InPool x
  /-- The block has one reference, and no other block's changed. -/
  refcount : ∀ g, (t.memMap g).refcount = if g = f then 1 else (s.memMap g).refcount
  /-- The block is booked with the order, and no other block's changed. -/
  order : ∀ g, g = f ∨ (s.memMap g).refcount ≠ 0 →
    (t.memMap g).order = if g = f then o else (s.memMap g).order
  /-- The managed range is what it was. -/
  maxFrames : t.maxFrames = s.maxFrames

/-- **`pmm_alloc_pages`** either fails and changes nothing, with every list
from the order up empty, or hands out a block that was free. -/
theorem pmmAllocPages_spec (h : s.Inv M none) (o : ℕ) :
    (s.pmmAllocPages o = (pmmAllocError, s)
        ∧ ∀ p, o ≤ p → p < pmmMaxOrder → s.freeLists p = pmmNil)
      ∨ ∃ f t, s.pmmAllocPages o = (f * pmmFrameSize, t) ∧ t.Inv M none ∧ s.Allocated t f o := by
  unfold pmmAllocPages
  split_ifs with ho
  · exact .inl ⟨rfl, fun p hop hp => absurd hp (not_lt.2 (ho.trans hop))⟩
  cases hfind : s.findOrder o with
  | none => exact .inl ⟨rfl, fun p => findOrder_eq_none hfind⟩
  | some q =>
    refine .inr ⟨_, _, rfl, ?_⟩
    obtain ⟨hoq, hq, hne⟩ := findOrder_eq_some hfind
    obtain ⟨L, hL, -⟩ := h.lists
    have hfree : s.IsFree (s.freeLists q) q := hL.isFree_head hq hne
    generalize s.freeLists q = f at hfree
    have hq' : q = o + (q - o) := by omega
    have htaken := h.take hfree
    rw [hq'] at htaken
    obtain ⟨hinv, hkeep⟩ := splitDown_spec (q - o) htaken
    rw [← hq'] at hinv hkeep
    have hkeep := (keepsAllocs_listDel s q f).trans hkeep
    refine ⟨hinv.handOut, Nat.lt_of_not_le ho, ?_, ?_, ?_, hkeep.maxFrames⟩
    · intro x hx
      refine ⟨f, q, hfree, ?_⟩
      have hle : 2 ^ o ≤ 2 ^ q := Nat.pow_le_pow_right (by decide) hoq
      unfold Covers at hx ⊢
      omega
    · intro g
      by_cases hg : g = f
      · simp [hg]
      · simp [hg, hkeep.refcount g]
    · intro g hg
      by_cases hgf : g = f
      · simp [hgf]
      · simp [hgf, hkeep.order g (hg.resolve_left hgf)]

/-- A pool that is not empty serves a request for one frame. -/
theorem Inv.alloc_of_inPool (h : s.Inv M none) (hx : s.InPool x) :
    ∃ f t, s.pmmAllocPages 0 = (f * pmmFrameSize, t) ∧ t.Inv M none ∧ s.Allocated t f 0 := by
  rcases pmmAllocPages_spec h 0 with ⟨-, hempty⟩ | hok
  · obtain ⟨f, o, hf, -⟩ := hx
    obtain ⟨L, hL, -⟩ := h.lists
    have ho : o < pmmMaxOrder := hf.2 ▸ hL.order_lt f hf.1
    have hnil := (hL.linked o ho).head_eq_nil_iff.1 (hempty o (zero_le o) ho)
    have hmem := (hL.mem_iff o ho f).2 hf
    rw [hnil] at hmem
    cases hmem
  · exact hok

/-- One frame leaves the pool when it is handed out, and no other. -/
theorem Inv.inPool_alloc (h : s.Inv M none) (ht : t.Inv M none)
    (ha : s.Allocated t f 0) : t.InPool x ↔ s.InPool x ∧ x ≠ f := by
  have hfpool : s.InPool f := ha.inPool f (covers_self f 0)
  have halloc : ∀ g p, t.IsAlloc g p ↔ (g = f ∧ p = 0) ∨ (g ≠ f ∧ s.IsAlloc g p) := by
    intro g p
    unfold IsAlloc
    rw [ha.refcount g]
    by_cases hg : g = f
    · rw [ha.order g (.inl hg)]
      simp [hg, eq_comm]
    · simp only [hg, if_false, false_and, false_or, ne_eq, not_false_eq_true, true_and]
      refine and_congr_right (fun hne => ?_)
      rw [ha.order g (.inr hne), if_neg hg]
  rw [ht.inPool_iff, h.inPool_iff]
  constructor
  · rintro ⟨hM, hno⟩
    refine ⟨⟨hM, fun g p hg hgx => ?_⟩, fun hxf => ?_⟩
    · by_cases hgf : g = f
      · exact hg.1 (hgf ▸ refcount_of_inPool h hfpool)
      · exact hno g p ((halloc g p).2 (.inr ⟨hgf, hg⟩)) hgx
    · exact hno f 0 ((halloc f 0).2 (.inl ⟨rfl, rfl⟩)) (covers_zero.2 hxf)
  · rintro ⟨⟨hM, hno⟩, hxf⟩
    refine ⟨hM, fun g p hg hgx => ?_⟩
    rcases (halloc g p).1 hg with ⟨rfl, rfl⟩ | ⟨-, hg⟩
    · exact hxf (covers_zero.1 hgx)
    · exact hno g p hg hgx

/-! ## `pmm_free_pages` and `pmm_inc_ref` -/

/-- A frame with references is in range. -/
theorem Inv.lt_of_refcount (h : s.Inv M hand) (hf : (s.memMap f).refcount ≠ 0) :
    f < s.maxFrames := by
  by_contra hlt
  refine hf (h.clear_of_not_mem (fun hM => hlt (h.lt_max f hM))).2

/-- A call that leaves every reference count but that of `f` alone, which
becomes `n`, and no order of a block that keeps references. -/
structure Recounted (s t : Pmm) (f n : ℕ) : Prop where
  refcount : ∀ g, (t.memMap g).refcount = if g = f then n else (s.memMap g).refcount
  order : ∀ g, (t.memMap g).refcount ≠ 0 → (t.memMap g).order = (s.memMap g).order
  maxFrames : t.maxFrames = s.maxFrames

/-- Writing back the count that is there. -/
theorem Recounted.refl (s : Pmm) (f : ℕ) : s.Recounted s f (s.memMap f).refcount := by
  refine ⟨fun g => ?_, fun _ _ => rfl, rfl⟩
  split_ifs with hg
  · rw [hg]
  · rfl

section

variable (h : s.Inv M none)
include h

/-- **`pmm_free_pages`** takes one reference off the block, if it has any. -/
theorem pmmFreePages_spec (addr o : ℕ) :
    (s.pmmFreePages addr o).Inv M none
      ∧ s.Recounted (s.pmmFreePages addr o) (addr / pmmFrameSize)
        ((s.memMap (addr / pmmFrameSize)).refcount - 1) := by
  unfold pmmFreePages
  generalize addr / pmmFrameSize = f
  by_cases hz : (s.memMap f).refcount = 0
  · have hrefl := Recounted.refl s f
    rw [hz] at hrefl
    simp only [hz, if_true, ite_self]
    exact ⟨h, hrefl⟩
  have hlt := h.lt_of_refcount hz
  simp only [not_le.2 hlt, hz, if_false, setPage_memMap_self]
  by_cases hone : (s.memMap f).refcount = 1
  · rw [if_pos (by omega)]
    obtain ⟨hinv, hkeep⟩ := buddyFree_spec (h.release ⟨hz, rfl⟩ hone)
    refine ⟨hinv, fun g => ?_, fun g hg => ?_, hkeep.maxFrames⟩
    · rw [hkeep.refcount g, setPage_memMap]
      split_ifs <;> rfl
    · rw [hkeep.refcount g] at hg
      rw [hkeep.order g hg, setPage_memMap]
      split_ifs with hgf
      · rw [hgf]
      · rfl
  · rw [if_neg (by omega)]
    have hle := h.ref_le f
    have hstep := h.recount hz (n := (s.memMap f).refcount - 1) (by omega) (by omega)
    have heq : s.setPage f (fun p => { p with refcount := p.refcount - 1 })
        = s.setPage f (fun p => { p with refcount := (s.memMap f).refcount - 1 }) := rfl
    rw [heq]
    refine ⟨hstep, fun g => ?_, fun g _ => ?_, rfl⟩ <;> rw [setPage_memMap] <;>
      split_ifs with hgf
    · rfl
    · rfl
    · rw [hgf]
    · rfl

/-- Giving a reference up takes no frame out of the pool. -/
theorem Inv.inPool_freePages (addr o : ℕ) (hx : s.InPool x) : (s.pmmFreePages addr o).InPool x := by
  obtain ⟨hinv, hrec⟩ := pmmFreePages_spec h addr o
  obtain ⟨hM, hno⟩ := h.inPool_iff.1 hx
  refine hinv.inPool_iff.2 ⟨hM, fun g p hg => hno g p ⟨fun hz => hg.1 ?_, ?_⟩⟩
  · rw [hrec.refcount g]
    split_ifs with hgf
    · rw [← hgf, hz]
    · exact hz
  · rw [← hrec.order g hg.1]
    exact hg.2

/-- Giving the last reference up puts the block into the pool. -/
theorem Inv.inPool_of_last {addr : ℕ} (o : ℕ) (ha : addr / pmmFrameSize = f)
    (hf : (s.memMap f).refcount = 1) (hx : Covers f (s.memMap f).order x) :
    (s.pmmFreePages addr o).InPool x := by
  obtain ⟨hinv, hrec⟩ := pmmFreePages_spec h addr o
  rw [ha, hf] at hrec
  have halloc : s.IsAlloc f (s.memMap f).order := ⟨by rw [hf]; decide, rfl⟩
  refine hinv.inPool_iff.2 ⟨h.tiles.mem_of_covers halloc.mem_blocks hx, fun g p hg hcov => ?_⟩
  have hgf : g ≠ f := by
    rintro rfl
    exact hg.1 (by rw [hrec.refcount, if_pos rfl])
  -- a block that is still allocated was so before, beside the one of `f`
  have hg' : s.IsAlloc g p := by
    refine ⟨fun hz => hg.1 ?_, ?_⟩
    · rw [hrec.refcount, if_neg hgf, hz]
    · rw [← hrec.order g hg.1]
      exact hg.2
  have heq := h.tiles.eq_of_covers hg'.mem_blocks halloc.mem_blocks hcov hx
  exact hgf (congrArg Prod.fst heq)

/-- **`pmm_inc_ref`** adds one reference to the block, if it has any and the
count is not at its largest value. -/
theorem pmmIncRef_spec (addr : ℕ) :
    (s.pmmIncRef addr).Inv M none
      ∧ s.Recounted (s.pmmIncRef addr) (addr / pmmFrameSize)
        (if (s.memMap (addr / pmmFrameSize)).refcount = 0
            ∨ (s.memMap (addr / pmmFrameSize)).refcount = 0xFF
          then (s.memMap (addr / pmmFrameSize)).refcount
          else (s.memMap (addr / pmmFrameSize)).refcount + 1) := by
  unfold pmmIncRef
  generalize addr / pmmFrameSize = f
  split_ifs with hz
  · have hsame : (if s.maxFrames ≤ f then s else if (s.memMap f).refcount = 0 then s
        else if (s.memMap f).refcount = 0xFF then s
        else s.setPage f (fun p => { p with refcount := p.refcount + 1 })) = s := by
      rcases hz with hz | hz <;> simp [hz]
    simp only [hsame]
    exact ⟨h, Recounted.refl s f⟩
  · obtain ⟨hz, hff⟩ := not_or.1 hz
    have hlt := h.lt_of_refcount hz
    have hle := h.ref_le f
    have hstep := h.recount hz (n := (s.memMap f).refcount + 1) (by omega) (by omega)
    simp only [not_le.2 hlt, hz, hff, if_false]
    refine ⟨hstep, fun g => ?_, fun g _ => ?_, rfl⟩ <;> rw [setPage_memMap] <;>
      split_ifs with hgf
    · rfl
    · rfl
    · rw [hgf]
    · rfl

/-- **Every call keeps the invariant**, whatever its arguments. -/
theorem Inv.step (c : PmmCall) : (s.step c).Inv M none := by
  cases c with
  | allocPages o =>
    rcases pmmAllocPages_spec h o with ⟨heq, -⟩ | ⟨f, t, heq, ht, -⟩
    · show (s.pmmAllocPages o).2.Inv M none
      rw [heq]
      exact h
    · show (s.pmmAllocPages o).2.Inv M none
      rw [heq]
      exact ht
  | freePages addr o => exact (pmmFreePages_spec h addr o).1
  | incRef addr => exact (pmmIncRef_spec h addr).1

/-- **Every run keeps the invariant.** -/
theorem Inv.run (cs : List PmmCall) : (cs.foldl Pmm.step s).Inv M none :=
  foldl_invariant (P := Inv M none) (fun _ c hs => hs.step c) cs h

end

end Pmm

end Makar
