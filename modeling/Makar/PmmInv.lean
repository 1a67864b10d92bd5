import Makar.PmmLists
import Makar.Tiling

/-!
# The joint invariant of the allocator

The blocks of the allocator are of three kinds: free ones, the heads of
which carry `PG_BUDDY`; allocated ones, the heads of which have references;
and, inside a call, the one block the call has taken off its list and not
yet put anywhere, the block *in hand*. The invariant `Pmm.Inv` says that
together they tile the managed frames `M`, that the free ones are what the
free lists hold, that no two free blocks are buddies, and that the counter
counts the free frames and those in hand.

Every call is a sequence of small moves on that picture: take a free block
in hand (`Inv.take`), merge the block in hand with its free buddy
(`Inv.merge`), park the upper half of the block in hand (`Inv.park`), give
the block in hand back (`Inv.give`), hand it out (`Inv.handOut`) or take it
back (`Inv.release`). Each move changes the tiling as `Tiles` says a tiling
changes, or not at all, so nothing about alignment or overlap is argued
here; and the loops of the source are inductions over the moves.
-/

namespace Makar

open List Finset Function Nat Option Set

namespace Pmm

variable {s : Pmm} {M : Set ℕ} {hand : Option (ℕ × ℕ)} {f g o p x : ℕ}

/-- The frame heads an allocated block of that order. -/
def IsAlloc (s : Pmm) (f o : ℕ) : Prop :=
  (s.memMap f).refcount ≠ 0 ∧ (s.memMap f).order = o

instance : Decidable (s.IsAlloc f o) := inferInstanceAs (Decidable (_ ∧ _))

/-- The blocks of the allocator: the free ones, the allocated ones, and the
one in hand. -/
def blocks (s : Pmm) (hand : Option (ℕ × ℕ)) : Set (ℕ × ℕ) :=
  {b | s.IsFree b.1 b.2 ∨ s.IsAlloc b.1 b.2 ∨ hand = some b}

/-- The number of frames in hand. -/
def handSize : Option (ℕ × ℕ) → ℕ
  | none => 0
  | some b => 2 ^ b.2

/-- The number of frames on the free lists. -/
def listFrames (L : ℕ → List ℕ) : ℕ :=
  ∑ o ∈ Finset.range pmmMaxOrder, (L o).length * 2 ^ o

/-- **The invariant of the allocator**, over the managed frames `M` and with
at most one block in hand. -/
structure Inv (M : Set ℕ) (hand : Option (ℕ × ℕ)) (s : Pmm) : Prop where
  /-- The lists hold the free blocks, and the counter counts their frames
  and those in hand. -/
  lists : ∃ L, s.Lists L ∧ s.freeFrames = (listFrames L + handSize hand) % 2 ^ 32
  /-- The blocks tile the managed frames. -/
  tiles : Tiles pmmMaxOrder M (s.blocks hand)
  /-- Managed frames are below `s_max_frames`. -/
  lt_max : ∀ x ∈ M, x < s.maxFrames
  /-- The managed range lies in the window. -/
  max_le : s.maxFrames ≤ pmmMaxFrames
  /-- The head of a free block has no references. -/
  free_ref : ∀ f, (s.memMap f).pgBuddy = true → (s.memMap f).refcount = 0
  /-- The head of the block in hand is neither free nor allocated. -/
  hand_ref : ∀ f o, hand = some (f, o) →
    (s.memMap f).pgBuddy = false ∧ (s.memMap f).refcount = 0
  /-- No two free blocks below the top order are buddies. -/
  not_buddies : ∀ f o, s.IsFree f o → o + 1 < pmmMaxOrder → ¬ s.IsFree (buddyOf f o) o
  /-- A reference count is a byte. -/
  ref_le : ∀ f, (s.memMap f).refcount ≤ 0xFF

/-! ## Reading the invariant -/

/-- A free block is a block. -/
theorem IsFree.mem_blocks (h : s.IsFree f o) : (f, o) ∈ s.blocks hand := .inl h

/-- An allocated block is a block. -/
theorem IsAlloc.mem_blocks (h : s.IsAlloc f o) : (f, o) ∈ s.blocks hand :=
  .inr (.inl h)

/-- A frame without `PG_BUDDY` heads no free block. -/
theorem not_isFree (h : (s.memMap f).pgBuddy = false) : ¬ s.IsFree f o := by
  rintro ⟨hb, -⟩
  rw [h] at hb
  exact Bool.false_ne_true hb

/-- The block in hand is a block. -/
theorem hand_mem_blocks (s : Pmm) (b : ℕ × ℕ) : b ∈ s.blocks (some b) :=
  .inr (.inr rfl)

/-- A managed frame is not the sentinel. -/
theorem Inv.ne_nil (h : s.Inv M hand) (hx : x ∈ M) : x ≠ pmmNil := by
  have h₁ := h.lt_max x hx
  have h₂ := h.max_le
  unfold pmmMaxFrames at h₂
  unfold pmmNil
  omega

/-- **Only the head of a block has a descriptor in use**: a frame of a block
that heads a free or an allocated block is that block's head. -/
theorem Inv.head_of_covers (h : s.Inv M hand) {b : ℕ × ℕ} (hb : b ∈ s.blocks hand)
    (hx : Covers b.1 b.2 x)
    (huse : (s.memMap x).pgBuddy = true ∨ (s.memMap x).refcount ≠ 0) : x = b.1 := by
  have hmem : (x, (s.memMap x).order) ∈ s.blocks hand := by
    rcases huse with hu | hu
    · exact .inl ⟨hu, rfl⟩
    · exact .inr (.inl ⟨hu, rfl⟩)
  exact congrArg Prod.fst (h.tiles.eq_of_covers hmem hb (covers_self x _) hx)

/-- No frame of the block in hand has its descriptor in use. -/
theorem Inv.clear_of_hand (h : s.Inv M (some (f, o))) (hx : Covers f o x) :
    (s.memMap x).pgBuddy = false ∧ (s.memMap x).refcount = 0 := by
  by_contra hc
  rw [not_and_or, Bool.not_eq_false] at hc
  have hxf : x = f := h.head_of_covers (hand_mem_blocks s (f, o)) hx hc
  subst hxf
  obtain ⟨hb, hr⟩ := h.hand_ref x o rfl
  rcases hc with hc | hc
  · rw [hb] at hc
    exact Bool.false_ne_true hc
  · exact hc hr

/-- An unmanaged frame does not have its descriptor in use. -/
theorem Inv.clear_of_not_mem (h : s.Inv M hand) (hx : x ∉ M) :
    (s.memMap x).pgBuddy = false ∧ (s.memMap x).refcount = 0 := by
  constructor
  · by_contra hc
    rw [Bool.not_eq_false] at hc
    have hb : (x, (s.memMap x).order) ∈ s.blocks hand := .inl ⟨hc, rfl⟩
    exact hx (h.tiles.mem_of_covers hb (covers_self x _))
  · by_contra hc
    have hb : (x, (s.memMap x).order) ∈ s.blocks hand := .inr (.inl ⟨hc, rfl⟩)
    exact hx (h.tiles.mem_of_covers hb (covers_self x _))

/-! ## The frames on the lists -/

section

variable (L : ℕ → List ℕ) (ho : o < pmmMaxOrder)
include ho

/-- Changing one list changes the number of listed frames by that list. -/
theorem listFrames_update (l : List ℕ) :
    listFrames (Function.update L o l) + (L o).length * 2 ^ o
      = listFrames L + l.length * 2 ^ o := by
  have hmem : o ∈ Finset.range pmmMaxOrder := Finset.mem_range.2 ho
  unfold listFrames
  rw [← add_sum_erase _ _ hmem, ← add_sum_erase _ (fun o => (L o).length * 2 ^ o) hmem,
    update_self]
  have hrest : ∑ q ∈ (Finset.range pmmMaxOrder).erase o,
      (update L o l q).length * 2 ^ q
      = ∑ q ∈ (Finset.range pmmMaxOrder).erase o, (L q).length * 2 ^ q := by
    refine Finset.sum_congr rfl (fun q hq => ?_)
    rw [update_of_ne (ne_of_mem_erase hq)]
  rw [hrest]
  omega

/-- Putting a block on a list adds its frames. -/
theorem listFrames_cons (f : ℕ) :
    listFrames (Function.update L o (f :: L o)) = listFrames L + 2 ^ o := by
  have h := listFrames_update L ho (f :: L o)
  rw [length_cons, add_mul, one_mul] at h
  omega

/-- Taking a block off a list removes its frames. -/
theorem listFrames_erase (hf : f ∈ L o) :
    listFrames (Function.update L o ((L o).erase f)) + 2 ^ o = listFrames L := by
  have h := listFrames_update L ho ((L o).erase f)
  have hlen : (L o).length = ((L o).erase f).length + 1 := by
    rw [length_erase_of_mem hf]
    have := length_pos_of_mem hf
    omega
  rw [hlen, add_mul, one_mul] at h
  omega

end

/-! ## The moves -/

theorem isAlloc_listDel : (s.listDel o f).IsAlloc g p ↔ s.IsAlloc g p := by
  unfold IsAlloc
  rw [listDel_refcount, listDel_order]

theorem isAlloc_listAdd (hf : (s.memMap f).refcount = 0) :
    (s.listAdd o f).IsAlloc g p ↔ s.IsAlloc g p := by
  unfold IsAlloc
  rw [listAdd_refcount, listAdd_order]
  by_cases hgf : g = f
  · subst hgf
    simp [hf]
  · simp [hgf]

theorem blocks_some (s : Pmm) (b : ℕ × ℕ) : s.blocks (some b) = insert b (s.blocks none) := by
  ext c
  simp only [blocks, mem_ofPred_eq, mem_insert_iff, some.injEq, reduceCtorEq, or_false]
  tauto

theorem blocks_listAdd (hf : (s.memMap f).pgBuddy = false ∧ (s.memMap f).refcount = 0) :
    (s.listAdd o f).blocks none = insert (f, o) (s.blocks none) := by
  ext ⟨g, p⟩
  simp only [blocks, mem_ofPred_eq, isFree_listAdd hf.1, isAlloc_listAdd hf.2, mem_insert_iff,
    Prod.mk.injEq, reduceCtorEq, or_false]
  tauto

theorem insert_blocks_listDel (hf : s.IsFree f o) :
    insert (f, o) ((s.listDel o f).blocks none) = s.blocks none := by
  ext ⟨g, p⟩
  simp only [blocks, mem_ofPred_eq, isFree_listDel, isAlloc_listDel, mem_insert_iff,
    Prod.mk.injEq, reduceCtorEq, or_false]
  constructor
  · rintro (⟨rfl, rfl⟩ | ⟨hg, -⟩ | hg)
    · exact .inl hf
    · exact .inl hg
    · exact .inr hg
  · rintro (hg | hg)
    · by_cases hgf : g = f
      · subst hgf
        exact .inl ⟨rfl, hg.2.symm.trans hf.2⟩
      · exact .inr (.inl ⟨hg, hgf⟩)
    · exact .inr (.inr hg)

theorem notMem_blocks (hf : (s.memMap f).pgBuddy = false ∧ (s.memMap f).refcount = 0) :
    (f, o) ∉ s.blocks none := by
  rintro (h | h | h)
  · exact not_isFree hf.1 h
  · exact h.1 hf.2
  · cases h

variable {hand' : Option (ℕ × ℕ)}

/-- A block goes off its list, and its frames into the hand. -/
theorem Inv.offList (h : s.Inv M hand) (hf : s.IsFree f o)
    (hsize : handSize hand' = 2 ^ o + handSize hand)
    (htiles : Tiles pmmMaxOrder M ((s.listDel o f).blocks hand'))
    (hhand : ∀ g p, hand' = some (g, p) → ((s.listDel o f).memMap g).pgBuddy = false
      ∧ (s.memMap g).refcount = 0) : (s.listDel o f).Inv M hand' := by
  obtain ⟨L, hL, hcount⟩ := h.lists
  have ho : o < pmmMaxOrder := hf.2 ▸ hL.order_lt f hf.1
  have hfo : f ∈ L o := (hL.mem_iff o ho f).2 hf
  refine ⟨⟨_, hL.listDel hf, ?_⟩, htiles, ?_, ?_, ?_, ?_, ?_, ?_⟩
  · rw [listDel_freeFrames, hcount, ← listFrames_erase L ho hfo, hsize, add_assoc]
  · rw [listDel_maxFrames]
    exact h.lt_max
  · rw [listDel_maxFrames]
    exact h.max_le
  · intro g hg
    rw [listDel_pgBuddy] at hg
    rw [listDel_refcount]
    split_ifs at hg
    exact h.free_ref g hg
  · intro g p hg
    rw [listDel_refcount]
    exact hhand g p hg
  · intro g p hg hp hb
    exact h.not_buddies g p (isFree_listDel.1 hg).1 hp (isFree_listDel.1 hb).1
  · intro g
    rw [listDel_refcount]
    exact h.ref_le g

/-- **Take a free block in hand**: `list_del` on a block of its list. -/
theorem Inv.take (h : s.Inv M none) (hf : s.IsFree f o) : (s.listDel o f).Inv M (some (f, o)) := by
  refine h.offList hf rfl ?_ ?_
  · rw [blocks_some, insert_blocks_listDel hf]
    exact h.tiles
  · rintro _ _ ⟨⟩
    rw [listDel_pgBuddy, if_pos rfl]
    exact ⟨rfl, h.free_ref f hf.1⟩

/-- The two halves of a block are as large as the block. -/
theorem handSize_succ (f g o : ℕ) :
    handSize (some (f, o + 1)) = 2 ^ o + handSize (some (g, o)) := by
  show 2 ^ (o + 1) = 2 ^ o + 2 ^ o
  rw [pow_succ]
  omega

/-- **Merge the block in hand with its free buddy**: one turn of the loop of
`buddy_free`. -/
theorem Inv.merge (h : s.Inv M (some (f, o))) (ho : o + 1 < pmmMaxOrder)
    (hb : s.IsFree (buddyOf f o) o) :
    (s.listDel o (buddyOf f o)).Inv M (some (lowerHalf f o, o + 1)) := by
  have hal : Aligned f o := h.tiles.aligned _ (hand_mem_blocks s (f, o))
  have hne : buddyOf f o ≠ f := buddyOf_ne hal
  have hclear := h.hand_ref f o rfl
  refine h.offList hb (handSize_succ _ f o) ?_ ?_
  · have htiles := h.tiles
    rw [blocks_some, ← insert_blocks_listDel hb] at htiles
    rw [blocks_some]
    refine htiles.merge ?_ (notMem_blocks ⟨?_, ?_⟩) ho
    · rw [insert_blocks_listDel hb]
      exact notMem_blocks hclear
    · rw [listDel_pgBuddy, if_pos rfl]
    · rw [listDel_refcount]
      exact h.free_ref _ hb.1
  · rintro _ _ ⟨⟩
    rw [listDel_pgBuddy]
    unfold lowerHalf
    by_cases hlt : buddyOf f o < f
    · rw [if_pos hlt, if_pos rfl]
      exact ⟨rfl, h.free_ref _ hb.1⟩
    · rw [if_neg hlt, if_neg hne.symm]
      exact hclear

/-- A block goes on its list, and its frames out of the hand: its buddy is not free. -/
theorem Inv.onList (h : s.Inv M hand) (ho : o < pmmMaxOrder) (hf : f ∈ M)
    (hclear : (s.memMap f).pgBuddy = false ∧ (s.memMap f).refcount = 0)
    (hsize : handSize hand = 2 ^ o + handSize hand')
    (htiles : Tiles pmmMaxOrder M ((s.listAdd o f).blocks hand'))
    (hhand : ∀ g p, hand' = some (g, p) → g ≠ f
      ∧ (s.memMap g).pgBuddy = false ∧ (s.memMap g).refcount = 0)
    (hb : o + 1 < pmmMaxOrder → ¬ s.IsFree (buddyOf f o) o) (hne : buddyOf f o ≠ f) :
    (s.listAdd o f).Inv M hand' := by
  obtain ⟨L, hL, hcount⟩ := h.lists
  refine ⟨⟨_, hL.listAdd ho (h.ne_nil hf) hclear.1, ?_⟩, htiles, ?_, ?_, ?_, ?_, ?_, ?_⟩
  · rw [listAdd_freeFrames, hcount, listFrames_cons L ho, hsize, add_assoc]
  · rw [listAdd_maxFrames]
    exact h.lt_max
  · rw [listAdd_maxFrames]
    exact h.max_le
  · intro g hg
    rw [listAdd_pgBuddy] at hg
    rw [listAdd_refcount]
    split_ifs at hg with hgf
    · rw [hgf]
      exact hclear.2
    · exact h.free_ref g hg
  · intro g p hg
    rw [listAdd_pgBuddy, if_neg (hhand g p hg).1, listAdd_refcount]
    exact (hhand g p hg).2
  · intro g p hg hp hgb
    rcases (isFree_listAdd hclear.1).1 hg with hg₁ | ⟨rfl, rfl⟩ <;>
      rcases (isFree_listAdd hclear.1).1 hgb with hb₁ | ⟨hb₁, hpo⟩
    · exact h.not_buddies g p hg₁ hp hb₁
    · -- the buddy of a free block is the block on its way
      subst hpo
      refine hb hp ?_
      rw [← hb₁, buddyOf_buddyOf]
      exact hg₁
    · exact hb hp hb₁
    · exact hne hb₁
  · intro g
    rw [listAdd_refcount]
    exact h.ref_le g

/-- **Give the block in hand back**: the `list_add` that ends `buddy_free`,
once the buddy is not free or the top order is reached. -/
theorem Inv.give (h : s.Inv M (some (f, o)))
    (hb : o + 1 < pmmMaxOrder → ¬ s.IsFree (buddyOf f o) o) : (s.listAdd o f).Inv M none := by
  have hhand := hand_mem_blocks s (f, o)
  have hclear := h.hand_ref f o rfl
  refine h.onList (h.tiles.order_lt _ hhand) (h.tiles.mem_of_covers hhand (covers_self f o)) hclear
    rfl ?_ (fun _ _ hc => by cases hc) hb (buddyOf_ne (h.tiles.aligned _ hhand))
  rw [blocks_listAdd hclear, ← blocks_some]
  exact h.tiles

/-- **Park the upper half of the block in hand**: one turn of the splitting
loop of `pmm_alloc_pages`. The half left in hand is the buddy of the one
parked, so no two free blocks become buddies. -/
theorem Inv.park (h : s.Inv M (some (f, o + 1))) :
    (s.listAdd o (f + 2 ^ o)).Inv M (some (f, o)) := by
  have hhand := hand_mem_blocks s (f, o + 1)
  have hal : Aligned f (o + 1) := h.tiles.aligned _ hhand
  have hclear := h.hand_ref f (o + 1) rfl
  have hup : Covers f (o + 1) (f + 2 ^ o) :=
    (covers_halves f o _).2 (.inr (covers_self _ o))
  have hupc := h.clear_of_hand hup
  have hne : f ≠ f + 2 ^ o := by
    have := Nat.two_pow_pos o
    omega
  refine h.onList (lt_of_succ_lt (h.tiles.order_lt _ hhand)) (h.tiles.mem_of_covers hhand hup)
    hupc (handSize_succ f f o) ?_ ?_ ?_ ?_
  · have htiles := h.tiles
    rw [blocks_some] at htiles
    rw [blocks_some, blocks_listAdd hupc]
    exact htiles.split (notMem_blocks hclear)
  · rintro _ _ ⟨⟩
    exact ⟨hne, hclear⟩
  · rw [buddyOf_upper hal]
    exact fun _ => not_isFree hclear.1
  · rw [buddyOf_upper hal]
    exact hne

/-! ## Handing out and taking back

The remaining moves rewrite the descriptor of one frame that heads no free
block, so the lists do not see them. -/

/-- A move that rewrites the descriptor of one frame off the lists, keeps the
blocks, and moves the frames between the counter and the hand. -/
theorem Inv.rebook {t : Pmm} (h : s.Inv M hand)
    (hfl : t.freeLists = s.freeLists) (hmax : t.maxFrames = s.maxFrames)
    (hne : ∀ g, g ≠ f → t.memMap g = s.memMap g)
    (hs : (s.memMap f).pgBuddy = false) (ht : (t.memMap f).pgBuddy = false)
    (hle : (t.memMap f).refcount ≤ 0xFF)
    (hhand : ∀ g o, hand' = some (g, o) → g = f ∧ (t.memMap f).refcount = 0)
    (hblocks : t.blocks hand' = s.blocks hand)
    (hcount : ∀ n, s.freeFrames = (n + handSize hand) % 2 ^ 32 →
      t.freeFrames = (n + handSize hand') % 2 ^ 32) : t.Inv M hand' := by
  obtain ⟨L, hL, hc⟩ := h.lists
  have hb : ∀ g, (t.memMap g).pgBuddy = (s.memMap g).pgBuddy := by
    intro g
    by_cases hg : g = f
    · rw [hg, hs, ht]
    · rw [hne g hg]
  have hkeep : ∀ g, (s.memMap g).pgBuddy = true → t.memMap g = s.memMap g := by
    intro g hg
    refine hne g ?_
    rintro rfl
    rw [hs] at hg
    exact Bool.false_ne_true hg
  have hfree : ∀ g p, t.IsFree g p → s.IsFree g p := by
    rintro g p ⟨hg, hp⟩
    rw [hb g] at hg
    exact ⟨hg, by rw [← hkeep g hg]; exact hp⟩
  refine ⟨⟨L, hL.congr hfl hb hkeep, hcount _ hc⟩, hblocks ▸ h.tiles, hmax ▸ h.lt_max,
    hmax ▸ h.max_le, ?_, ?_, ?_, ?_⟩
  · intro g hg
    rw [hb g] at hg
    rw [hkeep g hg]
    exact h.free_ref g hg
  · intro g p hg
    obtain ⟨rfl, hr⟩ := hhand g p hg
    exact ⟨ht, hr⟩
  · intro g p hg hp hgb
    exact h.not_buddies g p (hfree g p hg) hp (hfree _ p hgb)
  · intro g
    by_cases hg : g = f
    · rw [hg]
      exact hle
    · rw [hne g hg]
      exact h.ref_le g

/-- A frame with references heads no free block. -/
theorem Inv.pgBuddy_of_refcount (h : s.Inv M hand) (ha : (s.memMap f).refcount ≠ 0) :
    (s.memMap f).pgBuddy = false := by
  by_contra hc
  rw [Bool.not_eq_false] at hc
  exact ha (h.free_ref f hc)

/-- **Hand the block out**: the end of `pmm_alloc_pages`. -/
theorem Inv.handOut (h : s.Inv M (some (f, o))) :
    Inv M none { s.setPage f (fun p => { p with order := o, refcount := 1, pgBuddy := false })
      with freeFrames := (s.freeFrames + 2 ^ 32 - 1 <<< o) % 2 ^ 32 } := by
  have ho : o < pmmMaxOrder := h.tiles.order_lt _ (hand_mem_blocks s (f, o))
  have hclear := h.hand_ref f o rfl
  refine h.rebook (f := f) rfl rfl (fun g hg => by simp [hg]) hclear.1 ?_ ?_ ?_ ?_ ?_
  · rw [setPage_memMap_self]
  · rw [setPage_memMap_self]
    exact (by decide : (1 : ℕ) ≤ 0xFF)
  · rintro _ _ ⟨⟩
  · ext ⟨g, p⟩
    simp only [blocks, IsFree, IsAlloc, mem_ofPred_eq, setPage_memMap, some.injEq,
      Prod.mk.injEq, reduceCtorEq, or_false]
    by_cases hg : g = f
    · subst hg
      simp [hclear.1, hclear.2]
    · simp [hg, Ne.symm hg]
  · intro n hn
    have hpow : 2 ^ o ≤ 2 ^ 10 := Nat.pow_le_pow_right (by decide) (Nat.le_of_lt_succ ho)
    simp only [handSize, Nat.one_shiftLeft] at hn ⊢
    omega

/-- **Take the block back**: the last reference is dropped, and the counter
goes up as at the start of `buddy_free`. -/
theorem Inv.release (h : s.Inv M none) (ha : s.IsAlloc f o) (hone : (s.memMap f).refcount = 1) :
    Inv M (some (f, o)) { s.setPage f (fun p => { p with refcount := p.refcount - 1 })
      with freeFrames := (s.freeFrames + 1 <<< o) % 2 ^ 32 } := by
  have hbf := h.pgBuddy_of_refcount ha.1
  refine h.rebook (f := f) rfl rfl (fun g hg => by simp [hg]) hbf ?_ ?_ ?_ ?_ ?_
  · rw [setPage_memMap_self]
    exact hbf
  · rw [setPage_memMap_self]
    show (s.memMap f).refcount - 1 ≤ 0xFF
    omega
  · rintro _ _ ⟨⟩
    rw [setPage_memMap_self]
    show f = f ∧ (s.memMap f).refcount - 1 = 0
    omega
  · ext ⟨g, p⟩
    simp only [blocks, IsFree, IsAlloc, mem_ofPred_eq, setPage_memMap, some.injEq,
      Prod.mk.injEq, reduceCtorEq, or_false]
    by_cases hg : g = f
    · subst hg
      simp [hbf, hone, ha.2]
    · simp [hg, Ne.symm hg]
  · intro n hn
    simp only [handSize, one_shiftLeft] at hn ⊢
    omega

/-- **Count references**: the count of an allocated block changes and does
not become zero. -/
theorem Inv.recount (h : s.Inv M none) (ha : (s.memMap f).refcount ≠ 0) {n : ℕ} (hn : n ≠ 0)
    (hle : n ≤ 0xFF) : Inv M none (s.setPage f (fun p => { p with refcount := n })) := by
  have hbf := h.pgBuddy_of_refcount ha
  refine h.rebook (f := f) rfl rfl (fun g hg => setPage_memMap_of_ne _ hg) hbf ?_ ?_ ?_ ?_ ?_
  · rw [setPage_memMap_self]
    exact hbf
  · rw [setPage_memMap_self]
    exact hle
  · rintro _ _ ⟨⟩
  · ext ⟨g, p⟩
    simp only [blocks, IsFree, IsAlloc, mem_ofPred_eq, setPage_memMap]
    by_cases hg : g = f
    · subst hg
      simp [hbf, hn, ha]
    · simp [hg]
  · intro n hn
    exact hn

/-- **A frame comes in**: one turn of the region loop of `pmm_init`, up to
the loop of `buddy_free`. -/
theorem Inv.enter (h : s.Inv M none) (hf : f ∉ M) (hwin : f < pmmMaxFrames) :
    Inv (insert f M) (some (f, 0))
      { s with
        maxFrames := if s.maxFrames < f + 1 then f + 1 else s.maxFrames
        freeFrames := (s.freeFrames + 1 <<< 0) % 2 ^ 32 } := by
  obtain ⟨L, hL, hc⟩ := h.lists
  refine ⟨⟨L, hL.congr rfl (fun _ => rfl) (fun _ _ => rfl), ?_⟩, ?_, ?_, ?_, h.free_ref, ?_,
    h.not_buddies, h.ref_le⟩
  · show (s.freeFrames + 1 <<< 0) % 2 ^ 32 = (listFrames L + 2 ^ 0) % 2 ^ 32
    rw [hc, one_shiftLeft]
    simp only [handSize, add_zero, mod_add_mod]
  · rw [blocks_some]
    exact h.tiles.insert (by decide) hf
  · rintro x (rfl | hx)
    · show x < if s.maxFrames < x + 1 then x + 1 else s.maxFrames
      split_ifs <;> omega
    · have := h.lt_max x hx
      show x < if s.maxFrames < f + 1 then f + 1 else s.maxFrames
      split_ifs <;> omega
  · have := h.max_le
    show (if s.maxFrames < f + 1 then f + 1 else s.maxFrames) ≤ pmmMaxFrames
    split_ifs <;> omega
  · rintro _ _ ⟨⟩
    exact h.clear_of_not_mem hf

/-- Before anything is freed the invariant holds of no frame at all. -/
theorem inv_empty : empty.Inv ∅ none := by
  refine ⟨⟨fun _ => [], ⟨fun _ _ => Linked.empty _ _ _, ?_, ?_⟩, ?_⟩, ?_, ?_, ?_, ?_, ?_, ?_, ?_⟩
  · intro o _ f
    simp [IsFree, empty]
  · intro f hf
    exact absurd hf Bool.false_ne_true
  · simp [listFrames, handSize, empty]
  · have hblocks : empty.blocks none = ∅ := by
      ext ⟨g, p⟩
      simp [blocks, IsFree, IsAlloc, empty]
    rw [hblocks]
    exact Tiles.empty _
  · rintro x ⟨⟩
  · exact zero_le _
  · intro f _
    rfl
  · rintro _ _ ⟨⟩
  · rintro f o ⟨hf, -⟩
    exact absurd hf Bool.false_ne_true
  · intro f
    exact zero_le _

end Pmm

end Makar
