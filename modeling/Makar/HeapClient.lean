import Makar.Heap

/-!
# The heap and its clients

`krealloc` and the two counters of `mm/heap.c`, and the law of the heap over
every history of calls. The heap keeps no record of what it has handed out,
so the history carries it: `HeapClient` is the heap together with the
pointers that were returned and not yet freed, each with the number of bytes
its caller asked for.

Two things the allocator does not do shape the law. A header has a `next` and
no way back, and `kfree` takes in the free blocks that follow the block it
frees, never the one before it. So free blocks can lie side by side; they do
only where a block was freed right after a free one.
-/

namespace Makar

open List Heap

namespace Heap

variable {a : ℕ} {h : Heap}

/-- `krealloc`. The block is the one whose data starts at `ptr`; the bytes
that are copied are not part of the model. -/
def krealloc (ptr size : ℕ) (h : Heap) : Option ℕ × Heap :=
  if ptr = 0 then h.kmalloc size
  else if size = 0 then (none, h.kfree ptr)
  else
    match h.find? (fun b => b.addr + blockHdrSize = ptr) with
    | none => (none, h)
    | some b =>
      if size ≤ b.size then (some ptr, h)
      else
        match h.kmalloc size with
        | (none, h) => (none, h)
        | (some p, h) => (some p, h.kfree ptr)

/-- The heap in which `krealloc` frees the block of `ptr`, if it does: not when
the block stays in place or no larger one is found. -/
def reallocFrees (ptr size : ℕ) (h : Heap) : Option Heap :=
  if ptr = 0 then none
  else if size = 0 then some h
  else
    match h.find? (fun b => b.addr + blockHdrSize = ptr) with
    | none => none
    | some b =>
      if size ≤ b.size then none
      else
        match h.kmalloc size with
        | (none, _) => none
        | (some _, h) => some h

/-- `heap_used`: the bytes of data in the blocks that are not free. -/
def heapUsed (h : Heap) : ℕ := h.foldl (fun used b => if b.isFree then used else used + b.size) 0

/-- `heap_free`: the bytes of data in the free blocks. -/
def heapFree (h : Heap) : ℕ :=
  h.foldl (fun freeBytes b => if b.isFree then freeBytes + b.size else freeBytes) 0

/-! ## What a call does to the chain -/

/-- What `kmalloc` leaves of the free block it takes. -/
def carve (size : ℕ) (b : HeapBlock) : Heap :=
  if (size + blockHdrSize + splitMin) % 2 ^ 32 ≤ b.size then
    [⟨b.addr, size, false⟩,
      ⟨b.addr + blockHdrSize + size, b.size - size - blockHdrSize, true⟩]
  else [{ b with isFree := false }]

/-- **Allocation replaces one free block**, by a block in use and at most one
free block after it. -/
theorem kmallocWalk_split {size p : ℕ} {h' : Heap} (hp : kmallocWalk size h = some (p, h')) :
    ∃ pre b post, h = pre ++ b :: post ∧ b.isFree = true ∧ size ≤ b.size
      ∧ p = b.addr + blockHdrSize ∧ h' = pre ++ (carve size b ++ post) := by
  induction h generalizing p h' with
  | nil => cases hp
  | cons b bs ih =>
    unfold kmallocWalk at hp
    split_ifs at hp with hfit hsplit
    · obtain ⟨rfl, rfl⟩ := Prod.mk.injEq .. ▸ Option.some.inj hp
      exact ⟨[], b, bs, rfl, hfit.1, hfit.2, rfl, by rw [carve, if_pos hsplit]; rfl⟩
    · obtain ⟨rfl, rfl⟩ := Prod.mk.injEq .. ▸ Option.some.inj hp
      exact ⟨[], b, bs, rfl, hfit.1, hfit.2, rfl, by rw [carve, if_neg hsplit]; rfl⟩
    · obtain ⟨⟨q, bs'⟩, hwalk, hr⟩ := Option.map_eq_some_iff.1 hp
      obtain ⟨rfl, rfl⟩ := Prod.mk.injEq .. ▸ hr
      obtain ⟨pre, c, post, rfl, hfree, hsize, hq, rfl⟩ := ih hwalk
      exact ⟨b :: pre, c, post, rfl, hfree, hsize, hq, rfl⟩

/-- A request rounded up to a multiple of four. -/
def rounded (size : ℕ) : ℕ := (size + 3) % 2 ^ 32 / 4 * 4

/-- A size below the size of the heap is not cut by the rounding. -/
theorem le_rounded {size : ℕ} (hsize : size < heapMax - heapStart) : size ≤ rounded size := by
  unfold heapMax heapStart at hsize
  unfold rounded
  omega

/-- **What `kmalloc` does**: nothing, or it takes one free block. -/
theorem kmalloc_cases (size : ℕ) (h : Heap) :
    h.kmalloc size = (none, h) ∨ ∃ pre b post, 0 < size ∧ h = pre ++ b :: post
      ∧ b.isFree = true ∧ rounded size ≤ b.size
      ∧ h.kmalloc size
        = (some (b.addr + blockHdrSize), pre ++ (carve (rounded size) b ++ post)) := by
  unfold kmalloc
  by_cases hzero : size = 0
  · exact .inl (if_pos hzero)
  rw [if_neg hzero]
  cases hwalk : kmallocWalk ((size + 3) % 2 ^ 32 / 4 * 4) h with
  | none => exact .inl rfl
  | some r =>
    obtain ⟨p, h'⟩ := r
    obtain ⟨pre, b, post, hh, hfree, hfit, rfl, rfl⟩ := kmallocWalk_split hwalk
    exact .inr ⟨pre, b, post, Nat.pos_of_ne_zero hzero, hh, hfree, hfit, rfl⟩

/-- The block `kmalloc` hands out. -/
theorem carve_head (size : ℕ) (b : HeapBlock) (hfit : size ≤ b.size) :
    ∃ d ∈ carve size b, d.isFree = false ∧ d.addr = b.addr ∧ size ≤ d.size := by
  unfold carve
  split_ifs
  · exact ⟨_, mem_cons_self, rfl, rfl, Nat.le_refl _⟩
  · exact ⟨_, mem_cons_self, rfl, rfl, hfit⟩

variable {b : HeapBlock}

/-- **Coalescing drops the free blocks that follow**, up to the first block in
use. -/
theorem absorb_split {bs : Heap} (ht : TilesFrom a (b :: bs)) (ha : heapStart ≤ a) :
    ∃ n gone rest, bs = gone ++ rest ∧ (∀ g ∈ gone, g.isFree = true)
      ∧ absorb b bs = { b with size := n } :: rest
      ∧ ∀ c ∈ rest.head?, c.isFree = false := by
  induction bs generalizing b with
  | nil => exact ⟨b.size, [], [], rfl, by simp, rfl, by simp⟩
  | cons c cs ih =>
    rw [absorb, if_neg (ht.inside ha)]
    split_ifs with hfree
    · obtain ⟨n, gone, rest, rfl, hgone, habs, hrest⟩ := ih ht.join
      exact ⟨n, c :: gone, rest, rfl, by simpa [hfree] using hgone, habs, hrest⟩
    · exact ⟨b.size, [], c :: cs, rfl, by simp, rfl, by simpa using hfree⟩

/-- **Freeing a block** turns it and the free blocks that follow it into one
free block, and keeps the rest of the chain. -/
theorem kfree_split (ht : TilesFrom a h) (ha : heapStart ≤ a) (hb : b ∈ h) :
    ∃ pre n gone rest, h = pre ++ b :: (gone ++ rest) ∧ (∀ g ∈ gone, g.isFree = true)
      ∧ h.freeAt b.addr = pre ++ ⟨b.addr, n, true⟩ :: rest
      ∧ ∀ c ∈ rest.head?, c.isFree = false := by
  induction h generalizing a with
  | nil => cases hb
  | cons c cs ih =>
    rw [freeAt]
    by_cases hc : c.addr = b.addr
    · have hbc : b = c := by
        rcases mem_cons.1 hb with rfl | hb
        · rfl
        · have := (ht.2.bounds hb).1
          unfold blockHdrSize at this
          exact absurd (ht.1.symm.trans hc) (by omega)
      subst hbc
      have hfirst : TilesFrom a ({ b with isFree := true } :: cs) := ht
      obtain ⟨n, gone, rest, rfl, hgone, habs, hrest⟩ := absorb_split hfirst ha
      rw [if_pos rfl, habs]
      exact ⟨[], n, gone, rest, rfl, hgone, rfl, hrest⟩
    · rw [if_neg hc]
      have hb' : b ∈ cs := (mem_cons.1 hb).resolve_left (fun h => hc (h ▸ rfl))
      obtain ⟨pre, n, gone, rest, rfl, hgone, hfree, hrest⟩ := ih ht.2 (by omega) hb'
      rw [hfree]
      exact ⟨c :: pre, n, gone, rest, rfl, hgone, rfl, hrest⟩

/-- A pointer to the data of a block of the chain passes the range check of
`kfree`. -/
theorem kfree_of_mem (ht : TilesFrom heapStart h) (hb : b ∈ h)
    (hstart : b.addr + blockHdrSize < heapMax) :
    h.kfree (b.addr + blockHdrSize) = h.freeAt b.addr := by
  have hbounds := ht.bounds hb
  rw [kfree, if_neg (by omega), Nat.add_sub_cancel]

/-! ## Blocks apart -/

/-- **The blocks lie in the order of the chain**, header and data of one before
the header of the next. -/
theorem TilesFrom.pairwise (ht : TilesFrom a h) :
    h.Pairwise (fun b c => b.addr + blockHdrSize + b.size ≤ c.addr) := by
  induction h generalizing a with
  | nil => exact List.Pairwise.nil
  | cons b bs ih =>
    refine List.Pairwise.cons (fun c hc => ?_) (ih ht.2)
    rw [ht.1]
    exact (ht.2.bounds hc).1

section

variable {b c : HeapBlock} (ht : TilesFrom a h) (hb : b ∈ h) (hc : c ∈ h)
include ht hb hc

/-- Two blocks of the chain share no byte. -/
theorem TilesFrom.apart (hne : b ≠ c) :
    b.addr + blockHdrSize + b.size ≤ c.addr ∨ c.addr + blockHdrSize + c.size ≤ b.addr := by
  have hsym : h.Pairwise (fun b c => b.addr + blockHdrSize + b.size ≤ c.addr
      ∨ c.addr + blockHdrSize + c.size ≤ b.addr) := ht.pairwise.imp Or.inl
  have : Std.Symm (fun b c : HeapBlock => b.addr + blockHdrSize + b.size ≤ c.addr
      ∨ c.addr + blockHdrSize + c.size ≤ b.addr) := ⟨fun _ _ => Or.symm⟩
  exact hsym.forall hb hc hne

/-- A block of the chain is known by its address. -/
theorem TilesFrom.eq_of_addr (haddr : b.addr = c.addr) : b = c := by
  by_contra hne
  have := ht.apart hb hc hne
  unfold blockHdrSize at this
  omega

end

/-! ## The counters -/

/-- A counter that adds the data of the blocks it selects, started anywhere. -/
theorem foldl_count (sel : HeapBlock → Bool) (h : Heap) (n : ℕ) :
    h.foldl (fun total b => if sel b then total + b.size else total) n
      = n + ((h.filter sel).map HeapBlock.size).sum := by
  induction h generalizing n with
  | nil => rfl
  | cons b bs ih =>
    rw [foldl_cons, ih]
    cases hb : sel b <;> simp [hb, Nat.add_assoc]

theorem heapFree_eq (h : Heap) :
    heapFree h = ((h.filter (fun b => b.isFree)).map HeapBlock.size).sum := by
  rw [heapFree, foldl_count (fun b => b.isFree), Nat.zero_add]

theorem heapUsed_eq (h : Heap) :
    heapUsed h = ((h.filter (fun b => !b.isFree)).map HeapBlock.size).sum := by
  have hfold : (fun (used : ℕ) (b : HeapBlock) => if b.isFree then used else used + b.size)
      = fun used b => if !b.isFree then used + b.size else used := by
    funext used b
    cases b.isFree <;> rfl
  rw [heapUsed, hfold, foldl_count (fun b => !b.isFree), Nat.zero_add]

/-- **The counters and the headers account for every byte** from the first
block on. -/
theorem TilesFrom.accounted (ht : TilesFrom a h) :
    a + (heapUsed h + heapFree h + blockHdrSize * h.length) = heapMax := by
  rw [heapUsed_eq, heapFree_eq]
  induction h generalizing a with
  | nil => exact ht
  | cons b bs ih =>
    have hrest := ih ht.2
    rw [length_cons, Nat.mul_succ]
    cases hb : b.isFree <;> simp [hb] <;> omega

/-! ## Free blocks side by side -/

/-- No block with the property follows a free block. -/
def NoneAfterFree (Q : HeapBlock → Prop) (h : Heap) : Prop :=
  h.IsChain (fun b c => ¬ (b.isFree = true ∧ Q c))

instance (Q : HeapBlock → Prop) [DecidablePred Q] (h : Heap) : Decidable (NoneAfterFree Q h) :=
  inferInstanceAs (Decidable (List.IsChain _ _))

/-- No two blocks that follow one another are both free. -/
def NoAdjacentFree (h : Heap) : Prop := NoneAfterFree (fun c => c.isFree = true) h

instance (h : Heap) : Decidable h.NoAdjacentFree :=
  inferInstanceAs (Decidable (NoneAfterFree _ _))

/-- **Allocation puts no block after a free one**, the block it hands out
apart: what follows the free remainder followed the free block it is cut
from. -/
theorem NoneAfterFree.carve {Q : HeapBlock → Prop} {pre post : Heap} (size : ℕ)
    (hn : NoneAfterFree Q (pre ++ b :: post)) (hb : b.isFree = true)
    (hQ : ∀ d ∈ (carve size b).head?, ¬ Q d) : NoneAfterFree Q (pre ++ (carve size b ++ post)) := by
  obtain ⟨hpre, htail, hlast⟩ := isChain_append.1 hn
  obtain ⟨hhead, hpost⟩ := isChain_cons.1 htail
  refine isChain_append.2 ⟨hpre, ?_, ?_⟩
  · unfold Heap.carve
    split_ifs
    · refine isChain_cons.2 ⟨by simp, isChain_cons.2 ⟨fun c hc => ?_, hpost⟩⟩
      exact fun hcc => hhead c hc ⟨hb, hcc.2⟩
    · exact isChain_cons.2 ⟨by simp, hpost⟩
  · intro c _ d hd hcd
    refine hQ d ?_ hcd.2
    unfold Heap.carve at hd ⊢
    split_ifs at hd ⊢ <;> exact hd

/-- **Freeing a block that follows a block in use** brings no two free blocks
together. -/
theorem NoAdjacentFree.freed {pre gone rest : Heap} (n : ℕ)
    (hn : NoAdjacentFree (pre ++ b :: (gone ++ rest)))
    (hpred : NoneAfterFree (fun c => c.addr = b.addr) (pre ++ b :: (gone ++ rest)))
    (hrest : ∀ c ∈ rest.head?, c.isFree = false) :
    NoAdjacentFree (pre ++ ⟨b.addr, n, true⟩ :: rest) := by
  obtain ⟨hpre, htail, -⟩ := isChain_append.1 hn
  obtain ⟨-, -, hlast⟩ := isChain_append.1 hpred
  have hchain := (isChain_append.1 (isChain_cons.1 htail).2).2.1
  refine isChain_append.2 ⟨hpre, isChain_cons.2 ⟨?_, hchain⟩, ?_⟩
  · intro c hc
    simp [hrest c hc]
  · rintro c hc d - ⟨hfree, -⟩
    exact hlast c hc b rfl ⟨hfree, rfl⟩

end Heap

/-! ## Histories of calls -/

/-- The heap and what its clients hold: the pointers returned and not yet
freed, with the bytes asked for. -/
structure HeapClient where
  /-- The chain of blocks. -/
  heap : Heap
  /-- The live pointers. -/
  live : List (ℕ × ℕ)
  deriving DecidableEq, Repr

namespace HeapClient

/-- A client's call; a null pointer is 0. -/
inductive Request where
  /-- `kmalloc(size)`. -/
  | kmalloc (size : ℕ)
  /-- `kfree(ptr)`. -/
  | kfree (ptr : ℕ)
  /-- `krealloc(ptr, size)`. -/
  | krealloc (ptr size : ℕ)
  deriving DecidableEq, Repr

/-- The heap after `heap_init`, with nothing handed out. -/
def init : HeapClient := ⟨Heap.heapInit, []⟩

/-- The pointers that stay live when `ptr` is freed. -/
def without (c : HeapClient) (ptr : ℕ) : List (ℕ × ℕ) := c.live.filter (fun l => l.1 ≠ ptr)

/-- One call. A `krealloc` that returns null has freed its block only when the
size was 0. -/
def step (c : HeapClient) : Request → HeapClient
  | .kmalloc size =>
    match c.heap.kmalloc size with
    | (none, h) => ⟨h, c.live⟩
    | (some p, h) => ⟨h, (p, size) :: c.live⟩
  | .kfree ptr => ⟨c.heap.kfree ptr, c.without ptr⟩
  | .krealloc ptr size =>
    match c.heap.krealloc ptr size with
    | (none, h) => ⟨h, if size = 0 then c.without ptr else c.live⟩
    | (some p, h) => ⟨h, (p, size) :: c.without ptr⟩

/-- The pointer is null or live. -/
def Known (c : HeapClient) (ptr : ℕ) : Prop := ptr = 0 ∨ ∃ l ∈ c.live, l.1 = ptr

instance (c : HeapClient) (ptr : ℕ) : Decidable (c.Known ptr) :=
  inferInstanceAs (Decidable (_ ∨ _))

/-- **A proper call**: a size below the size of the heap, and a pointer that is
null or was returned and not yet freed. -/
def Proper (c : HeapClient) : Request → Prop
  | .kmalloc size => size < heapMax - heapStart
  | .kfree ptr => c.Known ptr
  | .krealloc ptr size => c.Known ptr ∧ size < heapMax - heapStart

instance (c : HeapClient) (r : Request) : Decidable (c.Proper r) := by
  cases r <;> unfold Proper <;> infer_instance

/-- The block at the pointer does not follow a free block. -/
def FollowsUsed (ptr : ℕ) (h : Heap) : Prop :=
  h.NoneAfterFree (fun b => b.addr + blockHdrSize = ptr)

instance (ptr : ℕ) (h : Heap) : Decidable (FollowsUsed ptr h) :=
  inferInstanceAs (Decidable (Heap.NoneAfterFree _ _))

/-- The call frees no block that follows a free block when it is freed. -/
def FreesAfterUsed (c : HeapClient) : Request → Prop
  | .kmalloc _ => True
  | .kfree ptr => FollowsUsed ptr c.heap
  | .krealloc ptr size => ∀ h ∈ c.heap.reallocFrees ptr size, FollowsUsed ptr h

instance (c : HeapClient) (r : Request) : Decidable (c.FreesAfterUsed r) := by
  cases r <;> unfold FreesAfterUsed <;> infer_instance

/-! ## Every call keeps the heap in order -/

/-- **What holds after every history**: the blocks tile the window, and each
live pointer is the data of a block in use, of the size asked for or more. -/
structure Inv (c : HeapClient) : Prop where
  /-- The blocks tile the window. -/
  tiles : Heap.TilesFrom heapStart c.heap
  /-- A live pointer is held once. -/
  nodup : (c.live.map Prod.fst).Nodup
  /-- A live pointer has a block in use, large enough. -/
  held : ∀ l ∈ c.live, 0 < l.2 ∧
    ∃ b ∈ c.heap, b.isFree = false ∧ b.addr + blockHdrSize = l.1 ∧ l.2 ≤ b.size

theorem inv_init : init.Inv := ⟨tilesFrom_heapInit, nodup_nil, by simp [init]⟩

variable {c : HeapClient} {ptr size : ℕ}

section

variable (hi : c.Inv)
include hi

/-- Forgetting a pointer keeps the rest. -/
theorem Inv.forget (ptr : ℕ) : Inv ⟨c.heap, c.without ptr⟩ := by
  refine ⟨hi.tiles, ?_, fun l hl => hi.held l (mem_of_mem_filter hl)⟩
  exact hi.nodup.sublist (filter_sublist.map _)

/-- **`kmalloc` keeps the order**, and the block handed out is a new one. -/
theorem Inv.kmalloc (hsize : size < heapMax - heapStart) : (c.step (.kmalloc size)).Inv := by
  have htiles := hi.tiles.kmalloc size
  rcases kmalloc_cases size c.heap with heq | ⟨pre, b, post, hpos, hheap, hfree, hfit, heq⟩
  · simp only [step, heq]
    exact hi
  rw [heq] at htiles
  -- A block in use is not the one taken, so it is still in the chain.
  have hkept : ∀ d ∈ c.heap, d.isFree = false →
      d ∈ pre ++ (carve (rounded size) b ++ post) := by
    intro d hd hused
    rw [hheap] at hd
    have hne : d ≠ b := by
      rintro rfl
      rw [hfree] at hused
      cases hused
    simp only [mem_append, mem_cons, hne, false_or] at hd ⊢
    exact hd.imp_right Or.inr
  simp only [step, heq]
  refine ⟨htiles, ?_, ?_⟩
  · refine nodup_cons.2 ⟨fun hmem => ?_, hi.nodup⟩
    obtain ⟨l, hl, hptr⟩ := mem_map.1 hmem
    obtain ⟨-, d, hd, hused, hdaddr, -⟩ := hi.held l hl
    have hb : b ∈ c.heap := by simp [hheap]
    have hdb := hi.tiles.eq_of_addr hd hb (by omega)
    rw [hdb, hfree] at hused
    cases hused
  · intro l hl
    rcases mem_cons.1 hl with rfl | hl
    · refine ⟨hpos, ?_⟩
      obtain ⟨d, hd, hused, hdaddr, hdsize⟩ := carve_head (rounded size) b hfit
      refine ⟨d, by simp [hd], hused, by rw [hdaddr], ?_⟩
      exact (le_rounded hsize).trans hdsize
    · obtain ⟨hn, d, hd, hused, hrest⟩ := hi.held l hl
      exact ⟨hn, d, hkept d hd hused, hused, hrest⟩

/-- The block of a live pointer. -/
theorem Inv.block {l : ℕ × ℕ} (hl : l ∈ c.live) :
    ∃ b ∈ c.heap, b.isFree = false ∧ b.addr + blockHdrSize = l.1
      ∧ c.heap.kfree l.1 = c.heap.freeAt b.addr := by
  obtain ⟨hpos, b, hb, hused, haddr, hsize⟩ := hi.held l hl
  refine ⟨b, hb, hused, haddr, ?_⟩
  rw [← haddr]
  have hbounds := (hi.tiles.bounds hb).2
  exact kfree_of_mem hi.tiles hb (by omega)

/-- **`kfree` keeps the order**: the blocks it takes in were free. -/
theorem Inv.kfree (hk : c.Known ptr) : (c.step (.kfree ptr)).Inv := by
  have hforget := hi.forget ptr
  rcases hk with rfl | ⟨l, hl, rfl⟩
  · exact hforget
  have htiles := hi.tiles.kfree l.1
  obtain ⟨b, hb, -, hbaddr, hfreeAt⟩ := hi.block hl
  obtain ⟨pre, n, gone, rest, hheap, hgone, hfreed, -⟩ :=
    kfree_split hi.tiles (Nat.le_refl _) hb
  refine ⟨htiles, hforget.nodup, fun k hk => ?_⟩
  obtain ⟨hn, d, hd, hused, hdaddr, hdsize⟩ := hforget.held k hk
  refine ⟨hn, d, ?_, hused, hdaddr, hdsize⟩
  have hkl : k.1 ≠ l.1 := by simpa using of_mem_filter hk
  have hdb : d ≠ b := by
    rintro rfl
    exact hkl (hdaddr.symm.trans hbaddr)
  have hdgone : d ∉ gone := by
    intro hmem
    rw [hgone d hmem] at hused
    cases hused
  have hd' : d ∈ pre ++ b :: (gone ++ rest) := hheap ▸ hd
  show d ∈ c.heap.kfree l.1
  rw [hfreeAt, hfreed]
  simp only [mem_append, mem_cons, hdb, hdgone, false_or] at hd' ⊢
  exact hd'.imp_right Or.inr

/-- A null pointer is not live. -/
theorem Inv.without_zero : c.without 0 = c.live := by
  refine filter_eq_self.2 (fun l hl => ?_)
  obtain ⟨-, b, -, -, haddr, -⟩ := hi.held l hl
  unfold blockHdrSize at haddr
  simp only [ne_eq, decide_eq_true_eq]
  omega

section

variable (hk : c.Known ptr) (hsize : size < heapMax - heapStart)
include hk hsize

/-- **What `krealloc` does**: it is `kmalloc` or `kfree`, keeps the block where
it is, changes nothing, or is a `kmalloc` followed by a `kfree`. -/
theorem Inv.krealloc_cases :
    c.step (.krealloc ptr size) = c.step (.kmalloc size)
      ∨ (c.heap.reallocFrees ptr size = some c.heap
        ∧ c.step (.krealloc ptr size) = c.step (.kfree ptr))
      ∨ (0 < size ∧ (∃ b ∈ c.heap, b.isFree = false ∧ b.addr + blockHdrSize = ptr ∧ size ≤ b.size)
        ∧ c.step (.krealloc ptr size) = ⟨c.heap, (ptr, size) :: c.without ptr⟩)
      ∨ c.step (.krealloc ptr size) = c
      ∨ (c.heap.reallocFrees ptr size = some (c.step (.kmalloc size)).heap
        ∧ c.step (.krealloc ptr size) = (c.step (.kmalloc size)).step (.kfree ptr)) := by
  simp only [step, krealloc, reallocFrees]
  by_cases hnull : ptr = 0
  · left
    rw [if_pos hnull, hnull, hi.without_zero]
    cases c.heap.kmalloc size with
    | mk r h => cases r <;> simp
  simp only [if_neg hnull]
  by_cases hzero : size = 0
  · right; left
    simp [hzero]
  simp only [if_neg hzero]
  obtain ⟨l, hl, rfl⟩ := hk.resolve_left hnull
  obtain ⟨-, b, hb, hused, haddr, -⟩ := hi.held l hl
  -- The block `krealloc` looks at is the block of the pointer.
  have hfind : c.heap.find? (fun d => d.addr + blockHdrSize = l.1) = some b := by
    cases hf : c.heap.find? (fun d => d.addr + blockHdrSize = l.1) with
    | none => exact absurd haddr (by simpa using List.find?_eq_none.1 hf b hb)
    | some d =>
      have hd := List.find?_some hf
      rw [decide_eq_true_eq] at hd
      exact congrArg some (hi.tiles.eq_of_addr (mem_of_find?_eq_some hf) hb (by omega))
  rw [hfind]
  by_cases hfit : size ≤ b.size
  · right; right; left
    simp only [if_pos hfit]
    exact ⟨Nat.pos_of_ne_zero hzero, ⟨b, hb, hused, haddr, hfit⟩, trivial⟩
  · right; right; right
    simp only [if_neg hfit]
    have hnew := hi.kmalloc hsize
    rcases kmalloc_cases size c.heap with heq | ⟨pre, d, post, -, -, -, -, heq⟩
    · left
      rw [heq]
    · right
      simp only [step, heq] at hnew ⊢
      have hne : d.addr + blockHdrSize ≠ l.1 := fun h =>
        (nodup_cons.1 hnew.nodup).1 (mem_map.2 ⟨l, hl, h.symm⟩)
      simp [without, hne]

/-- **`krealloc` keeps the order.** -/
theorem Inv.krealloc : (c.step (.krealloc ptr size)).Inv := by
  rcases hi.krealloc_cases hk hsize with
    heq | ⟨-, heq⟩ | ⟨hpos, hblock, heq⟩ | heq | ⟨-, heq⟩ <;> rw [heq]
  · exact hi.kmalloc hsize
  · exact hi.kfree hk
  · have hforget := hi.forget ptr
    refine ⟨hi.tiles, nodup_cons.2 ⟨?_, hforget.nodup⟩, fun l hl => ?_⟩
    · simp [without]
    · rcases mem_cons.1 hl with rfl | hl
      · exact ⟨hpos, hblock⟩
      · exact hforget.held l hl
  · exact hi
  · refine (hi.kmalloc hsize).kfree (hk.imp_right ?_)
    rintro ⟨l, hl, rfl⟩
    refine ⟨l, ?_, rfl⟩
    rcases kmalloc_cases size c.heap with heq | ⟨pre, d, post, -, -, -, -, heq⟩ <;>
      simp [step, heq, hl]

end

/-- **A proper call keeps the order.** -/
theorem Inv.step {r : Request} (hr : c.Proper r) : (c.step r).Inv := by
  cases r with
  | kmalloc size => exact hi.kmalloc hr
  | kfree ptr => exact hi.kfree hr
  | krealloc ptr size => exact hi.krealloc hr.1 hr.2

end

theorem inv_run {rs : List Request} (hok : Meets Proper HeapClient.step init rs) :
    (rs.foldl HeapClient.step init).Inv :=
  hok.invariant (fun _ _ hi hr => hi.step hr) inv_init

/-! ## Free blocks lie side by side only where one was freed after another -/

/-- `kmalloc` brings no two free blocks together. -/
theorem noAdjacentFree_kmalloc (size : ℕ) (hn : c.heap.NoAdjacentFree) :
    (c.step (.kmalloc size)).heap.NoAdjacentFree := by
  rcases kmalloc_cases size c.heap with heq | ⟨pre, b, post, -, hheap, hfree, -, heq⟩ <;>
    simp only [step, heq]
  · exact hn
  · rw [hheap] at hn
    refine Heap.NoneAfterFree.carve _ hn hfree (fun d hd => ?_)
    unfold carve at hd
    split_ifs at hd <;> cases hd <;> simp

/-- **`kfree` of a block that follows a block in use** brings no two free blocks
together. -/
theorem Inv.noAdjacentFree_kfree (hi : c.Inv) (hk : c.Known ptr) (hu : FollowsUsed ptr c.heap)
    (hn : c.heap.NoAdjacentFree) : (c.step (.kfree ptr)).heap.NoAdjacentFree := by
  rcases hk with rfl | ⟨l, hl, rfl⟩
  · exact hn
  obtain ⟨b, hb, -, hbaddr, hfreeAt⟩ := hi.block hl
  obtain ⟨pre, n, gone, rest, hheap, -, hfreed, hrest⟩ :=
    kfree_split hi.tiles (Nat.le_refl _) hb
  show (c.heap.kfree l.1).NoAdjacentFree
  rw [hfreeAt, hfreed]
  unfold FollowsUsed at hu
  rw [hheap] at hn hu
  refine hn.freed n (hu.imp (fun d e hde hcd => hde ⟨hcd.1, ?_⟩)) hrest
  show e.addr + blockHdrSize = l.1
  rw [show e.addr = b.addr from hcd.2, hbaddr]

/-- A call that frees no block after a free one brings no two free blocks
together. -/
theorem Inv.noAdjacentFree_step (hi : c.Inv) {r : Request} (hr : c.Proper r)
    (hu : c.FreesAfterUsed r) (hn : c.heap.NoAdjacentFree) :
    (c.step r).heap.NoAdjacentFree := by
  cases r with
  | kmalloc size => exact noAdjacentFree_kmalloc size hn
  | kfree ptr => exact hi.noAdjacentFree_kfree hr hu hn
  | krealloc ptr size =>
    obtain ⟨hk, hsize⟩ := hr
    rcases hi.krealloc_cases hk hsize with
      heq | ⟨hfrees, heq⟩ | ⟨-, -, heq⟩ | heq | ⟨hfrees, heq⟩ <;> rw [heq]
    · exact noAdjacentFree_kmalloc size hn
    · exact hi.noAdjacentFree_kfree hk (hu _ hfrees) hn
    · exact hn
    · exact hn
    · have hnew := noAdjacentFree_kmalloc size hn
      rcases hk with rfl | ⟨l, hl, rfl⟩
      · exact hnew
      · have hlive : l ∈ (c.step (.kmalloc size)).live := by
          rcases kmalloc_cases size c.heap with heq | ⟨pre, d, post, -, -, -, -, heq⟩ <;>
            simp [HeapClient.step, heq, hl]
        exact (hi.kmalloc hsize).noAdjacentFree_kfree (.inr ⟨l, hlive, rfl⟩)
          (hu _ hfrees) hnew

/-! ## The law of the heap -/

/-- **The live payloads are apart**, from one another and from every header. -/
def PayloadsApart (c : HeapClient) : Prop :=
  c.live.Pairwise (fun l k => l.1 + l.2 ≤ k.1 ∨ k.1 + k.2 ≤ l.1)
    ∧ ∀ l ∈ c.live, ∀ b ∈ c.heap, l.1 + l.2 ≤ b.addr ∨ b.addr + blockHdrSize ≤ l.1

/-- The data of a live pointer lies in a block, so it is apart from what the
other blocks hold. -/
theorem Inv.payloadsApart (hi : c.Inv) : c.PayloadsApart := by
  constructor
  · refine (pairwise_map.1 hi.nodup).imp_of_mem (fun {l k} hl hk hne => ?_)
    obtain ⟨-, b, hb, -, hbaddr, hbsize⟩ := hi.held l hl
    obtain ⟨-, d, hd, -, hdaddr, hdsize⟩ := hi.held k hk
    have hbd : b ≠ d := by
      rintro rfl
      exact hne (hbaddr.symm.trans hdaddr)
    have := hi.tiles.apart hb hd hbd
    omega
  · intro l hl d hd
    obtain ⟨-, b, hb, -, hbaddr, hbsize⟩ := hi.held l hl
    by_cases hbd : b = d
    · subst hbd
      omega
    · have := hi.tiles.apart hb hd hbd
      omega

/-- A block that is freed is not followed by a free block. -/
def FreesMerge (c : HeapClient) : Prop :=
  ∀ l ∈ c.live, ∃ pre b rest, c.heap.kfree l.1 = pre ++ b :: rest
    ∧ b.addr + blockHdrSize = l.1 ∧ b.isFree = true ∧ ∀ d ∈ rest.head?, d.isFree = false

theorem Inv.freesMerge (hi : c.Inv) : c.FreesMerge := by
  intro l hl
  obtain ⟨b, hb, -, hbaddr, hfreeAt⟩ := hi.block hl
  obtain ⟨pre, n, -, rest, -, -, hfreed, hrest⟩ :=
    kfree_split hi.tiles (Nat.le_refl _) hb
  exact ⟨pre, ⟨b.addr, n, true⟩, rest, hfreeAt.trans hfreed, hbaddr, rfl, hrest⟩

/-- **The heap over every history of proper calls.** The blocks tile the
window, the live payloads are apart from one another and from every header,
the counters and the headers account for the whole window, and a freed block
is merged with the free blocks after it. Two neighbours are both free only if
some call freed a block that followed a free one. -/
theorem heap_lawful (rs : List Request) (hok : Meets Proper HeapClient.step init rs) :
    Heap.TilesFrom heapStart (rs.foldl HeapClient.step init).heap
      ∧ (rs.foldl HeapClient.step init).PayloadsApart
      ∧ (rs.foldl HeapClient.step init).heap.heapUsed
          + (rs.foldl HeapClient.step init).heap.heapFree
          + blockHdrSize * (rs.foldl HeapClient.step init).heap.length = heapMax - heapStart
      ∧ (rs.foldl HeapClient.step init).FreesMerge
      ∧ (Meets FreesAfterUsed HeapClient.step init rs →
          (rs.foldl HeapClient.step init).heap.NoAdjacentFree) := by
  have hi := inv_run hok
  refine ⟨hi.tiles, hi.payloadsApart, ?_, hi.freesMerge, fun hused => ?_⟩
  · have := hi.tiles.accounted
    omega
  · refine ((hok.and hused).invariant
      (P := fun c : HeapClient => c.Inv ∧ c.heap.NoAdjacentFree) ?_ ⟨inv_init, by decide⟩).2
    rintro c r ⟨hi, hn⟩ ⟨hr, hu⟩
    exact ⟨hi.step hr, hi.noAdjacentFree_step hr hu hn⟩

/-- A block grown past its place and one freed. -/
def growRun : List Request :=
  [.kmalloc 10, .kmalloc 16, .krealloc 0x80000C 40, .kmalloc 5, .kfree 0x800024]

theorem heap_lawful_growRun :
    Meets Proper HeapClient.step init growRun
      ∧ Meets FreesAfterUsed HeapClient.step init growRun
      ∧ (growRun.foldl HeapClient.step init).PayloadsApart
      ∧ (growRun.foldl HeapClient.step init).heap.NoAdjacentFree := by
  have hok : Meets Proper HeapClient.step init growRun := by decide
  have hused : Meets FreesAfterUsed HeapClient.step init growRun := by decide
  obtain ⟨-, hapart, -, -, hfree⟩ := heap_lawful growRun hok
  exact ⟨hok, hused, hapart, hfree hused⟩

/-- **Two blocks freed in the order of their addresses stay two free blocks.**
The first has no free block after it when it is freed, and the second does
not look back. -/
theorem adjacent_free_blocks :
    Meets Proper HeapClient.step init
        [.kmalloc 16, .kmalloc 16, .kfree 0x80000C, .kfree 0x800028]
      ∧ ¬ (([.kmalloc 16, .kmalloc 16, .kfree 0x80000C, .kfree 0x800028] :
          List Request).foldl HeapClient.step init).heap.NoAdjacentFree := by
  decide

end HeapClient

end Makar
