import Makar.MallocInv

/-!
# What the allocator gives out

The calls of `userspace/malloc.c` as steps on the row of blocks. `malloc` turns a free block, or one
it gets from the kernel, into an allocation (`Inv.malloc`), `free` turns an allocation into a free
block and merges it with its neighbours (`Inv.free`), and the allocations that are not concerned stay
as they are: `liveOf` of the row changes by the one entry.

A program is a sequence of such calls, with stores into its allocations in between (`Op`). As long
as no request wraps (`Fits`), the allocations of a program lie inside the heap, apart from each other
and from every header (`allocations_apart`). A request that wraps breaks this at once
(`malloc_wraps`). No byte of the heap is lost either, unless `realloc` makes an allocation smaller in
its place (`all_accounted`, `realloc_loses`).
-/

namespace Makar

open List Nat

namespace Malloc

open Buf

variable {tidy : Prop} {s : State} {m m' : Buf} {a e p q x y want n sz : ℕ} {grant : Bool} {b d : Block}
  {bs l r : List Block}

/-! ## The allocations of a row -/

@[simp] theorem whole_append : Whole (l ++ r) ↔ Whole l ∧ Whole r := by
  simp only [Whole, mem_append, or_imp, forall_and]

@[simp] theorem whole_cons : Whole (b :: r) ↔ b.tag ≠ .lost ∧ Whole r := by
  simp only [Whole, mem_cons, forall_eq_or_imp]

theorem Whole.sublist (h : Whole bs) (hl : l.Sublist bs) : Whole l := fun b hb => h b (hl.subset hb)

theorem liveOf_append (l r : List Block) : liveOf (l ++ r) = liveOf l ++ liveOf r :=
  filterMap_append

theorem liveOf_cons_live (h : b.tag = .live n) (r : List Block) :
    liveOf (b :: r) = (b.addr + hdrBytes, n) :: liveOf r := by
  simp [liveOf, h]

theorem liveOf_cons_of_not_live (h : ∀ n, b.tag ≠ .live n) (r : List Block) :
    liveOf (b :: r) = liveOf r := by
  obtain ⟨_, _, t⟩ := b
  cases t with
  | live n => exact absurd rfl (h n)
  | free => rfl
  | lost => rfl

theorem mem_liveOf : (p, n) ∈ liveOf bs ↔ ∃ b ∈ bs, b.tag = .live n ∧ b.addr + hdrBytes = p := by
  unfold liveOf
  rw [mem_filterMap]
  refine exists_congr fun b => and_congr_right fun _ => ?_
  obtain ⟨_, _, t⟩ := b
  cases t <;> simp
  exact and_comm

/-- An allocation is the payload of a block. -/
theorem exists_block (h : (p, n) ∈ liveOf bs) :
    ∃ l b r, bs = l ++ b :: r ∧ b.tag = .live n ∧ p = b.addr + hdrBytes := by
  obtain ⟨b, hb, ht, hp⟩ := mem_liveOf.1 h
  obtain ⟨l, r, rfl⟩ := append_of_mem hb
  exact ⟨l, b, r, rfl, ht, hp.symm⟩

/-- Two ranges of bytes have none in common. -/
def Apart (x y : ℕ × ℕ) : Prop := x.1 + x.2 ≤ y.1 ∨ y.1 + y.2 ≤ x.1

/-- Step from header to header by the sizes they have. -/
def headersFrom (m : Buf) (e : ℕ) : ℕ → ℕ → List ℕ
  | 0, _ => []
  | fuel + 1, a => if a < e then a :: headersFrom m e fuel (a + size m a) else []

/-- **The headers of the heap**, from its base on. -/
def State.headers (s : State) : List ℕ := headersFrom s.mem s.heapEnd (s.heapEnd + 1) s.heapBase

theorem Tiles.headersFrom_eq (h : Tiles m e a bs) {fuel : ℕ} (hf : bs.length < fuel) :
    headersFrom m e fuel a = bs.map Block.addr := by
  induction bs generalizing a fuel with
  | nil =>
    obtain _ | fuel := fuel
    · omega
    · unfold headersFrom
      rw [if_neg (by rw [show a = e from h]; exact lt_irrefl e)]
      rfl
  | cons b bs ih =>
    obtain _ | fuel := fuel
    · omega
    · obtain ⟨rfl, hok, htail⟩ := h
      have hle := htail.le
      have h16 := hok.le
      unfold headersFrom
      rw [if_pos (by omega), hok.size, ih htail (by simpa using hf)]
      rfl

/-- The headers are those of the row. -/
theorem Inv.headers_eq (h : Inv s bs) : s.headers = bs.map Block.addr := by
  have := h.tiles.length_le
  exact h.tiles.headersFrom_eq (by omega)

/-- The allocations come in the order of their addresses, with a header between each two. -/
theorem Tiles.live_sorted (h : Tiles m e a bs) :
    (liveOf bs).Pairwise fun x y => x.1 + x.2 + hdrBytes ≤ y.1 := by
  induction bs generalizing a with
  | nil => exact List.Pairwise.nil
  | cons b bs ih =>
    by_cases hb : ∃ n, b.tag = .live n
    · obtain ⟨n, hn⟩ := hb
      rw [liveOf_cons_live hn]
      refine List.Pairwise.cons (fun x hx => ?_) (ih h.2.2)
      obtain ⟨d, hd, -, hda⟩ := mem_liveOf.1 (show (x.1, x.2) ∈ liveOf bs from hx)
      have h1 := (h.2.2.bounds hd).1
      have h2 := (h.2.1.live n hn).2
      have h3 := h.1
      show b.addr + hdrBytes + n + hdrBytes ≤ x.1
      omega
    · rw [liveOf_cons_of_not_live fun n hn => hb ⟨n, hn⟩]
      exact ih h.2.2

/-- A loop that writes the bytes of a range one after the other writes no others. -/
theorem foldl_put_of_notMem {f : Buf → ℕ → UInt8} {j : ℕ} (hj : j < q ∨ q + n ≤ j) :
    (List.range n).foldl (fun m i => put m (q + i) (f m i)) m j = m j := by
  induction n with
  | zero => rfl
  | succ n ih =>
    rw [range_succ, foldl_append, foldl_cons, foldl_nil,
      put_of_ne (by omega), ih (by omega)]

/-! ## Growing the heap -/

/-- Rounding up, without an end to the numbers. -/
def ceil (v a : ℕ) : ℕ := (v + (a - 1)) / a * a

theorem le_ceil (v : ℕ) (ha : 0 < a) : v ≤ ceil v a := by
  have h1 := div_add_mod (v + (a - 1)) a
  have h2 := mod_lt (v + (a - 1)) ha
  have h3 : ceil v a = a * ((v + (a - 1)) / a) := mul_comm ..
  omega

/-- The end of the heap, or where it will begin. -/
def State.top (s : State) : ℕ := if s.heapBase = 0 then s.brk else s.heapEnd

/-- **A request fits**: the block for it, rounded up to whole pages, does not go past the last
address. -/
def State.Fits (s : State) (n : ℕ) : Prop := s.top + ceil (ceil (n + hdrBytes) 8) 4096 < 2 ^ 32

instance (s : State) (n : ℕ) : Decidable (s.Fits n) := inferInstanceAs (Decidable (_ < _))

/-- **The allocations of the heap are these**, in any order; and no block is lost, if it is
`tidy`. -/
def Holds (tidy : Prop) (s : State) (as : List (ℕ × ℕ)) : Prop :=
  ∃ bs, Inv s bs ∧ (liveOf bs).Perm as ∧ (tidy → Whole bs)

theorem ceil_mono (a : ℕ) (h : x ≤ y) : ceil x a ≤ ceil y a :=
  Nat.mul_le_mul_right _ (Nat.div_le_div_right (by omega))

/-- Rounding up with 32 bits is exact when the result is not too large. -/
theorem roundUp_eq_ceil {k : ℕ} (hk : a * k = 2 ^ 32) (h : ceil x a < 2 ^ 32) :
    roundUp x a = ceil x a := by
  have ha : 0 < a := pos_of_ne_zero fun h0 => by simp [h0] at hk
  unfold roundUp
  rw [mod_eq_of_lt]
  · rfl
  -- a quotient below `2 ^ 32 / a` leaves the number below `2 ^ 32`
  have hq : (x + (a - 1)) / a < k := by
    refine Nat.lt_of_mul_lt_mul_left (a := a) ?_
    rw [hk, Nat.mul_comm]
    exact h
  have := lt_mul_div_succ (x + (a - 1)) ha
  have h2 : a * ((x + (a - 1)) / a + 1) ≤ a * k := mul_le_mul_left _ hq
  omega

/-- The break moves up, or stays. -/
theorem sysBrk_eq (s : State) (grant : Bool) (a : ℕ) :
    ∃ x, s.brk ≤ x ∧ s.sysBrk grant a = (x, { s with brk := x }) := by
  unfold State.sysBrk
  split
  · exact ⟨s.brk, le_rfl, rfl⟩
  · split
    · exact ⟨a, by omega, rfl⟩
    · exact ⟨s.brk, le_rfl, rfl⟩

/-- The memory with a header behind the end of the heap. -/
def growMem (m : Buf) (e need : ℕ) : Buf := wr32 (wr32 (wr32 m e need) (e + 4) 1) (e + 8) 0

theorem growMem_of_lt {k need : ℕ} (hk : k < e) : growMem m e need k = m k := by
  unfold growMem
  rw [wr32_of_notMem (by omega), wr32_of_notMem (by omega), wr32_of_notMem (by omega)]

/-- A request that fits does not wrap. -/
theorem State.Fits.wanted_eq (h : s.Fits n) : Malloc.wanted n = ceil (n + hdrBytes) 8 := by
  have hf : s.top + ceil (ceil (n + hdrBytes) 8) 4096 < 2 ^ 32 := h
  have h1 := le_ceil (ceil (n + hdrBytes) 8) (show 0 < 4096 by decide)
  have h2 := le_ceil (n + hdrBytes) (show 0 < 8 by decide)
  unfold Malloc.wanted
  rw [mod_eq_of_lt (by omega)]
  exact roundUp_eq_ceil (k := 2 ^ 29) rfl (by omega)

/-- The size of a block for a request that fits. -/
theorem State.Fits.wanted (h : s.Fits n) (hn : n ≠ 0) :
    n + hdrBytes ≤ Malloc.wanted n ∧ 16 ≤ Malloc.wanted n := by
  have h2 := le_ceil (n + hdrBytes) (show 0 < 8 by decide)
  have h3 : ceil 13 8 ≤ ceil (n + hdrBytes) 8 := ceil_mono 8 (by unfold hdrBytes; omega)
  rw [h.wanted_eq]
  exact ⟨h2, h3⟩

/-- The block `malloc` looks for, which has at least the smallest size, fits as well. -/
theorem State.Fits.least (h : s.Fits n) {w : ℕ}
    (hw : w = if Malloc.wanted n < minBlock then minBlock else Malloc.wanted n) :
    n + hdrBytes ≤ w ∧ 16 ≤ w ∧ s.top + ceil w 4096 < 2 ^ 32 := by
  have hf : s.top + ceil (ceil (n + hdrBytes) 8) 4096 < 2 ^ 32 := h
  have h2 := le_ceil (n + hdrBytes) (show 0 < 8 by decide)
  have hhdr : hdrBytes = 12 := rfl
  have hmin : minBlock = 20 := rfl
  rw [h.wanted_eq] at hw
  by_cases hlt : ceil (n + hdrBytes) 8 < minBlock
  · rw [if_pos hlt] at hw
    have h4 : ceil minBlock 4096 ≤ ceil (ceil (n + hdrBytes) 8) 4096 := by
      refine (show ceil minBlock 4096 = ceil 1 4096 from rfl).trans_le (ceil_mono _ ?_)
      omega
    subst hw
    exact ⟨by omega, by decide, by omega⟩
  · rw [if_neg hlt] at hw
    subst hw
    exact ⟨h2, by omega, hf⟩

namespace Inv

/-- The invariant does not look at the break, except that the heap ends before it. -/
theorem setBrk (h : Inv s bs) (hx : s.brk ≤ x) : Inv { s with brk := x } bs :=
  ⟨h.tiles, h.chained, h.base, ⟨h.brk.1.trans hx, h.brk.2.trans_le hx⟩, h.lt⟩

/-- A new block at the end, before it is linked. -/
theorem tiles_growMem {need : ℕ} (h : Inv s bs) (hneed : 16 ≤ need) (hlt : need < 2 ^ 32) :
    Tiles (growMem s.mem s.heapEnd need) (s.heapEnd + need) s.heapBase
        (bs ++ [⟨s.heapEnd, need, .free⟩])
      ∧ (∀ x ∈ freeAddrs bs, next (growMem s.mem s.heapEnd need) x = next s.mem x)
      ∧ next (growMem s.mem s.heapEnd need) s.heapEnd = 0 := by
  have hword : ∀ d ∈ bs, ∀ k ≤ 8, rd32 (growMem s.mem s.heapEnd need) (d.addr + k)
      = rd32 s.mem (d.addr + k) := fun d hd k hk => by
    have h1 := (h.tiles.bounds hd).2
    have h2 := (h.tiles.ok hd).le
    exact rd32_congr fun j _ _ => growMem_of_lt (by omega)
  have hsize : size (growMem s.mem s.heapEnd need) s.heapEnd = need := by
    unfold size growMem
    rw [rd32_wr32_of_disjoint (by omega), rd32_wr32_of_disjoint (by omega), rd32_wr32 hlt]
  have hflag : flag (growMem s.mem s.heapEnd need) s.heapEnd = 1 := by
    unfold flag growMem
    rw [rd32_wr32_of_disjoint (by omega), rd32_wr32 (by decide)]
  refine ⟨Tiles.append.2 ⟨s.heapEnd, ?_, rfl, ⟨hsize, hneed, by simp, fun _ => hflag⟩, rfl⟩,
    fun x hx => ?_, rd32_wr32 (by decide)⟩
  · exact h.tiles.congr fun d hd => ⟨hword d hd 0 (by decide), hword d hd 4 (by decide)⟩
  · obtain ⟨d, hd, -, rfl⟩ := mem_freeAddrs.1 hx
    exact hword d hd 8 (by decide)

/-- **A block is added at the end of the heap**, and of the free list. -/
theorem append {need : ℕ} (h : Inv s bs) (h0 : s.heapBase ≠ 0) (hneed : 16 ≤ need)
    (hlt : s.heapEnd + need < 2 ^ 31) (hx : s.heapEnd + need ≤ x) (u : State)
    (hu : u = { s with mem := growMem s.mem s.heapEnd need, brk := x }) :
    Inv { (if u.freeHead = 0 then { u with freeHead := s.heapEnd }
        else u.poke (u.follow (fun p => next u.mem p = 0) + 8) s.heapEnd) with
        heapEnd := s.heapEnd + need }
      (bs ++ [⟨s.heapEnd, need, .free⟩]) := by
  obtain ⟨htiles, hkeep, hnew⟩ := h.tiles_growMem hneed (by omega)
  have hbase := h.tiles.le
  have hfl : FreeList u (freeAddrs bs) := by
    refine ⟨?_, ?_⟩
    · rw [hu]
      exact h.chained.congr hkeep
    · rw [hu]
      exact h.freeList.length_lt
  have hmem : u.mem = growMem s.mem s.heapEnd need := by rw [hu]
  have hub : u.heapBase = s.heapBase := by rw [hu]
  have hux : u.brk = x := by rw [hu]
  have hnew' : Chained (· = 0) (next u.mem) s.heapEnd [s.heapEnd] :=
    ⟨rfl, by omega, by rw [hmem]; exact hnew⟩
  rw [← hmem] at htiles
  by_cases hhead : u.freeHead = 0
  · -- the first free block
    have hnil : freeAddrs bs = [] := by
      obtain ⟨hnil, -⟩ | ⟨l', hl'⟩ := hfl.chained.head_cases
      · exact hnil
      · exact absurd hhead (hfl.chained.not_fin (by rw [hl']; exact mem_cons_self))
    rw [if_pos hhead]
    refine ⟨?_, ?_, fun hb => absurd (hub ▸ hb) h0, ⟨by rw [← hux] at hx; exact hx, by
      show 0 < u.brk
      omega⟩, hlt⟩
    · rw [← hub] at htiles
      exact htiles
    · rw [freeAddrs_append, hnil]
      exact hnew'
  · -- the last free block gets a successor
    rw [if_neg hhead]
    obtain ⟨us, p, hus⟩ : ∃ us p, freeAddrs bs = us ++ [p] := by
      rcases eq_nil_or_concat (freeAddrs bs) with hnil | ⟨us, p, hus⟩
      · rw [hnil] at hfl
        exact absurd hfl.chained hhead
      · exact ⟨us, p, by rw [hus, concat_eq_append]⟩
    rw [hus] at hfl
    have hch := hfl.chained
    have hlast : next u.mem p = 0 := hch.after_node
    have hfollow : u.follow (fun y => decide (next u.mem y = 0)) = p :=
      hfl.follow_last (T := fun y => decide (y = 0))
        (fun y hy => by simpa using hch.not_fin hy) (by simpa using hlast)
    simp only [hfollow]
    have hpbs : p ∈ freeAddrs bs := by simp [hus]
    obtain ⟨d, hd, -, rfl⟩ := mem_freeAddrs.1 hpbs
    refine ⟨?_, ?_, fun hb => absurd (hub ▸ hb) h0, ⟨by rw [← hux] at hx; exact hx, by
      show 0 < u.brk
      omega⟩, hlt⟩
    · rw [← hub] at htiles
      exact htiles.poke_link (mem_append_left _ hd) _
    · have hpw := htiles.pairwise
      rw [freeAddrs_append, hus] at hpw ⊢
      rw [append_assoc]
      have hdp := (pairwise_append.1 hpw).2.2 d.addr (by simp) s.heapEnd
        (by simp [freeAddrs])
      refine hch.relink (fun y hy => FreeList.next_poke_of_far (.inr ?_))
        (rd32_wr32 (by omega)) (hnew'.congr fun y hy => FreeList.next_poke_of_far (.inl ?_))
      · exact (pairwise_append.1 (pairwise_append.1 hpw).1).2.2 y hy _ (by simp)
      · rw [mem_singleton.1 hy]
        exact hdp

/-- **Growing the heap** adds a free block at its end, or fails. It always fails when there is no
heap to grow. -/
theorem growHeap (h : Inv s bs) (h0 : s.heapBase ≠ 0 ∨ 2 ^ 31 ≤ s.brk) (hwant : 0 < want)
    (hfit : s.heapEnd + ceil want 4096 < 2 ^ 32) :
    (∃ s', s.growHeap grant want = (none, s') ∧ Inv s' bs)
      ∨ ∃ s', s.growHeap grant want = (some s.heapEnd, s')
        ∧ Inv s' (bs ++ [⟨s.heapEnd, ceil want 4096, .free⟩]) := by
  have hneed : roundUp want 4096 = ceil want 4096 := roundUp_eq_ceil (k := 2 ^ 20) rfl (by omega)
  have hge : 4096 ≤ ceil want 4096 := ceil_mono 4096 (x := 1) hwant
  obtain ⟨x, hx, hsys⟩ := sysBrk_eq s grant (s.heapEnd + ceil want 4096)
  unfold State.growHeap State.brkSet
  simp only [hneed, mod_eq_of_lt hfit, hsys]
  by_cases hpos : 0 < x ∧ x < 2 ^ 31
  · rw [if_pos hpos]
    by_cases hgot : x < s.heapEnd + ceil want 4096
    · rw [if_pos hgot]
      exact .inl ⟨_, rfl, h.setBrk hx⟩
    · rw [if_neg hgot]
      exact .inr ⟨_, rfl, h.append (x := x) (by omega) (by omega) (by omega) (by omega) _ rfl⟩
  · rw [if_neg hpos, if_pos (by omega)]
    exact .inl ⟨_, rfl, h.setBrk hx⟩

/-- The heap is found where the break is. -/
theorem heapInit (h : Inv s bs) :
    Inv s.heapInit bs ∧ (s.heapInit.heapBase ≠ 0 ∨ 2 ^ 31 ≤ s.heapInit.brk)
      ∧ s.heapInit.heapEnd ≤ s.top := by
  unfold State.heapInit State.brkSet State.sysBrk State.top
  by_cases h0 : s.heapBase = 0
  · have hbs := h.base h0
    have hpos := h.brk.2
    subst hbs
    simp only [h0, ne_eq, not_true_eq_false, if_false, if_true, true_or]
    by_cases hlt : 0 < s.brk ∧ s.brk < 2 ^ 31
    · simp only [if_pos hlt]
      exact ⟨⟨rfl, rfl, fun _ => rfl, ⟨le_rfl, hpos⟩, hlt.2⟩, .inl (by omega), le_rfl⟩
    · simp only [if_neg hlt]
      exact ⟨⟨rfl, rfl, fun _ => rfl, ⟨Nat.zero_le _, hpos⟩, Nat.two_pow_pos 31⟩,
        .inr (by omega), Nat.zero_le _⟩
  · simp only [ne_eq, h0, not_false_eq_true, if_true, if_false]
    exact ⟨h, .inl trivial, le_rfl⟩

/-- Splitting a block that is too small, or asking whether it is before. -/
theorem splitBlock_guard (s : State) (b want : ℕ) :
    (if (want + minBlock) % 2 ^ 32 ≤ size s.mem b then s.splitBlock b want else s)
      = s.splitBlock b want := by
  split
  · rfl
  · unfold State.splitBlock
    rw [if_pos (by omega)]

/-- A block with too little left over is not split. -/
theorem splitBlock_small (h : Inv s (l ++ b :: r)) (hwant : want ≤ b.size)
    (hsz : ¬want + minBlock ≤ b.size) : s.splitBlock b.addr want = s := by
  obtain ⟨hok, hend, hlt⟩ := h.block
  unfold State.splitBlock
  rw [hok.size, if_pos]
  rw [mod_eq_of_lt (by unfold minBlock hdrBytes; omega)]
  omega

/-- **A free block becomes an allocation**, without what it has too much. -/
theorem take (h : Inv s (l ++ b :: r)) (hq : tidy → Whole (l ++ b :: r)) (hb : b.tag = .free)
    (hn : n + hdrBytes ≤ want) (h16 : 16 ≤ want) (hwant : want ≤ b.size) :
    ((s.splitBlock b.addr want).takeBlock b.addr).1 = b.addr + hdrBytes
      ∧ Holds tidy ((s.splitBlock b.addr want).takeBlock b.addr).2
          ((b.addr + hdrBytes, n) :: liveOf (l ++ b :: r)) := by
  obtain ⟨-, hend, hlt⟩ := h.block
  refine ⟨mod_eq_of_lt (by unfold hdrBytes; omega), ?_⟩
  rw [liveOf_append, liveOf_cons_of_not_live (by simp [hb])]
  unfold State.takeBlock
  by_cases hsz : want + minBlock ≤ b.size
  · have hs := h.split hb h16 hsz
    rw [hs.unlink_of_ne (b := ⟨b.addr, want, .lost⟩) (by simp)]
    refine ⟨_, hs.claim rfl hn, ?_, fun hw => by simpa [hb] using hq hw⟩
    rw [liveOf_append, liveOf_cons_live rfl, liveOf_cons_of_not_live (by simp)]
    exact perm_middle
  · rw [h.splitBlock_small hwant hsz]
    refine ⟨_, (h.unlink hb).claim rfl (hn.trans hwant), ?_, fun hw => by simpa [hb] using hq hw⟩
    rw [liveOf_append, liveOf_cons_live rfl]
    exact perm_middle

/-- **`malloc` gives a new allocation, or none.** -/
theorem malloc (h : Inv s bs) (hq : tidy → Whole bs) (hfit : s.Fits sz) :
    ((s.malloc grant sz).1 = 0 ∧ Inv (s.malloc grant sz).2 bs)
      ∨ ((s.malloc grant sz).1 ≠ 0
        ∧ Holds tidy (s.malloc grant sz).2 (((s.malloc grant sz).1, sz) :: liveOf bs)) := by
  unfold State.malloc
  by_cases hz : sz = 0
  · rw [if_pos hz]
    exact .inl ⟨rfl, h⟩
  rw [if_neg hz]
  obtain ⟨hi, h0, htop⟩ := h.heapInit
  obtain ⟨w, hw⟩ : ∃ w, w = if wanted sz < minBlock then minBlock else wanted sz := ⟨_, rfl⟩
  obtain ⟨hn, h16, hroom⟩ := hfit.least hw
  generalize s.heapInit = u at *
  simp only [← hw]
  obtain ⟨x, hx, hcur⟩ | ⟨-, hcur⟩ := hi.freeList.follow fun p => decide (w ≤ size u.mem p)
  · -- a block of the list is large enough
    obtain ⟨b, hb, hfree, rfl⟩ := mem_freeAddrs.1 (mem_of_find?_eq_some hx)
    have hsize : w ≤ b.size := by
      have := List.find?_some hx
      rw [← (hi.tiles.ok hb).size]
      simpa using this
    simp only [hcur]
    obtain ⟨l, r, rfl⟩ := append_of_mem hb
    rw [if_pos (hi.addr_ne_zero hb)]
    obtain ⟨h1, h2⟩ := hi.take hq hfree hn h16 hsize
    rw [h1]
    exact .inr ⟨by unfold hdrBytes; omega, h2⟩
  · -- a block is asked for
    simp only [hcur, ne_eq, not_true_eq_false, if_false]
    obtain ⟨u', heq, hu⟩ | ⟨u', heq, hu⟩ := hi.growHeap h0 (show 0 < w by omega)
      (by omega) <;> rw [heq]
    · exact .inl ⟨rfl, hu⟩
    · simp only [splitBlock_guard]
      obtain ⟨h1, h2⟩ := hu.take (fun hw => whole_append.2 ⟨hq hw, by simp [Whole]⟩) rfl hn h16
        (le_ceil _ (by decide))
      rw [liveOf_append, liveOf_cons_of_not_live (b := ⟨u.heapEnd, _, .free⟩) (by simp)] at h2
      refine .inr ⟨?_, ?_⟩
      · show ((u'.splitBlock u.heapEnd w).takeBlock u.heapEnd).1 ≠ 0
        rw [h1]
        show u.heapEnd + hdrBytes ≠ 0
        unfold hdrBytes
        omega
      · show Holds tidy ((u'.splitBlock u.heapEnd w).takeBlock u.heapEnd).2
          ((((u'.splitBlock u.heapEnd w).takeBlock u.heapEnd).1, sz) :: liveOf bs)
        rw [h1]
        exact (append_nil (liveOf bs)) ▸ h2

section

variable (h : Inv s (l ++ b :: r))
include h

/-- A free block is taken in by the one before it in the list, when the two touch. -/
theorem absorb_back (hb : b.tag = .free) (hhead : s.freeHead ≠ b.addr) :
    ∃ bs', Inv (s.absorb (s.follow fun p => next s.mem p = b.addr)) bs'
      ∧ liveOf bs' = liveOf l ++ liveOf r ∧ (Whole (l ++ r) → Whole bs') := by
  have hfl := h.freeList
  rw [freeAddrs_append, freeAddrs_cons_free hb] at hfl
  rcases eq_nil_or_concat (freeAddrs l) with hnil | ⟨us, p, hus⟩
  · rw [hnil] at hfl
    exact absurd hfl.chained.1 hhead
  rw [concat_eq_append] at hus
  have hpl : p ∈ freeAddrs l := by simp [hus]
  rw [hus, append_assoc] at hfl
  have hch := hfl.chained
  have hnext : next s.mem p = b.addr := hch.after_node.1
  have hne : ∀ y ∈ us ++ [p], y ≠ b.addr := fun y hy heq => by
    have hnd := hch.nodup
    rw [← append_assoc] at hnd
    exact disjoint_of_nodup_append hnd hy (heq ▸ mem_cons_self)
  have hfollow : s.follow (fun y => decide (next s.mem y = b.addr)) = p :=
    hfl.follow_last (T := fun y => decide (y = b.addr)) (fun y hy => by simpa using hne y hy)
      (by simpa using hnext)
  obtain ⟨d, hd, hdf, rfl⟩ := mem_freeAddrs.1 hpl
  obtain ⟨l₁, l₂, rfl⟩ := append_of_mem hd
  rw [append_assoc, cons_append] at h
  rw [hfollow]
  obtain ⟨sz, r', hinv, hlive, hsub⟩ := h.absorb hdf
    (by rw [hnext]; exact h.addr_ne_zero (by simp))
  refine ⟨_, hinv, ?_, fun hw => ?_⟩
  swap
  · have hr : Whole (l₂ ++ b :: r) := by simp_all
    have := hr.sublist hsub
    simp_all
  rw [liveOf_append, liveOf_cons_of_not_live (by simp), hlive, liveOf_append, liveOf_append,
    liveOf_cons_of_not_live (b := b) (by simp [hb]),
    liveOf_cons_of_not_live (b := d) (by simp [hdf])]
  exact (append_assoc ..).symm

/-- **A block goes back**, and is merged with its neighbours. -/
theorem freeInsertCoalesce (hb : b.tag ≠ .free) :
    ∃ bs', Inv (s.freeInsertCoalesce b.addr) bs' ∧ liveOf bs' = liveOf l ++ liveOf r
      ∧ (Whole (l ++ r) → Whole bs') := by
  have hmark : Inv (s.poke (b.addr + 4) 1) (l ++ { b with tag := .lost } :: r) :=
    h.retag hb (by simp) (by simp)
  have hins := hmark.insertFree rfl (rd32_wr32 (by decide))
  unfold State.freeInsertCoalesce
  generalize (s.poke (b.addr + 4) 1).insertFree b.addr = u at *
  obtain ⟨sz, r', hu, hlive, hsub⟩ : ∃ sz r',
      Inv (if next u.mem b.addr ≠ 0 then u.absorb b.addr else u)
        (l ++ ⟨b.addr, sz, .free⟩ :: r') ∧ liveOf r' = liveOf r ∧ r'.Sublist r := by
    split_ifs with hnext
    · exact hins.absorb rfl hnext
    · exact ⟨b.size, r, hins, rfl, List.Sublist.refl r⟩
  dsimp only at hu ⊢
  generalize (if next u.mem b.addr ≠ 0 then u.absorb b.addr else u) = w at *
  split_ifs with hhead
  · rw [← hlive]
    obtain ⟨bs', hinv, hl, hw⟩ := hu.absorb_back rfl hhead
    exact ⟨bs', hinv, hl, fun h => hw (h.sublist ((List.Sublist.refl l).append hsub))⟩
  · refine ⟨_, hu, ?_, fun hw => ?_⟩
    · rw [liveOf_append, liveOf_cons_of_not_live (by simp), hlive]
    · simpa using hw.sublist ((List.Sublist.refl l).append hsub)

/-- **`free` takes an allocation away.** -/
theorem free (hb : b.tag = .live n) :
    ∃ bs', Inv (s.free (b.addr + hdrBytes)) bs' ∧ liveOf bs' = liveOf l ++ liveOf r
      ∧ (Whole (l ++ r) → Whole bs') := by
  obtain ⟨hok, hend, hlt⟩ := h.block
  have hb16 := hok.le
  have hheader : State.header (b.addr + hdrBytes) = b.addr := by
    unfold State.header
    omega
  unfold State.free
  rw [if_neg (by unfold hdrBytes; omega), hheader,
    if_neg (not_not.2 (hok.live n hb).1)]
  exact h.freeInsertCoalesce (by simp [hb])

/-- Bytes are written into an allocation. -/
theorem writeLive (hb : b.tag = .live n)
    (hm : ∀ k, k < b.addr + hdrBytes ∨ b.addr + hdrBytes + n ≤ k → m' k = s.mem k) :
    Inv { s with mem := m' } (l ++ b :: r) := by
  have hok := h.block.1
  obtain ⟨hflag, hn⟩ := hok.live n hb
  unfold hdrBytes at hm hn
  have hsize : size m' b.addr = size s.mem b.addr := rd32_congr fun k _ _ => hm k (by omega)
  have hflag' : flag m' b.addr = flag s.mem b.addr := rd32_congr fun k _ _ => hm k (by omega)
  have hsame : Tiles m' (b.addr + b.size) b.addr [b] :=
    ⟨rfl, ⟨hsize.trans hok.size, hok.le, fun k hk => hflag' ▸ hok.live k hk,
      fun hf => hflag'.trans (hok.free hf)⟩, rfl⟩
  have := h.rewrite (by simp [hb]) (fun k hk => hm k (by omega)) hsame (by simp [freeAddrs, hb])
  rwa [append_assoc] at this

/-- **An allocation gets another size** in its place: the end of its block is cut off, or it is only
called otherwise. -/
theorem resize (hq : tidy → Whole (l ++ b :: r) ∧ b.size < want + minBlock) (hb : b.tag = .live n)
    (hsz : sz + hdrBytes ≤ want) (h16 : 16 ≤ want) (hwant : want ≤ b.size) :
    Holds tidy (s.splitBlock b.addr want) ((b.addr + hdrBytes, sz) :: (liveOf l ++ liveOf r)) := by
  have hok := h.block.1
  have hflag := (hok.live n hb).1
  by_cases hcut : want + minBlock ≤ b.size
  · refine ⟨_, h.cut (by simp [hb]) h16 hcut (t := .live sz) (by simp) fun k hk => ?_, ?_,
      fun hw => absurd hcut (by have := (hq hw).2; omega)⟩
    · obtain rfl : sz = k := by injection hk
      exact ⟨hflag, hsz⟩
    · rw [liveOf_append, liveOf_append, liveOf_cons_live rfl, liveOf_cons_of_not_live (by simp),
        append_assoc]
      exact perm_middle
  · rw [h.splitBlock_small hwant hcut]
    have hch := h.chained
    rw [freeAddrs_append, freeAddrs_cons_of_ne (by simp [hb])] at hch
    refine ⟨l ++ { b with tag := .live sz } :: r,
      ⟨h.tiles.retag (fun k hk => ?_) (by simp), ?_, fun h0 => absurd (h.base h0) (by simp), h.brk,
        h.lt⟩, ?_, fun hw => by simpa [hb] using (hq hw).1⟩
    · obtain rfl : sz = k := by injection hk
      exact ⟨hflag, hsz.trans hwant⟩
    · rw [freeAddrs_append, freeAddrs_cons_of_ne (by simp)]
      exact hch
    · rw [liveOf_append, liveOf_cons_live rfl]
      exact perm_middle

end

end Inv

/-! ## The calls -/

namespace Holds

variable {as : List (ℕ × ℕ)}

theorem perm {as' : List (ℕ × ℕ)} (h : Holds tidy s as) (hp : as.Perm as') : Holds tidy s as' := by
  obtain ⟨bs, hinv, hbs, hw⟩ := h
  exact ⟨bs, hinv, hbs.trans hp, hw⟩

/-- **`malloc` gives a new allocation, or none.** -/
theorem malloc (h : Holds tidy s as) (hfit : s.Fits sz) :
    ((s.malloc grant sz).1 = 0 ∧ Holds tidy (s.malloc grant sz).2 as)
      ∨ ((s.malloc grant sz).1 ≠ 0
        ∧ Holds tidy (s.malloc grant sz).2 (((s.malloc grant sz).1, sz) :: as)) := by
  obtain ⟨bs, hinv, hbs, hw⟩ := h
  obtain ⟨h0, hinv⟩ | ⟨h0, hnew⟩ := hinv.malloc hw hfit
  · exact .inl ⟨h0, bs, hinv, hbs, hw⟩
  · exact .inr ⟨h0, hnew.perm (hbs.cons _)⟩

/-- **`free` takes an allocation away.** -/
theorem free (h : Holds tidy s ((p, n) :: as)) : Holds tidy (s.free p) as := by
  obtain ⟨bs, hinv, hbs, hw⟩ := h
  obtain ⟨l, b, r, rfl, htag, rfl⟩ := exists_block (hbs.mem_iff.2 mem_cons_self)
  obtain ⟨bs', hinv', hlive, hw'⟩ := hinv.free htag
  refine ⟨bs', hinv', ?_, fun hq => hw' ((hw hq).sublist
    ((List.Sublist.refl l).append (sublist_cons_self ..)))⟩
  rw [liveOf_append, liveOf_cons_live htag] at hbs
  rw [hlive]
  exact (perm_middle.symm.trans hbs).cons_inv

/-- **Bytes are written into an allocation.** -/
theorem write (h : Holds tidy s as) (hp : (p, n) ∈ as)
    (hm : ∀ k, k < p ∨ p + n ≤ k → m' k = s.mem k) : Holds tidy { s with mem := m' } as := by
  obtain ⟨bs, hinv, hbs, hw⟩ := h
  obtain ⟨l, b, r, rfl, htag, rfl⟩ := exists_block (hbs.mem_iff.2 hp)
  exact ⟨_, hinv.writeLive htag hm, hbs, hw⟩

/-- **`calloc` gives a new allocation, or none.** -/
theorem calloc {k : ℕ} (h : Holds tidy s as) (hprod : n * k < 2 ^ 32) (hfit : s.Fits (n * k)) :
    ((s.calloc grant n k).1 = 0 ∧ Holds tidy (s.calloc grant n k).2 as)
      ∨ ((s.calloc grant n k).1 ≠ 0
        ∧ Holds tidy (s.calloc grant n k).2 (((s.calloc grant n k).1, n * k) :: as)) := by
  unfold State.calloc
  simp only [mod_eq_of_lt hprod]
  rw [if_neg (by omega)]
  obtain ⟨h0, hs⟩ | ⟨h0, hs⟩ := h.malloc hfit
  · rw [if_pos h0]
    exact .inl ⟨rfl, hs⟩
  · rw [if_neg h0]
    exact .inr ⟨h0, hs.write mem_cons_self fun j hj => foldl_put_of_notMem hj⟩

/-- **`realloc` gives an allocation of the new size for the old one**, or leaves the old one. -/
theorem realloc (h : Holds tidy s ((p, n) :: as)) (hz : sz ≠ 0) (hfit : s.Fits sz)
    (hq : tidy → size s.mem (State.header p) < wanted sz + minBlock) :
    ((s.realloc grant p sz).1 = 0 ∧ Holds tidy (s.realloc grant p sz).2 ((p, n) :: as))
      ∨ ((s.realloc grant p sz).1 ≠ 0
        ∧ Holds tidy (s.realloc grant p sz).2 (((s.realloc grant p sz).1, sz) :: as)) := by
  obtain ⟨bs, hinv, hbs, hw⟩ := id h
  obtain ⟨l, b, r, rfl, htag, hp⟩ := exists_block (hbs.mem_iff.2 mem_cons_self)
  obtain ⟨hok, hend, hlt⟩ := hinv.block
  have hp0 : p ≠ 0 := by
    unfold hdrBytes at hp
    omega
  have hheader : State.header p = b.addr := by
    unfold State.header
    omega
  rw [hheader, hok.size] at hq
  unfold State.realloc
  rw [if_neg hp0, if_neg hz]
  simp only [hheader, hok.size]
  by_cases hin : wanted sz ≤ b.size
  · -- in its place
    rw [if_pos hin]
    rw [← hok.size, Inv.splitBlock_guard]
    obtain ⟨h1, h2⟩ := hfit.wanted hz
    refine .inr ⟨hp0, ((hinv.resize (fun hh => ⟨hw hh, hq hh⟩) htag h1 h2 hin).perm ?_)⟩
    rw [liveOf_append, liveOf_cons_live htag, ← hp] at hbs
    rw [← hp]
    exact ((perm_middle.symm.trans hbs).cons_inv).cons _
  · -- into a new block
    rw [if_neg hin]
    obtain ⟨h0, hs⟩ | ⟨h0, hs⟩ := h.malloc hfit
    · rw [if_pos h0]
      exact .inl ⟨rfl, hs⟩
    · rw [if_neg h0]
      refine .inr ⟨h0, ?_⟩
      refine Holds.free (n := n) (Holds.perm ?_ (List.Perm.swap ..))
      refine hs.write mem_cons_self fun j hj => foldl_put_of_notMem ?_
      split <;> omega

section

variable (h : Holds tidy s as)
include h

/-- The allocations lie inside the heap. -/
theorem inside (hp : (p, n) ∈ as) : s.heapBase ≤ p ∧ p + n ≤ s.heapEnd := by
  obtain ⟨bs, hinv, hbs, -⟩ := h
  obtain ⟨b, hb, htag, rfl⟩ := mem_liveOf.1 (hbs.mem_iff.2 hp)
  have h1 := hinv.tiles.bounds hb
  have h2 := ((hinv.tiles.ok hb).live n htag).2
  exact ⟨by omega, by omega⟩

/-- The allocations are apart from each other. -/
theorem pairwise : as.Pairwise Apart := by
  obtain ⟨bs, hinv, hbs, -⟩ := h
  have hsymm : ∀ {x y : ℕ × ℕ}, Apart x y → Apart y x := fun h => Or.symm h
  exact (hbs.pairwise_iff hsymm).1 (hinv.tiles.live_sorted.imp fun h => .inl (by omega))

/-- No two allocations have one address. -/
theorem nodup : (as.map Prod.fst).Nodup := by
  obtain ⟨bs, hinv, hbs, -⟩ := h
  refine (hbs.map Prod.fst).nodup_iff.1 (pairwise_map.2 ?_)
  exact hinv.tiles.live_sorted.imp fun h => by
    unfold hdrBytes at h
    omega

theorem ptr_ne_zero (hp : (p, n) ∈ as) : p ≠ 0 := by
  obtain ⟨bs, hinv, hbs, -⟩ := h
  obtain ⟨b, -, -, rfl⟩ := mem_liveOf.1 (hbs.mem_iff.2 hp)
  unfold hdrBytes
  omega

/-- One allocation, and those with another address. -/
theorem perm_filter (hp : (p, n) ∈ as) : as.Perm ((p, n) :: as.filter fun a => a.1 ≠ p) := by
  have hnd := h.nodup
  obtain ⟨l, r, rfl⟩ := append_of_mem hp
  have hne : ∀ a ∈ l ++ r, a.1 ≠ p := fun a ha heq => by
    rw [(perm_middle.map Prod.fst).nodup_iff, map_cons, nodup_cons] at hnd
    exact hnd.1 (mem_map.2 ⟨a, ha, heq⟩)
  have hfilter : (l ++ (p, n) :: r).filter (fun a => decide (a.1 ≠ p)) = l ++ r := by
    rw [filter_append, filter_cons_of_neg (by simp), ← filter_append]
    exact filter_eq_self.2 fun a ha => by simpa using hne a ha
  rw [hfilter]
  exact perm_middle

/-- The allocations are apart from every header. -/
theorem apart_headers (hp : (p, n) ∈ as) (hx : x ∈ s.headers) : Apart (p, n) (x, hdrBytes) := by
  obtain ⟨bs, hinv, hbs, -⟩ := h
  obtain ⟨b, hb, htag, rfl⟩ := mem_liveOf.1 (hbs.mem_iff.2 hp)
  rw [hinv.headers_eq] at hx
  obtain ⟨d, hd, rfl⟩ := mem_map.1 hx
  have h1 := ((hinv.tiles.ok hb).live n htag).2
  have h2 := (hinv.tiles.ok hd).le
  show b.addr + hdrBytes + n ≤ d.addr ∨ d.addr + hdrBytes ≤ b.addr + hdrBytes
  obtain rfl | hf | hf := hinv.tiles.eq_or_far hb hd
  · exact .inr le_rfl
  · exact .inl (by omega)
  · exact .inr (by omega)

end

end Holds

/-! ## Programs -/

/-- What a program does with the allocator. Where the break would have to move, the kernel grants it
or not; a store writes a byte of the program. -/
inductive Op
  | malloc (grant : Bool) (sz : ℕ)
  | calloc (grant : Bool) (n sz : ℕ)
  | realloc (grant : Bool) (p sz : ℕ)
  | free (p : ℕ)
  | store (a : ℕ) (x : UInt8)

/-- The state of the allocator, and the allocations the program has: what each call returned, with
the number of bytes that were asked for. -/
structure Heap extends State where
  allocs : List (ℕ × ℕ)

namespace Heap

variable (h : Heap)

/-- The program gets an address, which may be null. -/
def got (r : ℕ × State) (n : ℕ) : Heap :=
  ⟨r.2, if r.1 = 0 then h.allocs else (r.1, n) :: h.allocs⟩

/-- The program gives an allocation away. -/
def drop (p : ℕ) : Heap := { h with allocs := h.allocs.filter fun a => a.1 ≠ p }

/-- **One call of the program.** The old allocation is gone when `realloc` returns a new one, and
when it is asked for no bytes. -/
def step : Op → Heap
  | .malloc grant sz => h.got (h.toState.malloc grant sz) sz
  | .calloc grant n sz => h.got (h.toState.calloc grant n sz) (n * sz)
  | .realloc grant p sz =>
    let r := h.toState.realloc grant p sz
    if r.1 = 0 ∧ sz ≠ 0 then ⟨r.2, h.allocs⟩ else (h.drop p).got r sz
  | .free p => ⟨h.toState.free p, (h.drop p).allocs⟩
  | .store a x => { h with mem := put h.mem a x }

/-- The addresses a program may hand back: null, and those of its allocations. -/
def ValidPtr (p : ℕ) : Prop := p = 0 ∨ ∃ a ∈ h.allocs, a.1 = p

/-- **A program uses the allocator as it should**: with addresses it has been given, and sizes of
32 bits. -/
def Valid : Op → Prop
  | .malloc _ sz => sz < 2 ^ 32
  | .calloc _ n sz => n < 2 ^ 32 ∧ sz < 2 ^ 32
  | .realloc _ p sz => h.ValidPtr p ∧ sz < 2 ^ 32
  | .free p => h.ValidPtr p
  | .store a _ => ∃ b ∈ h.allocs, b.1 ≤ a ∧ a < b.1 + b.2

/-- **No request wraps.** -/
def Careful : Op → Prop
  | .malloc _ sz => h.Fits sz
  | .calloc _ n sz => n * sz < 2 ^ 32 ∧ h.Fits (n * sz)
  | .realloc _ _ sz => h.Fits sz
  | .free _ => True
  | .store _ _ => True

/-- **The end of an allocation is not cut off.** A `realloc` that stays in its place leaves too little
behind it for a block. -/
def KeepsTail : Op → Prop
  | .realloc _ p sz =>
    p ≠ 0 → sz ≠ 0 → size h.mem (State.header p) < wanted sz + minBlock
  | _ => True

instance (p : ℕ) : Decidable (h.ValidPtr p) := inferInstanceAs (Decidable (_ ∨ _))

instance (o : Op) : Decidable (h.Valid o) := by
  cases o <;> unfold Valid <;> infer_instance

instance (o : Op) : Decidable (h.KeepsTail o) := by
  cases o <;> unfold KeepsTail <;> infer_instance

instance (o : Op) : Decidable (h.Careful o) := by
  cases o <;> unfold Careful <;> infer_instance

/-- A program that has not called the allocator yet. -/
def start (m : Buf) (brk : ℕ) : Heap := ⟨⟨m, 0, 0, 0, brk⟩, []⟩

/-- **The allocations of the program are its own**: inside the heap, apart from each other and from
every header. -/
structure Safe : Prop where
  inside : ∀ a ∈ h.allocs, h.heapBase ≤ a.1 ∧ a.1 + a.2 ≤ h.heapEnd
  apart : h.allocs.Pairwise Apart
  headers : ∀ a ∈ h.allocs, ∀ x ∈ h.toState.headers, Apart a (x, hdrBytes)

variable {h}

/-- A call that gives an allocation or none. -/
theorem holds_got {as : List (ℕ × ℕ)} {r : ℕ × State} (has : h.allocs = as)
    (hr : r.1 = 0 ∧ Holds tidy r.2 as ∨ r.1 ≠ 0 ∧ Holds tidy r.2 ((r.1, n) :: as)) :
    Holds tidy (h.got r n).toState (h.got r n).allocs := by
  subst has
  unfold got
  obtain ⟨h0, hr⟩ | ⟨h0, hr⟩ := hr
  · rw [if_pos h0]
    exact hr
  · rw [if_neg h0]
    exact hr

/-- Nothing is dropped with null. -/
theorem drop_zero (hh : Holds tidy h.toState h.allocs) : h.drop 0 = h := by
  unfold drop
  rw [filter_eq_self.2 fun a ha => by simpa using hh.ptr_ne_zero (n := a.2) ha]

/-- **One call keeps what the heap holds.** -/
theorem holds_step (o : Op) (hh : Holds tidy h.toState h.allocs) (hv : h.Valid o) (hc : h.Careful o)
    (hq : tidy → h.KeepsTail o) : Holds tidy (h.step o).toState (h.step o).allocs := by
  cases o with
  | malloc grant sz => exact holds_got rfl (hh.malloc hc)
  | calloc grant n sz => exact holds_got rfl (hh.calloc hc.1 hc.2)
  | free p =>
    obtain rfl | ⟨a, ha, rfl⟩ := hv
    · show Holds tidy (h.toState.free 0) (h.drop 0).allocs
      rw [drop_zero hh]
      exact hh
    · exact (hh.perm (hh.perm_filter (n := a.2) ha)).free
  | store a x =>
    obtain ⟨b, hb, h1, h2⟩ := hv
    exact hh.write (n := b.2) hb fun k hk => put_of_ne (by omega)
  | realloc grant p sz =>
    show Holds tidy (ite _ _ _ : Heap).toState (ite _ _ _ : Heap).allocs
    obtain rfl | ⟨a, ha, rfl⟩ := hv.1
    · -- a request for a new allocation
      have hm : _ ∨ (h.toState.malloc grant sz).1 ≠ 0 ∧ _ := hh.malloc hc
      have heq : h.toState.realloc grant 0 sz = h.toState.malloc grant sz := if_pos rfl
      rw [heq, drop_zero hh]
      split
      · next h0 =>
        obtain ⟨-, hs⟩ | ⟨h1, -⟩ := hm
        · exact hs
        · exact absurd h0.1 h1
      · exact holds_got rfl hm
    · have hperm := hh.perm (hh.perm_filter (n := a.2) ha)
      by_cases hz : sz = 0
      · -- the allocation is given back
        subst hz
        have heq : h.toState.realloc grant a.1 0 = (0, h.toState.free a.1) := by
          unfold State.realloc
          rw [if_neg (hh.ptr_ne_zero (n := a.2) ha), if_pos rfl]
        rw [heq, if_neg (by simp)]
        exact holds_got rfl (.inl ⟨rfl, hperm.free⟩)
      · have hcut := fun hh' => hq hh' (hh.ptr_ne_zero (n := a.2) ha) hz
        obtain ⟨h0, hs⟩ | ⟨h0, hs⟩ := hperm.realloc hz hc hcut
        · rw [if_pos ⟨h0, hz⟩]
          exact hs.perm (hh.perm_filter (n := a.2) ha).symm
        · rw [if_neg fun hcon => h0 hcon.1]
          exact holds_got rfl (.inr ⟨h0, hs⟩)

theorem holds_start (m : Buf) {brk : ℕ} (hb : 0 < brk) :
    Holds tidy (start m brk).toState (start m brk).allocs :=
  ⟨[], ⟨rfl, rfl, fun _ => rfl, ⟨Nat.zero_le _, hb⟩, Nat.two_pow_pos 31⟩, List.Perm.nil,
    fun _ _ hb => by cases hb⟩

/-- **The allocations of a program are its own** in every state it reaches, as long as it hands back
what it was given, writes into what it has, and no request wraps. -/
theorem allocations_apart (m : Buf) (brk : ℕ) (hb : 0 < brk) (os : List Op)
    (hos : Meets (fun h o => h.Valid o ∧ h.Careful o) step (start m brk) os) :
    (os.foldl step (start m brk)).Safe := by
  have hh := Meets.invariant (P := fun h : Heap => Holds False h.toState h.allocs)
    (fun h o hh ho => holds_step o hh ho.1 ho.2 False.elim) (holds_start m hb) hos
  exact ⟨fun a ha => hh.inside (n := a.2) ha, hh.pairwise,
    fun a ha x hx => hh.apart_headers (n := a.2) ha hx⟩

/-- A program that allocates, writes, moves an allocation to a larger block and gives back the first
one. -/
theorem allocations_apart_moved :
    let os := [.malloc true 100, .calloc true 3 8, .store 4110 7, .realloc true 4220 400,
      .malloc false 9000, .free 4108]
    (os.foldl step (start zero 4096)).allocs = [(4260, 400)]
      ∧ (os.foldl step (start zero 4096)).Safe :=
  ⟨by decide +kernel, allocations_apart zero 4096 (by decide) _ (by decide +kernel)⟩

/-- **A request that wraps.** For the largest size the sum with the header is eleven, and the block
has twenty bytes; for a product of `2 ^ 32 + 4` `calloc` asks for four. -/
theorem malloc_wraps :
    ((start zero 4096).Valid (.malloc true 0xFFFFFFFF)
        ∧ ((start zero 4096).step (.malloc true 0xFFFFFFFF)).allocs = [(4108, 0xFFFFFFFF)]
        ∧ ((start zero 4096).step (.malloc true 0xFFFFFFFF)).heapEnd = 8192
        ∧ ¬((start zero 4096).step (.malloc true 0xFFFFFFFF)).Safe)
      ∧ (start zero 4096).Valid (.calloc true 0x40000001 4)
        ∧ ((start zero 4096).step (.calloc true 0x40000001 4)).allocs = [(4108, 0x100000004)]
        ∧ ¬((start zero 4096).step (.calloc true 0x40000001 4)).Safe := by
  refine ⟨⟨by decide, by decide +kernel, by decide +kernel, fun hs => ?_⟩, by decide,
    by decide +kernel, fun hs => ?_⟩
  · exact absurd (hs.inside (4108, 0xFFFFFFFF) (by decide +kernel)).2 (by decide +kernel)
  · exact absurd (hs.inside (4108, 0x100000004) (by decide +kernel)).2 (by decide +kernel)

/-! ## Nothing is lost -/

/-- Headers follow one another, by the sizes they have, up to the end. -/
def TiledBy (m : Buf) (e : ℕ) : ℕ → List ℕ → Prop
  | a, [] => a = e
  | a, x :: xs => x = a ∧ hdrBytes < size m x ∧ TiledBy m e (a + size m x) xs

/-- **Every byte of the heap is accounted for.** Blocks tile it from its base to its end, and the
free list goes through those that are marked free, in the order of their addresses. -/
def Accounted (s : State) : Prop :=
  ∃ headers frees, TiledBy s.mem s.heapEnd s.heapBase headers
    ∧ Chained (· = 0) (next s.mem) s.freeHead frees ∧ frees.Pairwise (· < ·)
    ∧ ∀ x, x ∈ frees ↔ x ∈ headers ∧ flag s.mem x ≠ 0

theorem tiledBy_of_tiles (h : Tiles m e a bs) : TiledBy m e a (bs.map Block.addr) := by
  induction bs generalizing a with
  | nil => exact h
  | cons b bs ih =>
    obtain ⟨rfl, hok, htail⟩ := h
    refine ⟨rfl, ?_, ?_⟩
    · rw [hok.size, hdrBytes]
      exact hok.le.trans_lt' (by decide)
    · rw [hok.size]
      exact ih htail

/-- A row without lost blocks. -/
theorem accounted_of_whole (h : Inv s bs) (hw : Whole bs) : Accounted s := by
  refine ⟨bs.map Block.addr, freeAddrs bs, tiledBy_of_tiles h.tiles, h.chained,
    h.tiles.pairwise.imp fun hlt => by omega, fun x => ⟨fun hx => ?_, fun hx => ?_⟩⟩
  · obtain ⟨b, hb, hfree, rfl⟩ := mem_freeAddrs.1 hx
    refine ⟨mem_map_of_mem hb, ?_⟩
    rw [(h.tiles.ok hb).free hfree]
    decide
  · obtain ⟨b, hb, rfl⟩ := mem_map.1 hx.1
    refine mem_freeAddrs.2 ⟨b, hb, ?_, rfl⟩
    cases htag : b.tag with
    | live n => exact absurd ((h.tiles.ok hb).live n htag).1 hx.2
    | free => rfl
    | lost => exact absurd htag (hw b hb)

/-- **Nothing is lost** in any state of a program whose requests do not wrap, as long as no `realloc`
cuts the end of a block off. -/
theorem all_accounted (m : Buf) (brk : ℕ) (hb : 0 < brk) (os : List Op)
    (hos : Meets (fun h o => (h.Valid o ∧ h.Careful o) ∧ h.KeepsTail o) step (start m brk) os) :
    Accounted (os.foldl step (start m brk)).toState := by
  obtain ⟨bs, hinv, -, hw⟩ := Meets.invariant (P := fun h : Heap => Holds True h.toState h.allocs)
    (fun h o hh ho => holds_step o hh ho.1.1 ho.1.2 fun _ => ho.2) (holds_start m hb) hos
  exact accounted_of_whole hinv (hw trivial)

/-- A program that moves an allocation, makes it a little smaller and gives another one back. -/
theorem all_accounted_moved :
    Accounted ([.malloc true 100, .malloc true 30, .realloc true 4108 400, .realloc true 4268 390,
      .free 4220].foldl step (start zero 4096)).toState :=
  all_accounted zero 4096 (by decide) _ (by decide +kernel)

/-- **The end of a block is lost.** An allocation of a hundred bytes is made one of eight in its
place; the eighty-eight bytes behind it are marked free, and in no list. -/
theorem realloc_loses :
    Meets (fun h o => h.Valid o ∧ h.Careful o) step (start zero 4096)
        [.malloc true 100, .realloc true 4108 8]
      ∧ ¬Accounted ([.malloc true 100, .realloc true 4108 8].foldl step
          (start zero 4096)).toState := by
  refine ⟨by decide +kernel, ?_⟩
  obtain ⟨u, hu⟩ : ∃ u, u = ([.malloc true 100, .realloc true 4108 8].foldl step
    (start zero 4096)).toState := ⟨_, rfl⟩
  have hwords : u.heapBase = 4096 ∧ u.heapEnd = 8192 ∧ u.freeHead = 4208 ∧ size u.mem 4096 = 24
      ∧ flag u.mem 4120 = 1 ∧ next u.mem 4208 = 0 := by
    rw [hu]
    decide +kernel
  obtain ⟨hbase, hend, hhead, hsize, hflag, hnext⟩ := hwords
  rw [← hu]
  rintro ⟨headers, frees, ht, hc, -, hiff⟩
  rw [hbase, hend] at ht
  rw [hhead] at hc
  -- the second header of the walk is the end that was cut off
  have hmem : 4120 ∈ headers := by
    obtain _ | ⟨x, xs⟩ := headers
    · exact absurd (show 4096 = 8192 from ht) (by decide)
    obtain ⟨rfl, -, ht⟩ := ht
    rw [hsize] at ht
    obtain _ | ⟨y, ys⟩ := xs
    · exact absurd (show 4096 + 24 = 8192 from ht) (by decide)
    rw [ht.1]
    simp
  have hfree := (hiff 4120).2 ⟨hmem, by rw [hflag]; decide⟩
  obtain _ | ⟨x, xs⟩ := frees
  · cases hfree
  obtain ⟨rfl, -, hc⟩ := hc
  rw [hnext] at hc
  obtain _ | ⟨y, ys⟩ := xs
  · exact absurd hfree (by decide)
  · exact hc.2.1 hc.1.symm

end Heap

end Malloc

end Makar
