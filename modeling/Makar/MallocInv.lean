import Makar.Malloc

/-!
# The heap of a user program is a row of blocks

What the memory of the allocator stands for, and what its functions do to that: `Inv s bs` says
that the blocks `bs` fill the heap from its base to its end, that each has its header, and that the
free list runs through the free ones among them. The functions split a block (`Inv.split`), take
one off the free list (`Inv.unlink`), put one back (`Inv.insertFree`), merge two (`Inv.absorb`) and
add one at the end (`Inv.grow`).

Sizes and marks are read off the first two words of a header and the free list off the third, so a
change of a link does not touch the row, and a change of a size does not touch the list.
-/

namespace Makar

open List

namespace Malloc

open Buf

/-- What a block is. -/
inductive Tag
  /-- An allocation, of so many bytes as were asked for. -/
  | live (n : ℕ)
  /-- A block of the free list. -/
  | free
  /-- Neither. -/
  | lost
  deriving DecidableEq, Repr

/-- A block, with its header at `addr`. -/
structure Block where
  addr : ℕ
  size : ℕ
  tag : Tag
  deriving DecidableEq, Repr

/-- **The header of a block is as it should be.** -/
structure Block.Ok (m : Buf) (b : Block) : Prop where
  size : Malloc.size m b.addr = b.size
  le : 16 ≤ b.size
  live : ∀ n, b.tag = .live n → flag m b.addr = 0 ∧ n + hdrBytes ≤ b.size
  free : b.tag = .free → flag m b.addr = 1

/-- **The blocks follow one another** from an address to the end. -/
def Tiles (m : Buf) (e : ℕ) : ℕ → List Block → Prop
  | a, [] => a = e
  | a, b :: bs => b.addr = a ∧ b.Ok m ∧ Tiles m e (a + b.size) bs

/-- The addresses of the free blocks. -/
def freeAddrs (bs : List Block) : List ℕ := (bs.filter fun b => b.tag = .free).map Block.addr

/-- The allocations among the blocks: where each begins and what was asked for. -/
def liveOf (bs : List Block) : List (ℕ × ℕ) :=
  bs.filterMap fun b =>
    match b.tag with
    | .live n => some (b.addr + hdrBytes, n)
    | _ => none

/-- No block is lost. -/
def Whole (bs : List Block) : Prop := ∀ b ∈ bs, b.tag ≠ .lost

/-- **What the memory stands for.** -/
structure Inv (s : State) (bs : List Block) : Prop where
  tiles : Tiles s.mem s.heapEnd s.heapBase bs
  chained : Chained (· = 0) (next s.mem) s.freeHead (freeAddrs bs)
  base : s.heapBase = 0 → bs = []
  brk : s.heapEnd ≤ s.brk ∧ 0 < s.brk
  lt : s.heapEnd < 2 ^ 31

variable {s : State} {m m' : Buf} {a c e x y want n : ℕ} {b d : Block} {bs l r : List Block}

/-! ## Rows of blocks -/

namespace Tiles

theorem congr (h : Tiles m e a bs)
    (hm : ∀ b ∈ bs, size m' b.addr = size m b.addr ∧ flag m' b.addr = flag m b.addr) :
    Tiles m' e a bs := by
  induction bs generalizing a with
  | nil => exact h
  | cons b bs ih =>
    obtain ⟨hsize, hflag⟩ := hm b mem_cons_self
    refine ⟨h.1, ⟨hsize.trans h.2.1.size, h.2.1.le, fun n hn => ?_,
      fun hf => hflag.trans (h.2.1.free hf)⟩, ih h.2.2 fun c hc => hm c (mem_cons_of_mem _ hc)⟩
    rw [hflag]
    exact h.2.1.live n hn

theorem append : Tiles m e a (l ++ r) ↔ ∃ c, Tiles m c a l ∧ Tiles m e c r := by
  induction l generalizing a with
  | nil => exact ⟨fun h => ⟨a, rfl, h⟩, fun ⟨c, hc, h⟩ => by rwa [show a = c from hc]⟩
  | cons b l ih =>
    constructor
    · rintro ⟨h1, h2, h3⟩
      obtain ⟨c, hl, hr⟩ := ih.1 h3
      exact ⟨c, ⟨h1, h2, hl⟩, hr⟩
    · rintro ⟨c, ⟨h1, h2, hl⟩, hr⟩
      exact ⟨h1, h2, ih.2 ⟨c, hl, hr⟩⟩

/-- Around one of the blocks. -/
theorem split_iff : Tiles m e a (l ++ b :: r)
    ↔ Tiles m b.addr a l ∧ b.Ok m ∧ Tiles m e (b.addr + b.size) r := by
  rw [append]
  constructor
  · rintro ⟨c, hl, rfl, hb, hr⟩
    exact ⟨hl, hb, hr⟩
  · rintro ⟨hl, hb, hr⟩
    exact ⟨b.addr, hl, rfl, hb, hr⟩

theorem ok (h : Tiles m e a bs) (hb : b ∈ bs) : b.Ok m := by
  obtain ⟨l, r, rfl⟩ := append_of_mem hb
  exact (split_iff.1 h).2.1

theorem le (h : Tiles m e a bs) : a ≤ e := by
  induction bs generalizing a with
  | nil => exact Nat.le_of_eq h
  | cons b bs ih =>
    have := ih h.2.2
    omega

/-- A block of the row lies inside it. -/
theorem bounds (h : Tiles m e a bs) (hb : b ∈ bs) : a ≤ b.addr ∧ b.addr + b.size ≤ e := by
  obtain ⟨l, r, rfl⟩ := append_of_mem hb
  obtain ⟨hl, -, hr⟩ := split_iff.1 h
  exact ⟨hl.le, hr.le⟩

/-- The blocks before a block end before it, and those after it begin after it. -/
theorem apart (h : Tiles m e a (l ++ b :: r)) :
    (∀ d ∈ l, d.addr + d.size ≤ b.addr) ∧ ∀ d ∈ r, b.addr + b.size ≤ d.addr := by
  obtain ⟨hl, -, hr⟩ := split_iff.1 h
  exact ⟨fun d hd => (hl.bounds hd).2, fun d hd => (hr.bounds hd).1⟩

/-- Two blocks are one, or their headers are far from each other. -/
theorem eq_or_far (h : Tiles m e a bs) (hb : b ∈ bs) (hd : d ∈ bs) :
    b = d ∨ b.addr + b.size ≤ d.addr ∨ d.addr + d.size ≤ b.addr := by
  obtain ⟨l, r, rfl⟩ := append_of_mem hb
  obtain ⟨hl, hr⟩ := h.apart
  obtain hd | hd := mem_append.1 hd
  · exact .inr (.inr (hl d hd))
  · obtain rfl | hd := mem_cons.1 hd
    · exact .inl rfl
    · exact .inr (.inl (hr d hd))

/-- A row of blocks is not longer than the heap. -/
theorem length_le (h : Tiles m e a bs) : a + bs.length ≤ e := by
  induction bs generalizing a with
  | nil => exact Nat.le_of_eq h
  | cons b bs ih =>
    have := ih h.2.2
    have := h.2.1.le
    simp only [length_cons]
    omega

end Tiles

/-! ## The free list -/

theorem freeAddrs_append (l r : List Block) : freeAddrs (l ++ r) = freeAddrs l ++ freeAddrs r := by
  simp [freeAddrs]

theorem freeAddrs_cons_free (h : b.tag = .free) (r : List Block) :
    freeAddrs (b :: r) = b.addr :: freeAddrs r := by
  simp [freeAddrs, h]

theorem freeAddrs_cons_of_ne (h : b.tag ≠ .free) (r : List Block) :
    freeAddrs (b :: r) = freeAddrs r := by
  simp [freeAddrs, h]

theorem mem_freeAddrs : x ∈ freeAddrs bs ↔ ∃ b ∈ bs, b.tag = .free ∧ b.addr = x := by
  simp [freeAddrs, and_assoc]

theorem length_freeAddrs_le (bs : List Block) : (freeAddrs bs).length ≤ bs.length := by
  unfold freeAddrs
  rw [length_map]
  exact length_filter_le ..

/-- A free list with these nodes, short enough for the walk along it to come to its end. -/
structure FreeList (s : State) (xs : List ℕ) : Prop where
  chained : Chained (· = 0) (next s.mem) s.freeHead xs
  length_lt : xs.length < s.heapEnd + 1

namespace FreeList

variable {xs ys zs : List ℕ} {p t : ℕ}

/-- **Following the free list** to the first node that is looked for. -/
theorem follow (h : FreeList s xs) (stop : ℕ → Bool) :
    (∃ x, xs.find? stop = some x ∧ s.follow stop = x)
      ∨ xs.find? stop = none ∧ s.follow stop = 0 :=
  h.chained.walkTo h.length_lt

/-- The last node of a stretch is found by what its successor is like. -/
theorem follow_last (h : FreeList s (xs ++ p :: ys)) {T : ℕ → Bool}
    (hno : ∀ y ∈ xs ++ [p], T y = false) (hT : T (next s.mem p) = true) :
    s.follow (fun x => T (next s.mem x)) = p := by
  have hfind := h.chained.find?_last hno hT
  obtain ⟨y, hy, hyp⟩ | ⟨hnone, -⟩ := h.follow fun x => T (next s.mem x)
  · rw [hfind] at hy
    rw [hyp, ← Option.some.inj hy]
  · rw [hfind] at hnone
    exact absurd hnone (by simp)

/-- A block that is not in the free list is not pointed at. -/
theorem patch_of_notMem (h : FreeList s xs) (hx : x ∉ xs) (hx0 : x ≠ 0) (t : ℕ) :
    s.patch x t = s := by
  have hhead : s.freeHead ≠ x := by
    obtain h0 | hm := h.chained.fin_or_mem
    · exact fun hh => hx0 (hh ▸ h0)
    · exact fun hh => hx (hh ▸ hm)
  have hnone : xs.find? (fun p => decide (next s.mem p = x)) = none := by
    rw [find?_eq_none]
    intro p hp hpx
    have hpx : next s.mem p = x := by simpa using hpx
    obtain hm | h0 := h.chained.nxt_mem hp
    · exact hx (hpx ▸ hm)
    · exact hx0 (hpx.symm.trans h0)
  unfold State.patch
  rw [if_neg hhead]
  obtain ⟨y, hy, -⟩ | ⟨-, h0⟩ := h.follow fun p => decide (next s.mem p = x)
  · rw [hnone] at hy
    exact absurd hy (by simp)
  · simp [h0]

/-- **What points at a block of the free list** is the head or the block before it. -/
theorem patch_cases (h : FreeList s (xs ++ x :: ys)) (t : ℕ) :
    xs = [] ∧ s.patch x t = { s with freeHead := t }
      ∨ ∃ us p, xs = us ++ [p] ∧ s.patch x t = s.poke (p + 8) t := by
  have hch := h.chained
  have hnd := hch.nodup
  rcases eq_nil_or_concat xs with rfl | ⟨us, p, rfl⟩
  · refine .inl ⟨rfl, ?_⟩
    unfold State.patch
    rw [if_pos hch.1]
  · rw [concat_eq_append] at *
    refine .inr ⟨us, p, rfl, ?_⟩
    have hne : ∀ y ∈ us ++ [p], y ≠ x := fun y hy heq =>
      (disjoint_of_nodup_append hnd) hy (heq ▸ mem_cons_self)
    rw [append_assoc] at h hch
    have hp : s.follow (fun y => decide (next s.mem y = x)) = p :=
      h.follow_last (T := fun y => decide (y = x)) (fun y hy => by simpa using hne y hy)
        (by simpa using hch.after_node.1)
    have hhead : s.freeHead ≠ x := hne _ hch.head_mem
    have hp0 : p ≠ 0 := hch.not_fin (by simp)
    unfold State.patch
    rw [if_neg hhead]
    simp only [hp]
    rw [if_pos hp0]

/-- The links of blocks that are far from the one whose link is written. -/
theorem next_poke_of_far {m : Buf} {t : ℕ} (h : p + 12 ≤ x ∨ x + 12 ≤ p) :
    next (wr32 m (p + 8) t) x = next m x :=
  rd32_wr32_of_disjoint (by omega)

/-- **The rest of the list from a block on is replaced.** The blocks are in the order of their
addresses, none in the header of another. -/
theorem patch (h : FreeList s (xs ++ x :: ys)) (hfar : (xs ++ zs).Pairwise fun p q => p + 12 ≤ q)
    (ht : t < 2 ^ 32) (hz : Chained (· = 0) (next s.mem) t zs) :
    Chained (· = 0) (next (s.patch x t).mem) (s.patch x t).freeHead (xs ++ zs) := by
  obtain ⟨rfl, heq⟩ | ⟨us, p, rfl, heq⟩ := h.patch_cases t <;> rw [heq]
  · exact hz
  · have hch := h.chained
    rw [append_assoc] at hch hfar ⊢
    have hus : ∀ y ∈ us, y + 12 ≤ p := fun y hy =>
      (pairwise_append.1 hfar).2.2 y hy p (by simp)
    have hzs : ∀ y ∈ zs, p + 12 ≤ y := fun y hy =>
      (pairwise_cons.1 (pairwise_append.1 hfar).2.1).1 y hy
    refine hch.relink (fun y hy => next_poke_of_far (.inr (hus y hy))) (rd32_wr32 ht) ?_
    exact hz.congr fun y hy => next_poke_of_far (.inl (hzs y hy))

/-- The link of a block of the list is all that is written. -/
theorem patch_mem (h : FreeList s (xs ++ x :: ys)) (t : ℕ) :
    (s.patch x t).mem = s.mem ∨ ∃ p ∈ xs, (s.patch x t).mem = wr32 s.mem (p + 8) t := by
  obtain ⟨-, heq⟩ | ⟨us, p, rfl, heq⟩ := h.patch_cases t <;> rw [heq]
  · exact .inl rfl
  · exact .inr ⟨p, by simp, rfl⟩

end FreeList

/-- Patching changes the memory and the head only. -/
theorem patch_frame (s : State) (x t : ℕ) :
    (s.patch x t).heapBase = s.heapBase ∧ (s.patch x t).heapEnd = s.heapEnd
      ∧ (s.patch x t).brk = s.brk := by
  unfold State.patch
  split
  · exact ⟨rfl, rfl, rfl⟩
  · dsimp only
    split <;> exact ⟨rfl, rfl, rfl⟩

/-! ## The links do not touch the row -/

namespace Tiles

/-- The free blocks are in the order of their addresses. -/
theorem pairwise (h : Tiles m e a bs) : (freeAddrs bs).Pairwise fun p q => p + 12 ≤ q := by
  induction bs generalizing a with
  | nil => exact List.Pairwise.nil
  | cons b bs ih =>
    by_cases hb : b.tag = .free
    · rw [freeAddrs_cons_free hb]
      refine List.Pairwise.cons (fun q hq => ?_) (ih h.2.2)
      obtain ⟨d, hd, -, rfl⟩ := mem_freeAddrs.1 hq
      have := (h.2.2.bounds hd).1
      have := h.2.1.le
      have := h.1
      omega
    · rw [freeAddrs_cons_of_ne hb]
      exact ih h.2.2

/-- What a block is called does not matter to the row, as long as its header allows it. -/
theorem retag {t : Tag} (h : Tiles m e a (l ++ b :: r))
    (ht : ∀ n, t = .live n → flag m b.addr = 0 ∧ n + hdrBytes ≤ b.size)
    (htf : t = .free → flag m b.addr = 1) :
    Tiles m e a (l ++ { b with tag := t } :: r) := by
  obtain ⟨hl, hok, hr⟩ := split_iff.1 h
  exact split_iff.2 ⟨hl, ⟨hok.size, hok.le, ht, htf⟩, hr⟩

/-- The link of one of the blocks is written. -/
theorem poke_link (h : Tiles m e a bs) (hd : d ∈ bs) (t : ℕ) :
    Tiles (wr32 m (d.addr + 8) t) e a bs := by
  refine h.congr fun b hb => ?_
  have hb16 := (h.ok hb).le
  have hd16 := (h.ok hd).le
  have hfar : b.addr = d.addr ∨ b.addr + 16 ≤ d.addr ∨ d.addr + 16 ≤ b.addr := by
    obtain rfl | hf | hf := h.eq_or_far hb hd
    · exact .inl rfl
    · exact .inr (.inl (by omega))
    · exact .inr (.inr (by omega))
  exact ⟨rd32_wr32_of_disjoint (by omega), rd32_wr32_of_disjoint (by omega)⟩

/-- Links of free blocks are written. -/
theorem patch {s : State} {xs ys : List ℕ} {t : ℕ} (h : Tiles s.mem e a bs)
    (hf : FreeList s (xs ++ x :: ys)) (hxs : ∀ p ∈ xs, p ∈ freeAddrs bs) :
    Tiles (s.patch x t).mem e a bs := by
  obtain heq | ⟨p, hp, heq⟩ := hf.patch_mem t <;> rw [heq]
  · exact h
  · obtain ⟨d, hd, -, rfl⟩ := mem_freeAddrs.1 (hxs p hp)
    exact h.poke_link hd t

end Tiles

/-! ## What the functions do to the row -/

namespace Inv

theorem freeList (h : Inv s bs) : FreeList s (freeAddrs bs) := by
  refine ⟨h.chained, ?_⟩
  have h1 := length_freeAddrs_le bs
  have h2 := h.tiles.length_le
  omega

theorem addr_ne_zero (h : Inv s bs) (hb : b ∈ bs) : b.addr ≠ 0 := by
  have h1 := (h.tiles.bounds hb).1
  have h2 : s.heapBase ≠ 0 := fun h0 => by
    rw [h.base h0] at hb
    exact absurd hb not_mem_nil
  omega

section

variable (h : Inv s (l ++ b :: r))
include h

theorem block : b.Ok s.mem ∧ b.addr + b.size ≤ s.heapEnd ∧ s.heapEnd < 2 ^ 31 := by
  have hmem : b ∈ l ++ b :: r := by simp
  exact ⟨h.tiles.ok hmem, (h.tiles.bounds hmem).2, h.lt⟩

/-- A block of the row that is not free is not in the list. -/
theorem notMem_freeAddrs (hb : b.tag ≠ .free) : b.addr ∉ freeAddrs (l ++ b :: r) := by
  intro hmem
  obtain ⟨d, hd, hfree, haddr⟩ := mem_freeAddrs.1 hmem
  have hb16 := h.block.1.le
  have hd16 := (h.tiles.ok hd).le
  obtain rfl | hf | hf := h.tiles.eq_or_far hd (by simp : b ∈ l ++ b :: r)
  · exact hb hfree
  · omega
  · omega

/-- **A block leaves the free list.** -/
theorem unlink (hb : b.tag = .free) :
    Inv (s.unlinkFree b.addr) (l ++ { b with tag := .lost } :: r) := by
  have hf := h.freeList
  have hpw := h.tiles.pairwise
  rw [freeAddrs_append, freeAddrs_cons_free hb] at hf hpw
  have hrest := hf.chained.after_node
  obtain ⟨h1, h2, h3⟩ := patch_frame s b.addr (next s.mem b.addr)
  unfold State.unlinkFree
  refine ⟨?_, ?_, fun h0 => ?_, by rw [h2, h3]; exact h.brk, by rw [h2]; exact h.lt⟩
  · rw [h1, h2]
    refine (h.tiles.retag (t := .lost) (by simp) (by simp)).patch hf fun p hp => ?_
    rw [freeAddrs_append]
    exact mem_append_left _ hp
  · rw [freeAddrs_append, freeAddrs_cons_of_ne (by simp)]
    refine hf.patch ?_ (rd32_lt _ _) hrest
    exact hpw.sublist (List.Sublist.append_left (sublist_cons_self ..) _)
  · rw [h1] at h0
    exact absurd (h.base h0) (by simp)

/-- A block that is not in the free list does not leave it. -/
theorem unlink_of_ne (hb : b.tag ≠ .free) : s.unlinkFree b.addr = s :=
  h.freeList.patch_of_notMem (h.notMem_freeAddrs hb) (h.addr_ne_zero (by simp)) _

/-- What is written inside a block does not touch the other blocks. -/
theorem inside (hm : ∀ k, k < b.addr ∨ b.addr + b.size ≤ k → m' k = s.mem k) :
    Tiles m' b.addr s.heapBase l ∧ Tiles m' s.heapEnd (b.addr + b.size) r
      ∧ ∀ x ∈ freeAddrs l ++ freeAddrs r, next m' x = next s.mem x := by
  obtain ⟨hl, -, hr⟩ := Tiles.split_iff.1 h.tiles
  obtain ⟨hlow, hhigh⟩ := h.tiles.apart
  have hword : ∀ x k, (x + k + 4 ≤ b.addr ∨ b.addr + b.size ≤ x + k) →
      rd32 m' (x + k) = rd32 s.mem (x + k) := fun x k hx =>
    rd32_congr fun j _ _ => hm j (by omega)
  have hleft : ∀ d ∈ l, d.addr + 16 ≤ b.addr := fun d hd => by
    have := hlow d hd
    have := (hl.ok hd).le
    omega
  refine ⟨hl.congr fun d hd => ?_, hr.congr fun d hd => ?_, fun x hx => ?_⟩
  · have := hleft d hd
    exact ⟨hword d.addr 0 (by omega), hword d.addr 4 (by omega)⟩
  · have := hhigh d hd
    exact ⟨hword d.addr 0 (by omega), hword d.addr 4 (by omega)⟩
  · obtain hx | hx := mem_append.1 hx
    · obtain ⟨d, hd, -, rfl⟩ := mem_freeAddrs.1 hx
      have := hleft d hd
      exact hword d.addr 8 (by omega)
    · obtain ⟨d, hd, -, rfl⟩ := mem_freeAddrs.1 hx
      have := hhigh d hd
      exact hword d.addr 8 (by omega)

/-- **A block that is not free is written to**: it becomes the blocks that then fill its place, none
of them free. -/
theorem rewrite (hb : b.tag ≠ .free) (hm : ∀ k, k < b.addr ∨ b.addr + b.size ≤ k → m' k = s.mem k)
    {cs : List Block} (hcs : Tiles m' (b.addr + b.size) b.addr cs) (hnone : freeAddrs cs = []) :
    Inv { s with mem := m' } (l ++ cs ++ r) := by
  obtain ⟨hl, hr, hnext⟩ := h.inside hm
  have hch := h.chained
  rw [freeAddrs_append, freeAddrs_cons_of_ne hb] at hch
  refine ⟨Tiles.append.2 ⟨_, Tiles.append.2 ⟨_, hl, hcs⟩, hr⟩, ?_,
    fun h0 => absurd (h.base h0) (by simp), h.brk, h.lt⟩
  rw [freeAddrs_append, freeAddrs_append, hnone, append_nil]
  exact hch.congr hnext

/-- **A block that is in no list becomes an allocation, or is none any more.** -/
theorem retag {tag : Tag} {v : ℕ} (hb : b.tag ≠ .free) (htag : tag ≠ .free)
    (hlive : ∀ n, tag = .live n → v = 0 ∧ n + hdrBytes ≤ b.size) :
    Inv (s.poke (b.addr + 4) v) (l ++ { b with tag := tag } :: r) := by
  have hok := h.block.1
  have hb16 := hok.le
  have hnew : Tiles (wr32 s.mem (b.addr + 4) v) (b.addr + b.size) b.addr
      [{ b with tag := tag }] := by
    have hsize : size (wr32 s.mem (b.addr + 4) v) b.addr = size s.mem b.addr :=
      rd32_wr32_of_disjoint (by omega)
    refine ⟨rfl, ⟨hsize.trans hok.size, hok.le, fun k hk => ?_, fun hk => absurd hk htag⟩, rfl⟩
    obtain ⟨rfl, hn⟩ := hlive k hk
    exact ⟨rd32_wr32 (by decide), hn⟩
  have := h.rewrite hb (fun k hk => wr32_of_notMem (by omega)) hnew (by simp [freeAddrs, htag])
  rwa [append_assoc] at this

theorem claim (hb : b.tag = .lost) (hn : n + hdrBytes ≤ b.size) :
    Inv (s.poke (b.addr + 4) 0) (l ++ { b with tag := .live n } :: r) :=
  h.retag (by simp [hb]) (by simp) fun k hk => ⟨rfl, by injection hk with hk; exact hk ▸ hn⟩

end

/-- The words of the header of a block that is cut off, and the new size of the one it is cut off
from. -/
theorem cut_words (m : Buf) (t : ℕ) (hx : x < 2 ^ 32) (hy : y < 2 ^ 32) (hfar : c + 16 ≤ t)
    (m' : Buf) (hm' : m' = wr32 (wr32 (wr32 (wr32 m t x) (t + 4) 1) (t + 8) (next m c)) c y) :
    size m' t = x ∧ flag m' t = 1 ∧ next m' t = next m c ∧ size m' c = y ∧ flag m' c = flag m c
      ∧ next m' c = next m c := by
  subst hm'
  unfold size flag next
  refine ⟨?_, ?_, ?_, rd32_wr32 hy, ?_, ?_⟩
  · rw [rd32_wr32_of_disjoint (by omega), rd32_wr32_of_disjoint (by omega),
      rd32_wr32_of_disjoint (by omega), rd32_wr32 hx]
  · rw [rd32_wr32_of_disjoint (by omega), rd32_wr32_of_disjoint (by omega), rd32_wr32 (by decide)]
  · rw [rd32_wr32_of_disjoint (by omega), rd32_wr32 (rd32_lt _ _)]
  · simp (disch := omega) only [rd32_wr32_of_disjoint]
  · simp (disch := omega) only [rd32_wr32_of_disjoint]

/-- The memory with the end of a block cut off, before the list is patched. -/
def cutMem (m : Buf) (b want : ℕ) (n : ℕ) : Buf :=
  wr32 (wr32 (wr32 (wr32 m (b + want) (n - want)) (b + want + 4) 1) (b + want + 8) (next m b)) b want

section

variable (h : Inv s (l ++ b :: r)) (h16 : 16 ≤ want) (hsz : want + minBlock ≤ b.size)
include h h16 hsz

/-- What `split_block` does to a block of the row that is large enough. -/
theorem splitBlock_eq :
    s.splitBlock b.addr want
      = ({ s with mem := cutMem s.mem b.addr want b.size } : State).patch b.addr
          (b.addr + want) := by
  obtain ⟨hok, hend, hlt⟩ := h.block
  unfold minBlock hdrBytes at hsz
  unfold State.splitBlock
  rw [hok.size, Nat.mod_eq_of_lt (show want + minBlock < 2 ^ 32 by unfold minBlock hdrBytes; omega),
    if_neg (show ¬b.size < want + minBlock by unfold minBlock hdrBytes; omega)]
  have h1 : (b.addr + want) % 2 ^ 32 = b.addr + want := Nat.mod_eq_of_lt (by omega)
  have h2 : (b.size + 2 ^ 32 - want) % 2 ^ 32 = b.size - want := by omega
  have h3 : next (wr32 (wr32 s.mem (b.addr + want) (b.size - want)) (b.addr + want + 4) 1) b.addr
      = next s.mem b.addr := by
    unfold next
    rw [rd32_wr32_of_disjoint (by omega), rd32_wr32_of_disjoint (by omega)]
  simp only [State.poke, h1, h2, h3, cutMem]

/-- The two blocks a block is cut into. -/
theorem tiles_cutMem {t : Tag} (htf : t ≠ .free)
    (ht : ∀ n, t = .live n → flag s.mem b.addr = 0 ∧ n + hdrBytes ≤ want) {t' : Tag}
    (ht' : ∀ n, t' ≠ .live n) :
    Tiles (cutMem s.mem b.addr want b.size) (b.addr + b.size) b.addr
      [⟨b.addr, want, t⟩, ⟨b.addr + want, b.size - want, t'⟩] := by
  obtain ⟨-, hend, hlt⟩ := h.block
  unfold minBlock hdrBytes at hsz
  obtain ⟨h1, h2, -, h4, h5, -⟩ := cut_words s.mem (b.addr + want) (x := b.size - want) (y := want)
    (c := b.addr) (by omega) (by omega) (by omega) _ rfl
  refine ⟨rfl, ⟨h4, h16, fun n hn => ?_, fun hf => absurd hf htf⟩, rfl,
    ⟨h1, ?_, fun n hn => absurd hn (ht' n), fun _ => h2⟩, ?_⟩
  · obtain ⟨hf, hle⟩ := ht n hn
    exact ⟨h5.trans hf, hle⟩
  · show 16 ≤ b.size - want
    omega
  · show b.addr + want + (b.size - want) = b.addr + b.size
    omega

end

theorem cutMem_of_notMem (hsz : want + minBlock ≤ b.size) {k : ℕ}
    (hk : k < b.addr ∨ b.addr + b.size ≤ k) : cutMem m b.addr want b.size k = m k := by
  unfold minBlock hdrBytes at hsz
  unfold cutMem
  rw [wr32_of_notMem (by omega), wr32_of_notMem (by omega), wr32_of_notMem (by omega),
    wr32_of_notMem (by omega)]

section

variable (h : Inv s (l ++ b :: r))
include h

/-- **The end of a block that is not free is cut off**, and lost. -/
theorem cut (hb : b.tag ≠ .free) (h16 : 16 ≤ want) (hsz : want + minBlock ≤ b.size) {t : Tag}
    (htf : t ≠ .free) (ht : ∀ n, t = .live n → flag s.mem b.addr = 0 ∧ n + hdrBytes ≤ want) :
    Inv (s.splitBlock b.addr want)
      (l ++ [⟨b.addr, want, t⟩, ⟨b.addr + want, b.size - want, .lost⟩] ++ r) := by
  have hnew := h.tiles_cutMem h16 hsz htf ht (show ∀ n, Tag.lost ≠ .live n by simp)
  have hinv := h.rewrite hb (fun k hk => cutMem_of_notMem hsz hk) hnew
    (by simp [freeAddrs, htf])
  rw [h.splitBlock_eq h16 hsz]
  have hnot : b.addr ∉ freeAddrs (l ++ [⟨b.addr, want, t⟩, ⟨b.addr + want, b.size - want, .lost⟩]
      ++ r) := by
    have := h.notMem_freeAddrs hb
    rw [freeAddrs_append, freeAddrs_cons_of_ne hb] at this
    rw [freeAddrs_append, freeAddrs_append]
    simpa [freeAddrs, htf] using this
  rw [hinv.freeList.patch_of_notMem hnot (h.addr_ne_zero (by simp))]
  exact hinv

/-- **A free block is split**: its end takes its place in the list. -/
theorem split (hb : b.tag = .free) (h16 : 16 ≤ want) (hsz : want + minBlock ≤ b.size) :
    Inv (s.splitBlock b.addr want)
      (l ++ ⟨b.addr, want, .lost⟩ :: ⟨b.addr + want, b.size - want, .free⟩ :: r) := by
  have hnew := h.tiles_cutMem h16 hsz (t := .lost) (by simp) (by simp)
    (show ∀ n, Tag.free ≠ .live n by simp)
  obtain ⟨hl, hr, hnext⟩ := h.inside (show ∀ k, _ → cutMem s.mem b.addr want b.size k = s.mem k from
    fun k hk => cutMem_of_notMem hsz hk)
  obtain ⟨-, hend, hlt⟩ := h.block
  have hsz' := hsz
  unfold minBlock hdrBytes at hsz'
  obtain ⟨-, -, h3, -, -, h6⟩ := cut_words s.mem (b.addr + want) (x := b.size - want) (y := want)
    (c := b.addr) (by omega) (by omega) (by omega) _ rfl
  have hf := h.freeList
  rw [freeAddrs_append, freeAddrs_cons_free hb] at hf
  -- the list before it is patched
  let u : State := { s with mem := cutMem s.mem b.addr want b.size }
  have hu : FreeList u (freeAddrs l ++ b.addr :: freeAddrs r) := by
    refine ⟨hf.chained.congr fun x hx => ?_, hf.length_lt⟩
    obtain hx | hx := mem_append.1 hx
    · exact hnext x (mem_append_left _ hx)
    · obtain rfl | hx := mem_cons.1 hx
      · exact h6
      · exact hnext x (mem_append_right _ hx)
  have htiles : Tiles u.mem s.heapEnd s.heapBase
      (l ++ ⟨b.addr, want, .lost⟩ :: ⟨b.addr + want, b.size - want, .free⟩ :: r) :=
    Tiles.append.2 ⟨_, hl, Tiles.append (l := [_, _]).2 ⟨_, hnew, hr⟩⟩
  have hrest : Chained (· = 0) (next u.mem) (b.addr + want) ((b.addr + want) :: freeAddrs r) := by
    refine ⟨rfl, by omega, ?_⟩
    rw [show next u.mem (b.addr + want) = next s.mem b.addr from h3]
    exact hf.chained.after_node.congr fun x hx => hnext x (mem_append_right _ hx)
  obtain ⟨h1, h2, h3⟩ := patch_frame u b.addr (b.addr + want)
  rw [h.splitBlock_eq h16 hsz]
  refine ⟨?_, ?_, fun h0 => ?_, by rw [h2, h3]; exact h.brk, by rw [h2]; exact h.lt⟩
  · rw [h1, h2]
    refine htiles.patch hu fun p hp => ?_
    rw [freeAddrs_append]
    exact mem_append_left _ hp
  · have hpw := htiles.pairwise
    rw [freeAddrs_append, freeAddrs_cons_of_ne (by simp), freeAddrs_cons_free rfl] at hpw ⊢
    exact hu.patch hpw (by omega) hrest
  · rw [h1] at h0
    exact absurd (h.base h0) (by simp)

/-- **A block goes to the free list.** -/
theorem insertFree (hb : b.tag = .lost) (hflag : flag s.mem b.addr = 1) :
    Inv (s.insertFree b.addr) (l ++ { b with tag := .free } :: r) := by
  obtain ⟨hok, hend, hlt⟩ := h.block
  have hb16 := hok.le
  have hb0 := h.addr_ne_zero (show b ∈ l ++ b :: r by simp)
  have hch := h.chained
  have hfl := h.freeList
  rw [freeAddrs_append, freeAddrs_cons_of_ne (by simp [hb])] at hch hfl
  obtain ⟨hlow, hhigh⟩ := h.tiles.apart
  have hleft : ∀ x ∈ freeAddrs l, x + 16 ≤ b.addr := fun x hx => by
    obtain ⟨d, hd, -, rfl⟩ := mem_freeAddrs.1 hx
    have := hlow d hd
    have := (h.tiles.ok (mem_append_left _ hd)).le
    omega
  have hright : ∀ x ∈ freeAddrs r, b.addr + 16 ≤ x := fun x hx => by
    obtain ⟨d, hd, -, rfl⟩ := mem_freeAddrs.1 hx
    have := hhigh d hd
    omega
  have hkeep : ∀ t, ∀ x ∈ freeAddrs l ++ freeAddrs r,
      next (wr32 s.mem (b.addr + 8) t) x = next s.mem x := by
    intro t x hx
    refine FreeList.next_poke_of_far ?_
    rcases mem_append.1 hx with hx | hx
    · have := hleft x hx
      omega
    · have := hright x hx
      omega
  have hafter : ∀ x, x = 0 ∨ x ∈ freeAddrs r → x = 0 ∨ b.addr < x := fun x hx =>
    hx.imp_right fun hx => by
      have := hright x hx
      omega
  have hretag := h.tiles.retag (t := .free) (by simp) fun _ => hflag
  have hmem' : ({ b with tag := .free } : Block) ∈ l ++ { b with tag := .free } :: r := by simp
  unfold State.insertFree
  rcases eq_nil_or_concat (freeAddrs l) with hnil | ⟨us, p, hus⟩
  · -- the block becomes the head
    rw [hnil, nil_append] at hch hkeep
    have hlink : next (wr32 s.mem (b.addr + 8) s.freeHead) b.addr = s.freeHead := by
      refine rd32_wr32 ?_
      obtain h0 | hin := hch.fin_or_mem
      · rw [h0]
        decide
      · obtain ⟨d, hd, -, hda⟩ := mem_freeAddrs.1 hin
        have := (h.tiles.bounds (b := d) (by simp [hd])).2
        omega
    rw [if_pos (hafter _ hch.fin_or_mem)]
    refine ⟨hretag.poke_link hmem' _, ?_, fun h0 => absurd (h.base h0) (by simp), h.brk, h.lt⟩
    rw [freeAddrs_append, freeAddrs_cons_free rfl, hnil]
    refine ⟨rfl, hb0, ?_⟩
    show Chained _ (next (wr32 s.mem (b.addr + 8) s.freeHead))
      (next (wr32 s.mem (b.addr + 8) s.freeHead) b.addr) _
    rw [hlink]
    exact hch.congr (hkeep _)
  · -- the block goes behind the last one before it
    rw [concat_eq_append] at hus
    have hpl : p ∈ freeAddrs l := by simp [hus]
    have hbefore : ∀ x ∈ freeAddrs l, x ≠ 0 ∧ x < b.addr := fun x hx =>
      ⟨hch.not_fin (mem_append_left _ hx), by have := hleft x hx; omega⟩
    rw [hus, append_assoc] at hch hfl hkeep
    have hhead : ¬(s.freeHead = 0 ∨ b.addr < s.freeHead) := by
      have := hbefore _ (hus ▸ hch.head_mem)
      omega
    have hfollow : s.follow (fun x => decide (next s.mem x = 0 ∨ ¬next s.mem x < b.addr)) = p := by
      refine hfl.follow_last (T := fun y => decide (y = 0 ∨ ¬y < b.addr)) (fun y hy => ?_) ?_
      · have := hbefore y (hus ▸ hy)
        rw [decide_eq_false_iff_not]
        omega
      · have := hafter _ hch.after_node.fin_or_mem
        rw [decide_eq_true_iff]
        omega
    rw [if_neg hhead]
    simp only [hfollow]
    obtain ⟨d, hd, hdf, rfl⟩ := mem_freeAddrs.1 hpl
    have hdb := hleft _ hpl
    have htiles := (hretag.poke_link hmem' (next s.mem d.addr)).poke_link
      (d := d) (by simp [hd]) b.addr
    refine ⟨htiles, ?_, fun h0 => absurd (h.base h0) (by simp), h.brk, h.lt⟩
    have hpw := h.tiles.pairwise
    rw [freeAddrs_append, hus, append_assoc] at hpw
    rw [freeAddrs_append, freeAddrs_cons_free rfl, hus, append_assoc]
    refine (hch.congr (hkeep (next s.mem d.addr))).relink
      (fun y hy => FreeList.next_poke_of_far (.inr ?_)) (z := b.addr) (rd32_wr32 (by omega))
      ⟨rfl, hb0, ?_⟩
    · exact (pairwise_append.1 hpw).2.2 y hy _ (by simp)
    · have hlink : next (wr32 (wr32 s.mem (b.addr + 8) (next s.mem d.addr)) (d.addr + 8) b.addr)
          b.addr = next s.mem d.addr :=
        (FreeList.next_poke_of_far (.inl (by omega))).trans (rd32_wr32 (rd32_lt _ _))
      simp only [State.poke, hlink]
      refine hch.after_node.congr fun x hx => ?_
      have := hright x hx
      exact (FreeList.next_poke_of_far (.inl (by omega))).trans (hkeep _ x
        (mem_append_right _ (mem_cons_of_mem _ hx)))

/-- **A free block takes in the next one** when the two touch. The other blocks stay. -/
theorem absorb (hb : b.tag = .free) (hnext : next s.mem b.addr ≠ 0) :
    ∃ sz r', Inv (s.absorb b.addr) (l ++ ⟨b.addr, sz, .free⟩ :: r') ∧ liveOf r' = liveOf r
      ∧ r'.Sublist r := by
  obtain ⟨hok, hend, hlt⟩ := h.block
  have hch := h.chained
  rw [freeAddrs_append, freeAddrs_cons_free hb] at hch
  unfold State.absorb
  rw [hok.size, Nat.mod_eq_of_lt (by omega)]
  by_cases htouch : b.addr + b.size = next s.mem b.addr
  · -- the block that is touched is the next one of the row
    obtain ⟨d, hd, hdf, hda⟩ := mem_freeAddrs.1 (hch.after_node.fin_or_mem.resolve_left hnext)
    obtain ⟨-, -, hr⟩ := Tiles.split_iff.1 h.tiles
    obtain _ | ⟨d', r'⟩ := r
    · exact absurd hd not_mem_nil
    obtain rfl : d = d' := by
      have h1 := (hr.ok hd).le
      have h2 := (hr.ok (mem_cons_self (a := d') (l := r'))).le
      have h3 := hr.1
      obtain heq | hf | hf := hr.eq_or_far hd (mem_cons_self (a := d') (l := r'))
      · exact heq
      · omega
      · omega
    have hdok := hr.2.1
    have hdend := (hr.bounds (mem_cons_self (a := d) (l := r'))).2
    have hb16 := hok.le
    rw [if_pos htouch, ← hda]
    refine ⟨b.size + d.size, r', ?_, by simp [liveOf, hdf], sublist_cons_self ..⟩
    have hsum : (b.size + size s.mem d.addr) % 2 ^ 32 = b.size + d.size := by
      rw [hdok.size]
      omega
    simp only [State.poke, hsum]
    have hkeep : next (wr32 s.mem b.addr (b.size + d.size)) d.addr = next s.mem d.addr :=
      rd32_wr32_of_disjoint (by omega)
    rw [hkeep]
    obtain ⟨hl, hr2, hn⟩ := h.inside (show ∀ k, _ →
      wr32 (wr32 s.mem b.addr (b.size + d.size)) (b.addr + 8) (next s.mem d.addr) k = s.mem k from
      fun k hk => by rw [wr32_of_notMem (by omega), wr32_of_notMem (by omega)])
    refine ⟨Tiles.split_iff.2 ⟨hl, ⟨?_, ?_, by simp, fun _ => ?_⟩, ?_⟩, ?_,
      fun h0 => absurd (h.base h0) (by simp), h.brk, h.lt⟩
    · show rd32 (wr32 (wr32 s.mem b.addr _) (b.addr + 8) _) b.addr = b.size + d.size
      rw [rd32_wr32_of_disjoint (by omega), rd32_wr32 (by omega)]
    · show 16 ≤ b.size + d.size
      omega
    · show rd32 (wr32 (wr32 s.mem b.addr _) (b.addr + 8) _) (b.addr + 4) = 1
      rw [rd32_wr32_of_disjoint (by omega), rd32_wr32_of_disjoint (by omega)]
      exact hok.free hb
    · have := hr2.2.2
      rwa [Nat.add_assoc] at this
    · rw [freeAddrs_append, freeAddrs_cons_free rfl]
      rw [freeAddrs_cons_free hdf] at hch hn
      refine hch.relink (fun y hy => hn y (mem_append_left _ hy)) (z := next s.mem d.addr)
        (rd32_wr32 (rd32_lt _ _)) ?_
      refine hch.after_node.2.2.congr fun y hy => hn y ?_
      exact mem_append_right _ (mem_cons_of_mem _ hy)
  · rw [if_neg htouch]
    refine ⟨b.size, r, ?_, rfl, List.Sublist.refl r⟩
    rwa [← hb]

end

end Inv

end Malloc

end Makar
