import Makar.HeapClient

/-!
# What the heap does to bytes

`HeapClient` follows the chain of headers; this module adds the bytes. The
headers lie in the memory they describe: a split writes a header into the data
of the free block it cuts, `kfree` writes into the header of the block it frees,
and `krealloc` copies the data of a block that has to move. What a client cares
for is that none of these writes falls into the data of a block in use.

The state is the chain together with the bytes of the window. Clients write into
their blocks between any two calls, so the bytes before a call are arbitrary, and
the chain is one that a history of calls leads to. Any size may be asked for in
the history, also one that the rounding of `kmalloc` wraps around to zero. The
blocks in use are the live ones.
-/

namespace Makar

open List Option Heap

namespace Heap

variable {h : Heap} {b d : HeapBlock} {n p : ℕ}

/-! ## Histories -/

/-- One call, as far as the chain goes. -/
def call (h : Heap) : HeapClient.Request → Heap
  | .kmalloc size => (h.kmalloc size).2
  | .kfree ptr => h.kfree ptr
  | .krealloc ptr size => (h.krealloc ptr size).2

/-- The pointer is null or the data of a block in use. -/
def Holds (h : Heap) (ptr : ℕ) : Prop :=
  ptr = 0 ∨ ∃ b ∈ h, b.isFree = false ∧ b.addr + blockHdrSize = ptr

instance (h : Heap) (ptr : ℕ) : Decidable (h.Holds ptr) := inferInstanceAs (Decidable (_ ∨ _))

/-- **A call that a client may make**: any size, and a pointer it holds. -/
def Callable (h : Heap) : HeapClient.Request → Prop
  | .kmalloc _ => True
  | .kfree ptr => h.Holds ptr
  | .krealloc ptr _ => h.Holds ptr

instance (h : Heap) : (r : HeapClient.Request) → Decidable (h.Callable r)
  | .kmalloc _ => .isTrue trivial
  | .kfree _ | .krealloc _ _ => inferInstanceAs (Decidable (h.Holds _))

/-- **What holds after every history**: the blocks tile the window, and the data
of each starts inside it, so that `kfree` takes every pointer. -/
structure Sound (h : Heap) : Prop where
  /-- The blocks tile the window. -/
  tiles : TilesFrom heapStart h
  /-- No header ends at the end of the window. -/
  starts : ∀ b ∈ h, b.addr + blockHdrSize < heapMax

theorem sound_heapInit : Sound heapInit := ⟨tilesFrom_heapInit, by decide⟩

/-- The pieces of a free block start in it, and end before it does. -/
theorem mem_carve (hd : d ∈ carve n b) (hfit : n ≤ b.size) (hsize : b.size < 2 ^ 31) :
    d.addr = b.addr ∨ d.addr + blockHdrSize < b.addr + blockHdrSize + b.size := by
  unfold carve at hd
  split_ifs at hd with hsplit
  · unfold blockHdrSize splitMin at *
    rcases mem_pair.1 hd with rfl | rfl
    · exact .inl rfl
    · right
      dsimp only
      omega
  · rw [mem_singleton.1 hd]
    exact .inl rfl

section

variable (hs : h.Sound)
include hs

theorem Sound.size_lt (hb : b ∈ h) : b.size < 2 ^ 31 := by
  have := (hs.tiles.bounds hb).2
  unfold heapMax at this
  omega

theorem Sound.kmalloc (size : ℕ) : (h.kmalloc size).2.Sound := by
  refine ⟨hs.tiles.kmalloc size, ?_⟩
  rcases kmalloc_cases size h with heq | ⟨pre, b, post, -, rfl, -, hfit, heq⟩ <;> rw [heq]
  · exact hs.starts
  intro d hd
  have hb : b ∈ pre ++ b :: post := by simp
  simp only [mem_append] at hd
  rcases hd with hd | hd | hd
  · exact hs.starts d (by simp [hd])
  · have hstart := hs.starts b hb
    have hend := (hs.tiles.bounds hb).2
    rcases mem_carve hd hfit (hs.size_lt hb) with heq | hlt
    · rwa [heq]
    · exact hlt.trans_le hend
  · exact hs.starts d (by simp [hd])

/-- The pointer of a block is taken by `kfree`. -/
theorem Sound.kfree_eq (hb : b ∈ h) :
    h.kfree (b.addr + blockHdrSize) = h.freeAt b.addr := kfree_of_mem hs.tiles hb (hs.starts b hb)

/-- What stays of the chain when a block is freed. -/
theorem Sound.mem_kfree (hb : b ∈ h) (hd : d ∈ h.kfree (b.addr + blockHdrSize)) :
    d ∈ h ∧ d ≠ b ∨ d.addr = b.addr ∧ d.isFree = true := by
  obtain ⟨pre, n, gone, rest, heq, -, hfree, -⟩ := kfree_split hs.tiles (Nat.le_refl _) hb
  rw [hs.kfree_eq hb, hfree] at hd
  have hne : ∀ c ∈ pre ++ rest, c ∈ h ∧ c ≠ b := by
    intro c hc
    refine ⟨by rw [heq]; simp only [mem_append, mem_cons] at hc ⊢; tauto, ?_⟩
    rintro rfl
    have hpair := heq ▸ hs.tiles.pairwise
    obtain ⟨-, htail, hpre⟩ := pairwise_append.1 hpair
    have hlt : ∀ x y : ℕ, ¬ x + blockHdrSize + y ≤ x := fun x y => by
      unfold blockHdrSize
      omega
    rcases mem_append.1 hc with hc | hc
    · exact hlt _ _ (hpre c hc c mem_cons_self)
    · exact hlt _ _ ((pairwise_cons.1 htail).1 c (mem_append_right gone hc))
  simp only [mem_append, mem_cons] at hd
  rcases hd with hd | rfl | hd
  · exact .inl (hne d (mem_append_left _ hd))
  · exact .inr ⟨rfl, rfl⟩
  · exact .inl (hne d (mem_append_right _ hd))

/-- A block in use outlives the freeing of another. -/
theorem Sound.kept_kfree (hb : b ∈ h) (hd : d ∈ h) (hused : d.isFree = false) (hne : d ≠ b) :
    d ∈ h.kfree (b.addr + blockHdrSize) := by
  obtain ⟨pre, n, gone, rest, heq, hgone, hfree, -⟩ := kfree_split hs.tiles (Nat.le_refl _) hb
  rw [hs.kfree_eq hb, hfree]
  have hdgone : d ∉ gone := by
    intro hmem
    rw [hgone d hmem] at hused
    cases hused
  have hd : d ∈ pre ++ b :: (gone ++ rest) := heq ▸ hd
  simp only [mem_append, mem_cons, hne, hdgone, false_or] at hd ⊢
  exact hd.imp_right .inr

theorem Sound.kfree (hp : h.Holds p) : (h.kfree p).Sound := by
  refine ⟨hs.tiles.kfree p, fun d hd => ?_⟩
  rcases hp with rfl | ⟨b, hb, -, rfl⟩
  · exact hs.starts d hd
  · rcases hs.mem_kfree hb hd with ⟨hd, -⟩ | ⟨haddr, -⟩
    · exact hs.starts d hd
    · rw [haddr]
      exact hs.starts b hb

end

/-- A block in use outlives a `kmalloc`. -/
theorem kept_kmalloc (hd : d ∈ h) (hused : d.isFree = false) (size : ℕ) :
    d ∈ (h.kmalloc size).2 := by
  rcases kmalloc_cases size h with heq | ⟨pre, b, post, -, rfl, hfree, -, heq⟩ <;> rw [heq]
  · exact hd
  · have hne : d ≠ b := by
      rintro rfl
      rw [hfree] at hused
      cases hused
    simp only [mem_append, mem_cons, hne, false_or] at hd ⊢
    exact hd.imp_right .inr

/-- The block of a pointer is the one `krealloc` finds. -/
theorem Sound.find (hs : h.Sound) (hb : b ∈ h) :
    h.find? (fun d => d.addr + blockHdrSize = b.addr + blockHdrSize) = some b := by
  cases hf : h.find? (fun d => d.addr + blockHdrSize = b.addr + blockHdrSize) with
  | none => simpa using List.find?_eq_none.1 hf b hb
  | some d =>
    have hd := List.find?_some hf
    rw [decide_eq_true_eq] at hd
    exact congrArg some (hs.tiles.eq_of_addr (mem_of_find?_eq_some hf) hb (by omega))

theorem Sound.krealloc (hs : h.Sound) (hp : h.Holds p) (size : ℕ) : (h.krealloc p size).2.Sound := by
  unfold Heap.krealloc
  split_ifs with hnull hzero
  · exact hs.kmalloc size
  · exact hs.kfree hp
  · obtain ⟨b, hb, hused, rfl⟩ := hp.resolve_left hnull
    have hnew := hs.kmalloc size
    have hkept := kept_kmalloc hb hused size
    rw [hs.find hb]
    dsimp only
    split_ifs
    · exact hs
    · split
      · next heq => rwa [heq] at hnew
      · next heq =>
        rw [heq] at hnew hkept
        exact hnew.kfree (.inr ⟨b, hkept, hused, rfl⟩)

/-- **After every history of calls the chain is sound.** -/
theorem sound_run {rs : List HeapClient.Request} (hok : Meets Callable call heapInit rs) :
    (rs.foldl call heapInit).Sound := by
  refine hok.invariant (P := Sound) (fun h r hs hr => ?_) sound_heapInit
  cases r with
  | kmalloc size => exact hs.kmalloc size
  | kfree ptr => exact hs.kfree hr
  | krealloc ptr size => exact hs.krealloc hr size

/-! ## The size of what `kmalloc` returns -/

/-- A walk without a result has met no free block of the size. -/
theorem kmallocWalk_none {size : ℕ} (hw : kmallocWalk size h = none) (hb : b ∈ h)
    (hfree : b.isFree = true) : b.size < size := by
  induction h with
  | nil => cases hb
  | cons c cs ih =>
    unfold kmallocWalk at hw
    split_ifs at hw with hfit
    rcases mem_cons.1 hb with rfl | hb
    · exact Nat.lt_of_not_le fun hle => hfit ⟨hfree, hle⟩
    · exact ih (map_eq_none_iff.1 hw) hb

/-- `kmalloc` returns the data of a block in use of the rounded size. -/
theorem kmalloc_block (hp : (h.kmalloc n).1 = some p) :
    ∃ d ∈ (h.kmalloc n).2, d.isFree = false ∧ d.addr + blockHdrSize = p ∧ rounded n ≤ d.size := by
  rcases kmalloc_cases n h with heq | ⟨pre, b, post, -, rfl, -, hfit, heq⟩ <;> rw [heq] at hp ⊢
  · cases hp
  · obtain ⟨d, hd, hused, haddr, hsize⟩ := carve_head (rounded n) b hfit
    refine ⟨d, by simp [hd], hused, ?_, hsize⟩
    rw [haddr]
    exact some.inj hp

/-- **When the block `kmalloc` returns is as large as was asked for**: unless the
rounding wraps around, for the three largest sizes, while some block is free. -/
theorem kmalloc_payload_iff (rs : List HeapClient.Request) (hok : Meets Callable call heapInit rs)
    (n : ℕ) (hn : n < 2 ^ 32) :
    (∀ p, ((rs.foldl call heapInit).kmalloc n).1 = some p →
      ∃ b ∈ ((rs.foldl call heapInit).kmalloc n).2,
        b.isFree = false ∧ b.addr + blockHdrSize = p ∧ n ≤ b.size)
      ↔ n + 3 < 2 ^ 32 ∨ ∀ b ∈ rs.foldl call heapInit, b.isFree = false := by
  have hs := sound_run hok
  generalize rs.foldl call heapInit = h at hs
  constructor
  · intro hall
    by_contra hcon
    push Not at hcon
    obtain ⟨hbig, b, hb, hfree⟩ := hcon
    have hzero : rounded n = 0 := by
      unfold rounded
      omega
    -- The walk looks for nothing, so the first free block will do.
    have hsome : ∃ p, (h.kmalloc n).1 = some p := by
      unfold kmalloc
      rw [if_neg (by omega)]
      cases hw : kmallocWalk ((n + 3) % 2 ^ 32 / 4 * 4) h with
      | none =>
        have hlt := kmallocWalk_none hw hb (by simpa using hfree)
        unfold rounded at hzero
        omega
      | some r => exact ⟨r.1, rfl⟩
    obtain ⟨p, hp⟩ := hsome
    obtain ⟨d, hd, -, -, hsize⟩ := hall p hp
    have := (hs.kmalloc n).size_lt hd
    omega
  · rintro hcase p hp
    obtain ⟨d, hd, hused, haddr, hsize⟩ := kmalloc_block hp
    refine ⟨d, hd, hused, haddr, ?_⟩
    rcases hcase with hsmall | hall
    · unfold rounded at hsize
      omega
    · rcases kmalloc_cases n h with heq | ⟨pre, b, post, -, rfl, hfree, -, -⟩
      · rw [heq] at hp
        cases hp
      · rw [hall b (by simp)] at hfree
        cases hfree

/-- A second block is as large as was asked for. -/
theorem kmalloc_payload_small :
    Meets Callable call heapInit [.kmalloc 16] ∧
      ((heapInit.call (.kmalloc 16)).kmalloc 24).1 = some 0x800028 ∧
      ∃ b ∈ ((heapInit.call (.kmalloc 16)).kmalloc 24).2,
        b.isFree = false ∧ b.addr + blockHdrSize = 0x800028 ∧ 24 ≤ b.size := by
  refine ⟨?ok, ?served, (kmalloc_payload_iff [.kmalloc 16] ?ok 24 (by decide)).2 (.inl (by decide))
    _ ?served⟩
  · decide
  · decide

/-- **The largest size of all is given a block without data.** -/
theorem kmalloc_wraps :
    heapInit.kmalloc (2 ^ 32 - 1) = (some (heapStart + blockHdrSize),
      [⟨heapStart, 0, false⟩,
        ⟨heapStart + blockHdrSize, heapMax - heapStart - 2 * blockHdrSize, true⟩]) := by
  decide

end Heap

/-! ## Bytes -/

/-- The heap: the chain of headers, and the bytes of the window. -/
structure HeapImage where
  /-- The headers from `heap_head` on. -/
  chain : Heap
  /-- The bytes, headers among them. -/
  bytes : ℕ → UInt8

namespace HeapImage

variable {s s' : HeapImage} {b d : HeapBlock} {n p x size : ℕ} {m : ℕ → UInt8}

/-- The address of the first header of a chain, null for none. -/
def nextOf : Heap → ℕ
  | [] => 0
  | b :: _ => b.addr

/-- A header as it lies in memory: `size`, `is_free` and `next`, four bytes each. -/
def putHdr (b : HeapBlock) (next : ℕ) (m : ℕ → UInt8) : ℕ → UInt8 := fun x =>
  if b.addr ≤ x ∧ x < b.addr + blockHdrSize then
    let word := ([b.size, if b.isFree then 1 else 0, next]).getD ((x - b.addr) / 4) 0
    UInt8.ofNat (word / 256 ^ ((x - b.addr) % 4))
  else m x

/-- What the walk of `kmalloc` writes. -/
def kmallocWrites (size : ℕ) : Heap → (ℕ → UInt8) → ℕ → UInt8
  | [], m => m
  | b :: bs, m =>
    if b.isFree ∧ size ≤ b.size then
      if (size + blockHdrSize + splitMin) % 2 ^ 32 ≤ b.size then
        let remainder : HeapBlock :=
          ⟨b.addr + blockHdrSize + size, b.size - size - blockHdrSize, true⟩
        putHdr ⟨b.addr, size, false⟩ remainder.addr (putHdr remainder (nextOf bs) m)
      else putHdr { b with isFree := false } (nextOf bs) m
    else kmallocWrites size bs m

/-- The header at an address is written as the chain has it. -/
def putHdrAt (addr : ℕ) : Heap → (ℕ → UInt8) → ℕ → UInt8
  | [], m => m
  | b :: bs, m => if b.addr = addr then putHdr b (nextOf bs) m else putHdrAt addr bs m

/-- `memcpy`. -/
def memcpy (dst src n : ℕ) (m : ℕ → UInt8) : ℕ → UInt8 := fun x =>
  if dst ≤ x ∧ x < dst + n then m (src + (x - dst)) else m x

/-- `kmalloc`. -/
def kmalloc (size : ℕ) (s : HeapImage) : Option ℕ × HeapImage :=
  ((s.chain.kmalloc size).1, ⟨(s.chain.kmalloc size).2,
    if size = 0 then s.bytes else kmallocWrites ((size + 3) % 2 ^ 32 / 4 * 4) s.chain s.bytes⟩)

/-- `kfree`. Its loop writes into the header of the block it frees, field by field;
this is how it leaves it. -/
def kfree (ptr : ℕ) (s : HeapImage) : HeapImage where
  chain := s.chain.kfree ptr
  bytes := if ptr < heapStart + blockHdrSize ∨ heapMax ≤ ptr then s.bytes
    else putHdrAt (ptr - blockHdrSize) (s.chain.kfree ptr) s.bytes

/-- `krealloc`. -/
def krealloc (ptr size : ℕ) (s : HeapImage) : Option ℕ × HeapImage :=
  if ptr = 0 then s.kmalloc size
  else if size = 0 then (none, s.kfree ptr)
  else
    match s.chain.find? (fun b => b.addr + blockHdrSize = ptr) with
    | none => (none, s)
    | some b =>
      if size ≤ b.size then (some ptr, s)
      else
        match s.kmalloc size with
        | (none, s) => (none, s)
        | (some p, s) =>
          (some p, kfree ptr ⟨s.chain, memcpy p ptr (if b.size < size then b.size else size) s.bytes⟩)

/-! ## Where the writes fall -/

theorem putHdr_of (next : ℕ) (hx : x < b.addr ∨ b.addr + blockHdrSize ≤ x) :
    putHdr b next m x = m x := if_neg (by omega)

theorem putHdrAt_of (h : Heap) {addr : ℕ} (hx : x < addr ∨ addr + blockHdrSize ≤ x) :
    putHdrAt addr h m x = m x := by
  induction h with
  | nil => rfl
  | cons b bs ih =>
    rw [putHdrAt]
    split_ifs with haddr
    · exact putHdr_of _ (haddr ▸ hx)
    · exact ih

/-- **`kmalloc` writes into the free block it takes**, and nowhere else. -/
theorem kmallocWrites_of {h h' : Heap} (hw : Heap.kmallocWalk size h = some (p, h')) :
    ∃ b ∈ h, b.isFree = true ∧ p = b.addr + blockHdrSize ∧
      ∀ x, x < b.addr ∨ b.addr + blockHdrSize + b.size ≤ x → b.size < 2 ^ 31 →
        kmallocWrites size h m x = m x := by
  induction h generalizing p h' with
  | nil => cases hw
  | cons b bs ih =>
    unfold kmallocWalk at hw
    unfold kmallocWrites
    split_ifs at hw ⊢ with hfit hsplit
    · obtain ⟨rfl, -⟩ := Prod.mk.injEq .. ▸ some.inj hw
      refine ⟨b, mem_cons_self, hfit.1, rfl, fun x hx hsize => ?_⟩
      have hin : size + blockHdrSize ≤ b.size := by
        unfold blockHdrSize splitMin at *
        omega
      rw [putHdr_of _ (by dsimp only; omega), putHdr_of _ (by dsimp only; omega)]
    · obtain ⟨rfl, -⟩ := Prod.mk.injEq .. ▸ some.inj hw
      exact ⟨b, mem_cons_self, hfit.1, rfl, fun x hx _ => putHdr_of _ (by dsimp only; omega)⟩
    · obtain ⟨⟨q, bs'⟩, hwalk, hr⟩ := map_eq_some_iff.1 hw
      obtain ⟨rfl, -⟩ := Prod.mk.injEq .. ▸ hr
      obtain ⟨c, hc, hrest⟩ := ih hwalk
      exact ⟨c, mem_cons_of_mem b hc, hrest⟩

/-- A walk that finds nothing writes nothing. -/
theorem kmallocWrites_none {h : Heap} (hw : Heap.kmallocWalk size h = none) :
    kmallocWrites size h m = m := by
  induction h with
  | nil => rfl
  | cons b bs ih =>
    unfold kmallocWalk at hw
    unfold kmallocWrites
    split_ifs at hw ⊢
    exact ih (map_eq_none_iff.1 hw)

/-- The byte is in the data of the block. -/
def Within (b : HeapBlock) (x : ℕ) : Prop :=
  b.addr + blockHdrSize ≤ x ∧ x < b.addr + blockHdrSize + b.size

/-- **A failed `kmalloc` changes nothing.** -/
theorem kmalloc_none (h : (s.kmalloc size).1 = none) : (s.kmalloc size).2 = s := by
  obtain ⟨chain, bytes⟩ := s
  unfold kmalloc Heap.kmalloc at h ⊢
  split_ifs at h ⊢ with hzero
  · rfl
  · dsimp only at h ⊢
    cases hw : kmallocWalk ((size + 3) % 2 ^ 32 / 4 * 4) chain with
    | none => rw [kmallocWrites_none hw]
    | some r =>
      rw [hw] at h
      cases h

/-- **`kmalloc` leaves the data of the blocks in use alone**; the block it hands out
starts where a free one did. -/
theorem kmalloc_some (hs : s.chain.Sound) (h : (s.kmalloc size).1 = some p) :
    ∃ b ∈ s.chain, b.isFree = true ∧ p = b.addr + blockHdrSize
      ∧ ∀ d ∈ s.chain, d.isFree = false → ∀ x, Within d x →
        (s.kmalloc size).2.bytes x = s.bytes x := by
  obtain ⟨chain, bytes⟩ := s
  unfold kmalloc Heap.kmalloc at h ⊢
  dsimp only at h hs ⊢
  split_ifs at h ⊢ with hzero
  · cases hw : kmallocWalk ((size + 3) % 2 ^ 32 / 4 * 4) chain with
    | none =>
      rw [hw] at h
      cases h
    | some r =>
      obtain ⟨b, hb, hfree, hp, hkeep⟩ := kmallocWrites_of (m := bytes) hw
      rw [hw] at h
      refine ⟨b, hb, hfree, (some.inj h).symm.trans hp, fun d hd hused x hx => ?_⟩
      have hne : d ≠ b := by
        rintro rfl
        rw [hfree] at hused
        cases hused
      have hapart := hs.tiles.apart hd hb hne
      refine hkeep x ?_ (hs.size_lt hb)
      obtain ⟨hlo, hhi⟩ := hx
      unfold blockHdrSize at *
      omega

/-- **`kfree` writes into the header of its block**, and nowhere else. -/
theorem kfree_bytes (hs : s.chain.Sound) (hb : b ∈ s.chain) (hd : d ∈ s.chain) (hx : Within d x) :
    (s.kfree (b.addr + blockHdrSize)).bytes x = s.bytes x := by
  have hout : x < b.addr ∨ b.addr + blockHdrSize ≤ x := by
    obtain ⟨hlo, hhi⟩ := hx
    by_cases heq : d = b
    · subst heq
      exact .inr hlo
    · have := hs.tiles.apart hd hb heq
      unfold blockHdrSize at *
      omega
  unfold kfree
  dsimp only
  split_ifs
  · rfl
  · rw [Nat.add_sub_cancel]
    exact putHdrAt_of _ hout

/-! ## `krealloc` -/

/-- The blocks in use other than `b` are in use as before, with their data. -/
def OthersKept (s s' : HeapImage) (b : HeapBlock) : Prop :=
  ∀ d ∈ s.chain, d.isFree = false → d ≠ b →
    d ∈ s'.chain ∧ ∀ x, Within d x → s'.bytes x = s.bytes x

/-- No block in use starts where `b` does. -/
def Gone (s : HeapImage) (b : HeapBlock) : Prop :=
  ∀ d ∈ s.chain, d.isFree = false → d.addr ≠ b.addr

/-- **What a client may expect of `krealloc`**, given what it returns: null with
nothing changed, or a block of the size with the old data as far as it fits, the old
block gone if it is not that one, and the other blocks as they were. -/
def Resized (s : HeapImage) (b : HeapBlock) (n : ℕ) : Option ℕ × HeapImage → Prop
  | (none, s') => s' = s
  | (some q, s') =>
    (∃ d ∈ s'.chain, d.isFree = false ∧ d.addr + blockHdrSize = q ∧ n ≤ d.size)
      ∧ (∀ i, i < min b.size n → s'.bytes (q + i) = s.bytes (b.addr + blockHdrSize + i))
      ∧ OthersKept s s' b ∧ (q ≠ b.addr + blockHdrSize → s'.Gone b)

section

variable (hs : s.chain.Sound) (hb : b ∈ s.chain)
include hs hb

theorem gone_kfree : (s.kfree (b.addr + blockHdrSize)).Gone b := by
  intro d hd hused haddr
  rcases hs.mem_kfree hb hd with ⟨hmem, hne⟩ | ⟨-, hfree⟩
  · exact hne (hs.tiles.eq_of_addr hmem hb haddr)
  · rw [hfree] at hused
    cases hused

theorem othersKept_kfree :
    OthersKept s (s.kfree (b.addr + blockHdrSize)) b := fun _ hd hused hne =>
  ⟨hs.kept_kfree hb hd hused hne, fun _ hx => kfree_bytes hs hb hd hx⟩

/-- **The move**: the data is copied to a block that was free, and only then is the
old one freed. -/
theorem resized_move (hused : b.isFree = false) (hn : n < heapMax - heapStart) (hgrow : b.size < n)
    (hp : (s.kmalloc n).1 = some p) :
    Resized s b n (some p, kfree (b.addr + blockHdrSize)
      ⟨(s.kmalloc n).2.chain, memcpy p (b.addr + blockHdrSize) b.size (s.kmalloc n).2.bytes⟩) := by
  obtain ⟨f, hf, hfree, rfl, hkeep⟩ := kmalloc_some hs hp
  have hs' : (s.kmalloc n).2.chain.Sound := hs.kmalloc n
  have hkept : ∀ d ∈ s.chain, d.isFree = false → d ∈ (s.kmalloc n).2.chain :=
    fun d hd hu => kept_kmalloc hd hu n
  obtain ⟨d, hd, hdused, hdaddr, hdsize⟩ := kmalloc_block hp
  have hdsize : n ≤ d.size := (le_rounded hn).trans hdsize
  -- The new block is none of the blocks in use, so the copy spares their data.
  have hnew : ∀ e ∈ s.chain, e.isFree = false → e ≠ d := by
    rintro e he heused rfl
    rw [hs.tiles.eq_of_addr he hf (by omega), hfree] at heused
    cases heused
  have hcopy : ∀ e ∈ s.chain, e.isFree = false → ∀ x, Within e x →
      memcpy (f.addr + blockHdrSize) (b.addr + blockHdrSize) b.size (s.kmalloc n).2.bytes x
        = s.bytes x := by
    intro e he heused x hx
    have hapart := hs'.tiles.apart (hkept e he heused) hd (hnew e he heused)
    obtain ⟨hlo, hhi⟩ := hx
    rw [← hkeep e he heused x ⟨hlo, hhi⟩]
    exact if_neg (by omega)
  have hb' := hkept b hb hused
  have hlast : ∀ e ∈ (s.kmalloc n).2.chain, ∀ x, Within e x →
      (kfree (b.addr + blockHdrSize) ⟨(s.kmalloc n).2.chain,
        memcpy (f.addr + blockHdrSize) (b.addr + blockHdrSize) b.size (s.kmalloc n).2.bytes⟩).bytes x
      = memcpy (f.addr + blockHdrSize) (b.addr + blockHdrSize) b.size (s.kmalloc n).2.bytes x :=
    fun e he x hx => kfree_bytes (s := ⟨(s.kmalloc n).2.chain, _⟩) hs' hb' he hx
  refine ⟨⟨d, ?_, hdused, hdaddr, hdsize⟩, fun i hi => ?_, fun e he heused hne => ⟨?_, fun x hx => ?_⟩,
    fun _ => gone_kfree (s := ⟨(s.kmalloc n).2.chain, _⟩) hs' hb'⟩
  · exact hs'.kept_kfree hb' hd hdused (hnew b hb hused).symm
  · have hi : i < b.size := hi.trans_le (Nat.min_le_left _ _)
    rw [hlast d hd _ ⟨by omega, by omega⟩, memcpy, if_pos (by omega), Nat.add_sub_cancel_left]
    exact hkeep b hb hused _ ⟨by omega, by omega⟩
  · exact hs'.kept_kfree hb' (hkept e he heused) heused hne
  · rw [hlast e (hkept e he heused) x hx]
    exact hcopy e he heused x hx

end

/-- **`krealloc` of a live block**, after any history of calls and with any bytes in
the window. A size that is not zero, below the size of the heap, does what a client
may expect; the size zero frees the block, keeps the others, and returns null. -/
theorem krealloc_resizes (rs : List HeapClient.Request)
    (hok : Meets Heap.Callable Heap.call Heap.heapInit rs) (bytes : ℕ → UInt8) (b : HeapBlock)
    (hb : b ∈ rs.foldl Heap.call Heap.heapInit) (hused : b.isFree = false) (n : ℕ)
    (hn : n < heapMax - heapStart) :
    (0 < n → Resized ⟨rs.foldl Heap.call Heap.heapInit, bytes⟩ b n
      (krealloc (b.addr + blockHdrSize) n ⟨rs.foldl Heap.call Heap.heapInit, bytes⟩))
      ∧ (n = 0 → ∃ s', krealloc (b.addr + blockHdrSize) n ⟨rs.foldl Heap.call Heap.heapInit, bytes⟩
          = (none, s') ∧ s'.Gone b ∧ OthersKept ⟨rs.foldl Heap.call Heap.heapInit, bytes⟩ s' b) := by
  have hs := sound_run hok
  generalize rs.foldl call heapInit = h at hs hb
  have hnull : b.addr + blockHdrSize ≠ 0 := by
    unfold blockHdrSize
    omega
  unfold krealloc
  rw [if_neg hnull]
  constructor
  · intro hpos
    rw [if_neg hpos.ne', hs.find hb]
    dsimp only
    split_ifs with hfit hlt
    · exact ⟨⟨b, hb, hused, rfl, hfit⟩, fun _ _ => rfl, fun d hd _ _ => ⟨hd, fun _ _ => rfl⟩,
        fun hne => absurd rfl hne⟩
    · cases heq : kmalloc n ⟨h, bytes⟩ with
      | mk r s' =>
        cases r with
        | none => exact (congrArg Prod.snd heq).symm.trans (kmalloc_none (congrArg Prod.fst heq))
        | some p =>
          have hmove := resized_move (s := ⟨h, bytes⟩) hs hb hused hn hlt (congrArg Prod.fst heq)
          rw [heq] at hmove
          exact hmove
    · omega
  · intro hzero
    rw [if_pos hzero]
    exact ⟨_, rfl, gone_kfree (s := ⟨h, bytes⟩) hs hb, othersKept_kfree (s := ⟨h, bytes⟩) hs hb⟩

/-- A block of sixteen bytes before another grows to forty, and has to move. -/
theorem krealloc_resizes_grown :
    Meets Heap.Callable Heap.call Heap.heapInit [.kmalloc 16, .kmalloc 16]
      ∧ Resized ⟨[.kmalloc 16, .kmalloc 16].foldl Heap.call Heap.heapInit, fun x => UInt8.ofNat x⟩
        ⟨heapStart, 16, false⟩ 40
        (krealloc (heapStart + blockHdrSize) 40
          ⟨[.kmalloc 16, .kmalloc 16].foldl Heap.call Heap.heapInit, fun x => UInt8.ofNat x⟩) := by
  have hok : Meets Heap.Callable call heapInit [.kmalloc 16, .kmalloc 16] := by decide
  exact ⟨hok, (krealloc_resizes [.kmalloc 16, .kmalloc 16] hok (fun x => UInt8.ofNat x)
    ⟨heapStart, 16, false⟩ (by decide) rfl 40 (by decide)).1 (by decide)⟩

/-- **`krealloc` to the size zero returns null, and the block is gone.** -/
theorem krealloc_zero_frees :
    Meets Heap.Callable Heap.call Heap.heapInit [.kmalloc 16]
      ∧ ⟨heapStart, 16, false⟩ ∈ [.kmalloc 16].foldl Heap.call Heap.heapInit
      ∧ ¬ Resized ⟨[.kmalloc 16].foldl Heap.call Heap.heapInit, fun _ => 0⟩
        ⟨heapStart, 16, false⟩ 0
        (krealloc (heapStart + blockHdrSize) 0
          ⟨[.kmalloc 16].foldl Heap.call Heap.heapInit, fun _ => 0⟩) := by
  refine ⟨by decide, by decide, fun h => ?_⟩
  have hchain := congrArg HeapImage.chain h
  exact absurd hchain (by decide)

end HeapImage

end Makar
