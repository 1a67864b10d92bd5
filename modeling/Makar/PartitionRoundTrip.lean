import Makar.Partition
import Mathlib

/-!
# A partition table reads back as it was written

`part_write_gpt` and `part_probe` lay out an entry separately. Here they are put together: what is
written for a partition is read back as that partition (`writeEntry_reads`), an entry does not touch
the others (`writeEntry_of_notMem`), and so a whole list comes back in its order. The one thing that
is not read back is a GUID that was left zero: the writer makes one up for it, which is never zero
(`guidGen_ne_zero`).

The sums are stated against CRC-32 as one finds it described, a register that is shifted and reduced
by the polynomial when a one falls out (`crc32`); the driver's form without a branch computes the
same (`crc32Buf_eq`).

An MBR is the same on a smaller scale: four slots, and what `part_write_mbr` puts into one is read
back (`writeSlot_reads`), with the boot code before them left alone (`mbr_reads_back`).
-/

namespace Makar

open List Nat

namespace Partition

open Buf

/-! ## CRC-32 -/

/-- The register is shifted, and reduced when a one falls out. -/
def crcShift (c : UInt32) : UInt32 := if c.toNat % 2 = 1 then (c >>> 1) ^^^ 0xEDB88320 else c >>> 1

/-- **CRC-32** of a string of bytes. -/
def crc32 (xs : List UInt8) : ℕ :=
  (xs.foldl (fun c x => crcShift^[8] (c ^^^ x.toUInt32)) 0xFFFFFFFF ^^^ 0xFFFFFFFF).toNat

theorem crcBit_eq (c : UInt32) : crcBit c = crcShift c := by
  unfold crcBit crcShift
  have hbit : (c &&& 1).toNat = c.toNat % 2 := by
    rw [UInt32.toNat_and]
    exact and_one_is_mod _
  by_cases h : c.toNat % 2 = 1
  · have h1 : c &&& 1 = 1 := UInt32.toNat_inj.1 (hbit.trans h)
    rw [if_pos h, h1]
    rfl
  · have h0 : c &&& 1 = 0 := UInt32.toNat_inj.1 (hbit.trans (by
      show c.toNat % 2 = 0
      omega))
    rw [if_neg h, h0]
    exact UInt32.xor_zero

/-- The driver computes CRC-32. -/
theorem crc32Buf_eq (xs : List UInt8) : crc32Buf xs = crc32 xs := by
  have hbyte : crcByte = fun c x => crcShift^[8] (c ^^^ x.toUInt32) := by
    funext c x
    have hbit : crcBit = crcShift := funext crcBit_eq
    unfold crcByte
    rw [hbit]
    rfl
  unfold crc32Buf crc32
  rw [hbyte]

theorem crc32_lt (xs : List UInt8) : crc32 xs < 2 ^ 32 := UInt32.toNat_lt _

example : crc32 [49, 50, 51, 52, 53, 54, 55, 56, 57] = 0xCBF43926 := by decide +kernel

/-! ## Fields -/

variable {b b' : Buf} {o k n i v : ℕ} {g : Guid} {name : List UInt8} {p : PartInfo}

theorem wr64_of_notMem (h : k < o ∨ o + 8 ≤ k) : wr64 b o v k = b k := by
  unfold wr64
  rw [wr32_of_notMem (by omega), wr32_of_notMem (by omega)]

theorem putGuid_of_notMem (h : k < o ∨ o + 16 ≤ k) : putGuid b o g k = b k :=
  blit_of_notMem (by simpa using h)

theorem guidAt_congr (h : ∀ k, o ≤ k → k < o + 16 → b k = b' k) : guidAt b o = guidAt b' o :=
  funext fun i => h (o + i) (by omega) (by omega)

theorem guidAt_putGuid : guidAt (putGuid b o g) o = g := by
  funext i
  show putGuid b o g (o + i) = g i
  unfold putGuid blit
  rw [if_pos (by simp), Nat.add_sub_cancel_left, getD_eq_getElem _ _ (by simp)]
  exact List.getElem_ofFn ..

theorem rd32_wr64 (h : v < 2 ^ 32) : rd32 (wr64 b o v) o = v := by
  unfold wr64
  rw [rd32_wr32_of_disjoint (by omega), rd32_wr32 h]

theorem rd32_wr64_of_disjoint (h : o + 8 ≤ k ∨ k + 4 ≤ o) : rd32 (wr64 b o v) k = rd32 b k :=
  rd32_congr fun j _ _ => wr64_of_notMem (by omega)

theorem rd32_blit_of_disjoint {xs : List UInt8} (h : o + xs.length ≤ k ∨ k + 4 ≤ o) :
    rd32 (blit b o xs) k = rd32 b k :=
  rd32_congr fun j _ _ => blit_of_notMem (by omega)

/-- A made-up GUID is not zero: its version is stamped into it. -/
theorem guidGen_ne_zero (ticks disc seed : UInt32) :
    (guidGen ticks disc seed).1 ≠ fun _ => 0 := by
  have hstamp : ∀ x : UInt8, (x &&& 0x0F) ||| 0x40 ≠ 0 := fun x hx => by
    have hbit := congrArg (fun y : UInt8 => y.toNat.testBit 6) hx
    simp only [UInt8.toNat_or, testBit_or, show (UInt8.toNat 0x40).testBit 6 = true by decide,
      Bool.or_true] at hbit
    exact absurd hbit (by decide)
  exact fun h => hstamp _ (congrFun h 6)

/-! ## Names -/

/-- **A printable name** of at most 36 characters. -/
def Printable (name : List UInt8) : Prop :=
  name.length ≤ 36 ∧ ∀ c ∈ name, 0x20 ≤ c.toNat ∧ c.toNat < 0x7F

instance (name : List UInt8) : Decidable (Printable name) := inferInstanceAs (Decidable (_ ∧ _))

/-- Each character as two bytes, the second zero. -/
theorem getD_units (name : List UInt8) (i : ℕ) :
    (name.flatMap fun c => [c, 0]).getD (2 * i) 0 = name.getD i 0
      ∧ (name.flatMap fun c => [c, 0]).getD (2 * i + 1) 0 = 0 := by
  induction name generalizing i with
  | nil => exact ⟨rfl, rfl⟩
  | cons c name ih =>
    cases i with
    | zero => exact ⟨rfl, rfl⟩
    | succ i => exact ih i

theorem length_units (name : List UInt8) :
    (name.flatMap fun c => [c, 0]).length = 2 * name.length := by
  induction name with
  | nil => rfl
  | cons c name ih =>
    rw [flatMap_cons, length_append, ih]
    simp only [length_cons, length_nil]
    omega

/-- The writer cuts nothing off a printable name. -/
theorem Printable.take_eq (h : Printable name) : (name.takeWhile (· ≠ 0)).take 36 = name := by
  have hall : name.takeWhile (· ≠ 0) = name := takeWhile_eq_self_iff.2 fun c hc => by
    have := (h.2 c hc).1
    simp only [ne_eq, decide_eq_true_eq]
    rintro rfl
    exact absurd this (by decide)
  rw [hall, take_of_length_le h.1]

/-- **A name that is there is read**, to its end. -/
theorem Printable.read (h : Printable name)
    (hb : ∀ i < 36, rd16 b (o + 2 * i) = (name.getD i 0).toNat) : gptNameToAscii b o = name := by
  have hunits : (range 36).map (fun i => rd16 b (o + 2 * i))
      = name.map UInt8.toNat ++ replicate (36 - name.length) 0 := by
    refine ext_getElem (by simpa using (Nat.add_sub_cancel' h.1).symm) fun i hi hi' => ?_
    rw [getElem_map, getElem_range, hb i (by simpa using hi)]
    by_cases hlt : i < name.length
    · rw [getElem_append_left (by simpa using hlt), getElem_map,
        getD_eq_getElem _ _ hlt]
    · rw [getElem_append_right (by simpa using hlt), getElem_replicate,
        getD_eq_default _ _ (by omega)]
      rfl
  have hstop : ∀ m, (replicate m 0).takeWhile (fun c : ℕ => decide (c ≠ 0)) = [] := fun m => by
    cases m <;> simp [replicate_succ]
  unfold gptNameToAscii
  rw [hunits, takeWhile_append_of_pos, hstop, append_nil, map_map]
  · refine (map_congr_left fun c hc => ?_).trans (map_id name)
    have := (h.2 c hc).2
    show (if c.toNat < 0x80 then UInt8.ofNat c.toNat else 63) = c
    rw [if_pos (by omega), UInt8.ofNat_toNat]
  · intro c hc
    obtain ⟨x, hx, rfl⟩ := mem_map.1 hc
    have := (h.2 x hx).1
    simp only [ne_eq, decide_eq_true_eq]
    omega

/-! ## Entries -/

/-- **A partition that a GPT can hold**: it is used, its range ends on the disk, and its name can be
printed. -/
structure Fits (sectors : ℕ) (p : PartInfo) : Prop where
  type : p.typeGuid ≠ fun _ => 0
  range : p.lbaStart + p.lbaCount ≤ sectors
  name : Printable p.name

/-- **Two partitions are the same** as far as a GPT goes, except that the second has a GUID when the
first has none. -/
structure Same (p q : PartInfo) : Prop where
  start : q.lbaStart = p.lbaStart
  count : q.lbaCount = p.lbaCount
  name : q.name = p.name
  type : q.typeGuid = p.typeGuid
  guid : p.partGuid ≠ (fun _ => 0) → q.partGuid = p.partGuid
  made : q.partGuid ≠ fun _ => 0

theorem gptEntry_congr (h : ∀ k, 128 * i ≤ k → k < 128 * i + 128 → b k = b' k) :
    gptEntry b i = gptEntry b' i := by
  have h32 : ∀ o, 128 * i ≤ o → o + 4 ≤ 128 * i + 128 → rd32 b o = rd32 b' o := fun o h1 h2 =>
    rd32_congr fun k _ _ => h k (by omega) (by omega)
  have hg : ∀ o, 128 * i ≤ o → o + 16 ≤ 128 * i + 128 → guidAt b o = guidAt b' o := fun o h1 h2 =>
    guidAt_congr fun k _ _ => h k (by omega) (by omega)
  have hn : gptNameToAscii b (128 * i + 56) = gptNameToAscii b' (128 * i + 56) := by
    unfold gptNameToAscii
    congr 2
    refine map_congr_left fun j hj => rd16_congr fun k _ _ => h k (by omega) ?_
    have := mem_range.1 hj
    omega
  unfold gptEntry
  dsimp only
  rw [hg _ le_rfl (by omega), hg _ (Nat.le_add_right ..) (by omega),
    h32 _ (Nat.le_add_right ..) (by omega), h32 (128 * i + 40) (Nat.le_add_right ..) (by omega), hn]

/-- An entry of zeros is unused. -/
theorem gptEntry_of_zero (h : ∀ k, 128 * i ≤ k → k < 128 * i + 128 → b k = 0) :
    gptEntry b i = none := by
  unfold gptEntry
  exact if_pos (funext fun j => h _ (by omega) (by omega))

variable {drive : UInt8} {ticks : ℕ → UInt32} {s : Buf × UInt32}

/-- The GUID that is written for a partition. -/
def entryGuid (drive : UInt8) (ticks : ℕ → UInt32) (seed : UInt32) (p : PartInfo) (i : ℕ) : Guid :=
  if p.partGuid = fun _ => 0 then
    (guidGen (ticks (i + 1)) (UInt32.ofNat i * 0x1000 + drive.toUInt32) seed).1
  else p.partGuid

/-- The buffer with an entry at `e`. -/
def entryBuf (b : Buf) (e : ℕ) (p : PartInfo) (g : Guid) : Buf :=
  blit (wr64 (wr64 (wr64 (putGuid (putGuid b e p.typeGuid) (e + 16) g) (e + 32) p.lbaStart) (e + 40)
    ((p.lbaStart + p.lbaCount + 2 ^ 32 - 1) % 2 ^ 32)) (e + 48) 0) (e + 56)
    (((p.name.takeWhile (· ≠ 0)).take 36).flatMap fun c => [c, 0])

theorem putGuid_putGuid {g' : Guid} : putGuid (putGuid b o g) o g' = putGuid b o g' := by
  funext k
  unfold putGuid blit
  simp only [length_ofFn]
  split <;> rfl

theorem writeEntry_fst (drive : UInt8) (ticks : ℕ → UInt32) (s : Buf × UInt32) (p : PartInfo)
    (i : ℕ) : (writeEntry drive ticks s (p, i)).1
      = entryBuf s.1 (128 * i) p (entryGuid drive ticks s.2 p i) := by
  unfold writeEntry entryBuf entryGuid
  dsimp only
  by_cases h : p.partGuid = fun _ => 0
  · rw [if_pos h, if_pos h]
    simp only [putGuid_putGuid]
  · rw [if_neg h, if_neg h]

theorem entryGuid_ne_zero (drive : UInt8) (ticks : ℕ → UInt32) (seed : UInt32) (p : PartInfo)
    (i : ℕ) : entryGuid drive ticks seed p i ≠ fun _ => 0 := by
  unfold entryGuid
  split
  · exact guidGen_ne_zero _ _ _
  · assumption

variable {e : ℕ}

/-- An entry is written where it belongs. -/
theorem entryBuf_of_notMem (h : k < e ∨ e + 128 ≤ k) : entryBuf b e p g k = b k := by
  have hlen : (((p.name.takeWhile (· ≠ 0)).take 36).flatMap fun c => [c, 0]).length ≤ 72 := by
    rw [length_units]
    have := length_take_le 36 (p.name.takeWhile (· ≠ 0))
    omega
  unfold entryBuf
  simp (disch := omega) only [blit_of_notMem, wr64_of_notMem, putGuid_of_notMem]

/-- The fields of an entry that was written. -/
theorem entryBuf_fields (hstart : p.lbaStart < 2 ^ 32) :
    guidAt (entryBuf b e p g) e = p.typeGuid ∧ guidAt (entryBuf b e p g) (e + 16) = g
      ∧ rd32 (entryBuf b e p g) (e + 32) = p.lbaStart
      ∧ rd32 (entryBuf b e p g) (e + 40) = (p.lbaStart + p.lbaCount + 2 ^ 32 - 1) % 2 ^ 32 := by
  unfold entryBuf
  refine ⟨?_, ?_, ?_, ?_⟩
  · refine (guidAt_congr fun k _ _ => ?_).trans (guidAt_putGuid (b := b))
    simp (disch := omega) only [blit_of_notMem, wr64_of_notMem, putGuid_of_notMem]
  · refine (guidAt_congr fun k _ _ => ?_).trans (guidAt_putGuid (b := putGuid b e p.typeGuid))
    simp (disch := omega) only [blit_of_notMem, wr64_of_notMem]
  · simp (disch := omega) only [rd32_blit_of_disjoint, rd32_wr64_of_disjoint]
    exact rd32_wr64 hstart
  · simp (disch := omega) only [rd32_blit_of_disjoint, rd32_wr64_of_disjoint]
    exact rd32_wr64 (mod_lt _ (by decide))

/-- The name of an entry that was written over zeros. -/
theorem entryBuf_name (hp : Printable p.name)
    (hz : ∀ k, e ≤ k → k < e + 128 → b k = 0) :
    gptNameToAscii (entryBuf b e p g) (e + 56) = p.name := by
  refine hp.read fun j hj => ?_
  have hbyte : ∀ k, e + 56 ≤ k → k < e + 128 →
      entryBuf b e p g k = (p.name.flatMap fun c => [c, 0]).getD (k - (e + 56)) 0 := by
    intro k h1 h2
    unfold entryBuf
    rw [hp.take_eq]
    by_cases hin : k < e + 56 + (p.name.flatMap fun c => [c, 0]).length
    · exact if_pos ⟨h1, hin⟩
    · simp (disch := omega) only [blit_of_notMem, wr64_of_notMem, putGuid_of_notMem]
      rw [hz k (by omega) h2, getD_eq_default _ _ (by omega)]
  obtain ⟨hlo, hhi⟩ := getD_units p.name j
  unfold rd16
  rw [hbyte _ (by omega) (by omega), hbyte _ (by omega) (by omega),
    show e + 56 + 2 * j - (e + 56) = 2 * j by omega,
    show e + 56 + 2 * j + 1 - (e + 56) = 2 * j + 1 by omega, hlo, hhi]
  rfl

/-- **An entry is read as it was written.** -/
theorem writeEntry_reads {sectors : ℕ} (hp : Fits sectors p) (hn : sectors < 2 ^ 32)
    (hz : ∀ k, 128 * i ≤ k → k < 128 * i + 128 → s.1 k = 0) :
    ∃ q, gptEntry (writeEntry drive ticks s (p, i)).1 i = some q ∧ Same p q := by
  have hrange := hp.range
  rw [writeEntry_fst]
  obtain ⟨htype, hguid, hstart, hlast⟩ := entryBuf_fields (b := s.1) (e := 128 * i) (p := p)
    (g := entryGuid drive ticks s.2 p i) (by omega)
  refine ⟨_, if_neg (by rw [htype]; exact hp.type), ?_⟩
  refine ⟨hstart, ?_, entryBuf_name hp.name hz, htype, fun h => ?_, ?_⟩
  · show (rd32 _ (128 * i + 40) + 2 ^ 32 - rd32 _ (128 * i + 32) + 1) % 2 ^ 32 = p.lbaCount
    rw [hlast, hstart]
    omega
  · exact hguid.trans (if_neg h)
  · dsimp only
    rw [hguid]
    exact entryGuid_ne_zero _ _ _ _ _

/-- **A list of partitions is read as it was written**, entry by entry. -/
theorem writeEntries_reads {sectors : ℕ} (hn : sectors < 2 ^ 32) (parts : List PartInfo)
    (hp : ∀ p ∈ parts, Fits sectors p) (m : ℕ) (s : Buf × UInt32)
    (hz : ∀ k, 128 * m ≤ k → s.1 k = 0) :
    let b := ((parts.zipIdx m).foldl (writeEntry drive ticks) s).1
    (∀ k, k < 128 * m → b k = s.1 k)
      ∧ ∃ qs, List.Forall₂ Same parts qs ∧ ∀ j, gptEntry b (m + j) = qs[j]? := by
  induction parts generalizing m s with
  | nil =>
    refine ⟨fun _ _ => rfl, [], List.Forall₂.nil, fun j => ?_⟩
    exact gptEntry_of_zero fun k h1 _ => hz k (by omega)
  | cons p parts ih =>
    obtain ⟨q, hq, hsame⟩ := writeEntry_reads
      (hp p mem_cons_self) hn fun k h1 _ => hz k h1
    have hframe : ∀ k, k < 128 * m ∨ 128 * m + 128 ≤ k →
        (writeEntry drive ticks s (p, m)).1 k = s.1 k := fun k hk => by
      rw [writeEntry_fst, entryBuf_of_notMem hk]
    obtain ⟨hkeep, qs, hqs, hread⟩ := ih (fun p hp' => hp p (mem_cons_of_mem _ hp')) (m + 1)
      (writeEntry drive ticks s (p, m))
      fun k hk => (hframe k (by omega)).trans (hz k (by omega))
    rw [zipIdx_cons, foldl_cons]
    refine ⟨fun k hk => (hkeep k (by omega)).trans (hframe k (by omega)), q :: qs,
      hqs.cons hsame, fun j => ?_⟩
    cases j with
    | zero =>
      rw [getElem?_cons_zero, ← hq]
      exact gptEntry_congr fun k _ _ => hkeep k (by omega)
    | succ j =>
      rw [getElem?_cons_succ, ← hread j, show m + (j + 1) = m + 1 + j by omega]

/-- The used entries of a table are the partitions, in their order. -/
theorem filterMap_getElem? {α : Type*} (xs : List α) {m : ℕ} (h : xs.length ≤ m) :
    (List.range m).filterMap (fun j => xs[j]?) = xs := by
  induction m generalizing xs with
  | zero =>
    rw [eq_nil_of_length_eq_zero (le_zero.1 h)]
    rfl
  | succ m ih =>
    rw [range_succ_eq_map, filterMap_cons, filterMap_map]
    cases xs with
    | nil => exact ih [] (zero_le _)
    | cons x xs => exact congrArg (x :: ·) (ih xs (by simpa using h))

/-! ## Headers -/

variable {sectors lba other entriesLba crc : ℕ}

theorem rd32_putGuid_of_disjoint (h : o + 16 ≤ k ∨ k + 4 ≤ o) :
    rd32 (putGuid b o g) k = rd32 b k :=
  rd32_congr fun j _ _ => putGuid_of_notMem (by omega)

/-- The fields of a header that are read again. -/
theorem gptHeaderBody_fields (hlba : lba < 2 ^ 32) (hel : entriesLba < 2 ^ 32)
    (hcrc : crc < 2 ^ 32) (bdy : Buf)
    (hb : bdy = gptHeaderBody sectors lba other entriesLba g crc) :
    slice bdy 0 8 = gptSig ∧ rd32 bdy 24 = lba ∧ rd32 bdy 72 = entriesLba ∧ rd32 bdy 80 = 128
      ∧ rd32 bdy 84 = 128 ∧ rd32 bdy 88 = crc ∧ ∀ k, 16 ≤ k → k < 20 → bdy k = 0 := by
  subst hb
  unfold gptHeaderBody
  refine ⟨?_, ?_, ?_, ?_, ?_, ?_, ?_⟩
  · refine (slice_congr fun k _ _ => ?_).trans
      (show slice (blit zero 0 gptSig) 0 gptSig.length = gptSig from slice_blit)
    simp (disch := omega) only [wr32_of_notMem, wr64_of_notMem, putGuid_of_notMem]
  · simp (disch := omega) only [rd32_wr32_of_disjoint, rd32_wr64_of_disjoint,
      rd32_putGuid_of_disjoint, rd32_wr64]
  · simp (disch := omega) only [rd32_wr32_of_disjoint, rd32_wr64]
  · simp (disch := omega) only [rd32_wr32_of_disjoint, rd32_wr32]
  · simp (disch := omega) only [rd32_wr32_of_disjoint, rd32_wr32]
  · exact rd32_wr32 hcrc
  · intro k h1 h2
    simp (disch := omega) only [wr32_of_notMem (o := 20), wr32_of_notMem (o := 80),
      wr32_of_notMem (o := 84), wr32_of_notMem (o := 88), wr64_of_notMem, putGuid_of_notMem]
    obtain rfl | rfl | rfl | rfl : k = 16 ∨ k = 17 ∨ k = 18 ∨ k = 19 := by omega
    all_goals rfl

/-- **A GPT header on a disk is sound**: it is where it says it is, its CRC is that of its own bytes
with the field of the CRC zero, and the other is that of the entries it points to. -/
structure HeaderOk (d : Disk) (lba : ℕ) : Prop where
  sig : slice (d.readSectors lba 1) 0 8 = gptSig
  myLba : rd32 (d.readSectors lba 1) 24 = lba
  headerCrc : rd32 (d.readSectors lba 1) 16 = crc32 (slice (wr32 (d.readSectors lba 1) 16 0) 0 92)
  entriesCrc : rd32 (d.readSectors lba 1) 88
    = crc32 (slice (d.readSectors (rd32 (d.readSectors lba 1) 72) 32) 0 (128 * 128))

theorem readSectors_congr {d d' : Disk} (h : ∀ k, 512 * (lba % 2 ^ 28) ≤ k →
    k < 512 * (lba % 2 ^ 28 + n) → d.bytes k = d'.bytes k) :
    d.readSectors lba n = d'.readSectors lba n := by
  funext k
  unfold Disk.readSectors
  split
  · exact h _ (by omega) (by omega)
  · rfl

/-- What is written is read, at the sectors that are read whole. -/
theorem readSectors_writeSectors (d : Disk) {k : ℕ} (hk : k < 512 * n) :
    (d.writeSectors lba n b).readSectors lba n k = b k := by
  unfold Disk.readSectors Disk.writeSectors
  rw [if_pos hk]
  dsimp only
  rw [if_pos (by omega), Nat.add_sub_cancel_left]

theorem readSectors_writeSectors_of_disjoint (d : Disk) {lba' n' : ℕ}
    (h : lba' % 2 ^ 28 + n' ≤ lba % 2 ^ 28 ∨ lba % 2 ^ 28 + n ≤ lba' % 2 ^ 28) :
    (d.writeSectors lba n b).readSectors lba' n' = d.readSectors lba' n' :=
  readSectors_congr fun k _ _ => if_neg (by omega)

/-- **A header that was written with the sums is sound**, when the entries are where it says. -/
theorem headerOk {d : Disk} (hdr : Buf)
    (hhdr : hdr = gptHeader sectors lba other entriesLba g crc) (hlba : lba < 2 ^ 32)
    (hel : entriesLba < 2 ^ 32) (hread : ∀ k, k < 512 → d.readSectors lba 1 k = hdr k)
    (hcrc : crc = crc32 (slice (d.readSectors entriesLba 32) 0 (128 * 128))) : HeaderOk d lba := by
  obtain ⟨hsig, hmy, hent, -, -, hsum, hzero⟩ := gptHeaderBody_fields
    (g := g) hlba hel (hcrc ▸ crc32_lt _) _ rfl
  unfold gptHeader at hhdr
  generalize gptHeaderBody sectors lba other entriesLba g crc = body at *
  dsimp only at hhdr
  have hkeep : ∀ k, k < 16 ∨ 20 ≤ k → hdr k = body k := fun k hk => by
    rw [hhdr, wr32_of_notMem (by omega)]
  have h32 : ∀ o, o + 4 ≤ 512 → (o + 4 ≤ 16 ∨ 20 ≤ o) →
      rd32 (d.readSectors lba 1) o = rd32 body o := fun o h1 h2 =>
    rd32_congr fun k _ _ => (hread k (by omega)).trans (hkeep k (by omega))
  refine ⟨?_, ?_, ?_, ?_⟩
  · rw [← hsig]
    exact slice_congr fun k _ _ => (hread k (by omega)).trans (hkeep k (by omega))
  · rw [h32 24 (by decide) (by decide), hmy]
  · have hfield : rd32 (d.readSectors lba 1) 16 = crc32Buf (slice body 0 92) := by
      rw [rd32_congr fun k _ _ => hread k (by omega), hhdr, rd32_wr32]
      rw [crc32Buf_eq]
      exact crc32_lt _
    rw [hfield, crc32Buf_eq]
    congr 1
    refine slice_congr fun k _ _ => ?_
    by_cases hk : 16 ≤ k ∧ k < 20
    · rw [hzero k hk.1 hk.2]
      obtain rfl | rfl | rfl | rfl : k = 16 ∨ k = 17 ∨ k = 18 ∨ k = 19 := by omega
      all_goals rfl
    · rw [wr32_of_notMem (by omega), hread k (by omega), hkeep k (by omega)]
  · rw [h32 88 (by decide) (by decide), h32 72 (by decide) (by decide), hsum, hent]
    exact hcrc

/-! ## The whole disk -/

/-- The sectors of a disk that a GPT was written to. -/
theorem writeSectors_reads (d : Disk) (hlarge : 68 ≤ n) (hsize : n ≤ 2 ^ 28) (p e h₁ h₂ : Buf)
    (w : Disk)
    (hw : w = ((((d.writeSectors 0 1 p).writeSectors 2 32 e).writeSectors (n - 33) 32 e).writeSectors
      1 1 h₁).writeSectors (n - 1) 1 h₂) :
    (∀ k < 512, w.readSectors 0 1 k = p k) ∧ (∀ k < 512, w.readSectors 1 1 k = h₁ k)
      ∧ (∀ k < 16384, w.readSectors 2 32 k = e k)
      ∧ (∀ k < 16384, w.readSectors (n - 33) 32 k = e k)
      ∧ ∀ k < 512, w.readSectors (n - 1) 1 k = h₂ k := by
  subst hw
  refine ⟨fun k hk => ?_, fun k hk => ?_, fun k hk => ?_, fun k hk => ?_, fun k hk => ?_⟩ <;>
    simp (disch := omega) only [readSectors_writeSectors_of_disjoint, readSectors_writeSectors]

/-- **The partitions are found** behind a header that was written. -/
theorem parseGpt_eq {d : Disk} {hdr es : Buf} (hsig : slice hdr 0 8 = gptSig)
    (hent : rd32 hdr 72 = 2) (hnum : rd32 hdr 80 = 128) (hsz : rd32 hdr 84 = 128)
    (hes : ∀ k < 16384, d.readSectors 2 32 k = es k) {qs : List PartInfo} (hlen : qs.length ≤ 128)
    (hqs : ∀ j, gptEntry es j = qs[j]?) : parseGpt d hdr = some ⟨.gpt, d.size, qs⟩ := by
  have hentries : (range 128).filterMap (gptEntry (d.readSectors 2 32)) = qs := by
    refine Eq.trans (filterMap_congr fun j hj => ?_) (filterMap_getElem? qs hlen)
    have hj := mem_range.1 hj
    rw [← hqs j]
    exact gptEntry_congr fun k _ _ => hes k (by omega)
  unfold parseGpt
  rw [if_neg (not_not.2 hsig), hnum, hsz, hent]
  dsimp only
  rw [if_neg (by decide), show min ((128 * 128 + 511) / 512) 32 = 32 from rfl, hentries,
    take_of_length_le (show qs.length ≤ maxEntries from hlen)]

section Written

variable {d w : Disk} {parts : List PartInfo} {drive : UInt8} {ticks : ℕ → UInt32}

/-- **What a disk holds that a GPT was written to**: the protective MBR, the entries twice and the
two headers, each with the sum of the entries. -/
structure Written (d w : Disk) (es : Buf) (guid : Guid) : Prop where
  present : w.present = true
  size : w.size = d.size
  mbr : ∀ k < 512, w.readSectors 0 1 k = protectiveMbr d.size k
  entries : ∀ k < 16384, w.readSectors 2 32 k = es k
  backup : ∀ k < 16384, w.readSectors (d.size - 33) 32 k = es k
  header : ∀ k < 512, w.readSectors 1 1 k
    = gptHeader d.size 1 (d.size - 1) 2 guid (crc32 (slice es 0 (128 * 128))) k
  other : ∀ k < 512, w.readSectors (d.size - 1) 1 k
    = gptHeader d.size (d.size - 1) 1 (d.size - 33) guid (crc32 (slice es 0 (128 * 128))) k

theorem partWriteGpt_written (drive : UInt8) (ticks : ℕ → UInt32) (parts : List PartInfo)
    (hpresent : d.present = true)
    (hlarge : 68 ≤ d.size) (hsize : d.size ≤ 2 ^ 28) (hlen : parts.length ≤ 128) :
    ∃ w guid, partWriteGpt drive ticks d parts = (0, w)
      ∧ Written d w (writeEntries drive ticks parts).1 guid := by
  unfold partWriteGpt
  rw [if_neg (by omega), if_neg (by simp [hpresent]), if_neg (by omega)]
  refine ⟨_, (guidGen (ticks 129) (drive.toUInt32 <<< 24) (writeEntries drive ticks parts).2).1,
    rfl, ?_⟩
  rw [crc32Buf_eq]
  obtain ⟨h0, h1, h2, h3, h4⟩ := writeSectors_reads d hlarge hsize (protectiveMbr d.size)
    (writeEntries drive ticks parts).1 _ _ _ rfl
  exact ⟨hpresent, rfl, h0, h2, h3, h1, h4⟩

variable {es : Buf} {guid : Guid}

section

variable (h : Written d w es guid) (hlarge : 68 ≤ d.size) (hsize : d.size < 2 ^ 32)
include h hlarge hsize

/-- The headers are sound. -/
theorem Written.headerOk : HeaderOk w 1 ∧ HeaderOk w (d.size - 1) := by
  have hcrc : ∀ lba, (∀ k < 16384, w.readSectors lba 32 k = es k) →
      crc32 (slice es 0 (128 * 128))
        = crc32 (slice (w.readSectors lba 32) 0 (128 * 128)) := fun lba h =>
    congrArg crc32 (slice_congr fun k _ _ => (h k (by omega)).symm)
  exact ⟨Partition.headerOk _ rfl (by omega) (by omega) h.header (hcrc 2 h.entries),
    Partition.headerOk _ rfl (by omega) (by omega) h.other (hcrc _ h.backup)⟩

/-- The partitions are found. -/
theorem Written.partProbe_eq {qs : List PartInfo} (hlen : qs.length ≤ 128)
    (hqs : ∀ j, gptEntry es j = qs[j]?) : partProbe w = some ⟨.gpt, d.size, qs⟩ := by
  obtain ⟨-, -, hent, hnum, hes, -⟩ := @gptHeaderBody_fields guid d.size 1 (d.size - 1) 2
    (crc32 (slice es 0 (128 * 128))) (by decide) (by decide) (crc32_lt _) _ rfl
  have h32 : ∀ o, o + 4 ≤ 512 → 20 ≤ o → rd32 (w.readSectors 1 1) o
      = rd32 (gptHeaderBody d.size 1 (d.size - 1) 2 guid (crc32 (slice es 0 (128 * 128)))) o :=
    fun o ho ho' => rd32_congr fun k _ _ => by
      rw [h.header k (by omega)]
      exact wr32_of_notMem (by omega)
  have hparse : parseGpt w (w.readSectors 1 1) = some ⟨.gpt, d.size, qs⟩ := by
    rw [← h.size]
    exact parseGpt_eq (h.headerOk hlarge hsize).1.sig
      ((h32 72 (by decide) (by decide)).trans hent) ((h32 80 (by decide) (by decide)).trans hnum)
      ((h32 84 (by decide) (by decide)).trans hes) h.entries hlen hqs
  unfold partProbe
  rw [if_neg (by simp [h.present])]
  dsimp only
  rw [h.mbr 510 (by decide), h.mbr 511 (by decide), h.mbr _ (by decide), hparse, if_neg, if_pos]
  · rfl
  · exact not_or.2 ⟨not_not.2 rfl, not_not.2 rfl⟩

end

/-- **What is probed after a GPT was written.** -/
theorem partProbe_written (h : Written d w (writeEntries drive ticks parts).1 guid)
    (hlarge : 68 ≤ d.size) (hsize : d.size < 2 ^ 32) (hlen : parts.length ≤ 128)
    (hparts : ∀ p ∈ parts, Fits d.size p) :
    ∃ qs, partProbe w = some ⟨.gpt, d.size, qs⟩ ∧ List.Forall₂ Same parts qs := by
  obtain ⟨-, qs, hqs, hread⟩ := writeEntries_reads hsize parts
    hparts 0 (zero, ticks 0) fun _ _ => rfl
  refine ⟨qs, h.partProbe_eq hlarge hsize (hqs.length_eq ▸ hlen) fun j => ?_, hqs⟩
  rw [← hread j, zero_add]
  rfl

end Written

/-- **Writing a GPT and probing the disk** gives back the partitions in their order, and the two
headers are sound. -/
theorem gpt_reads_back (drive : UInt8) (ticks : ℕ → UInt32) (d : Disk)
    (hpresent : d.present = true) (hlarge : 68 ≤ d.size) (hsize : d.size ≤ 2 ^ 28)
    (parts : List PartInfo) (hlen : parts.length ≤ 128) (hparts : ∀ p ∈ parts, Fits d.size p) :
    let w := partWriteGpt drive ticks d parts
    w.1 = 0 ∧ (∃ qs, partProbe w.2 = some ⟨.gpt, d.size, qs⟩ ∧ List.Forall₂ Same parts qs)
      ∧ HeaderOk w.2 1 ∧ HeaderOk w.2 (d.size - 1) := by
  obtain ⟨w, guid, heq, hw⟩ := partWriteGpt_written drive ticks parts hpresent hlarge hsize hlen
  have hword : d.size < 2 ^ 32 := by omega
  rw [heq]
  exact ⟨rfl, partProbe_written hw hlarge hword hlen hparts, hw.headerOk hlarge hword⟩

/-- An empty disk of the smallest size. -/
def blank : Disk := ⟨true, 68, zero⟩

/-- The only sector that is left for a partition, without a GUID of its own. -/
def bare : PartInfo := ⟨.gpt, 0, 0, 34, 1, [109, 97, 107, 97, 114], fun _ => 1, fun _ => 0⟩

theorem gpt_reads_back_blank :
    let w := partWriteGpt 0 (fun _ => 7) blank [{ bare with partGuid := fun i => UInt8.ofNat i }]
    w.1 = 0 ∧ (∃ qs, partProbe w.2 = some ⟨.gpt, 68, qs⟩
        ∧ List.Forall₂ Same [{ bare with partGuid := fun i => UInt8.ofNat i }] qs)
      ∧ HeaderOk w.2 1 ∧ HeaderOk w.2 67 :=
  gpt_reads_back 0 (fun _ => 7) blank rfl (by decide) (by decide) _ (by decide)
    (fun p hp => by
      obtain rfl := mem_singleton.1 hp
      exact ⟨by decide +kernel, by decide +kernel, by decide +kernel⟩)

/-- **A GUID that was left zero does not read back**: one has been made up for it. -/
theorem zero_guid_replaced :
    Fits 68 bare ∧ (partWriteGpt 0 (fun _ => 7) blank [bare]).1 = 0
      ∧ ∃ q, partProbe (partWriteGpt 0 (fun _ => 7) blank [bare]).2 = some ⟨.gpt, 68, [q]⟩
        ∧ bare.partGuid = (fun _ => 0) ∧ q.partGuid ≠ bare.partGuid := by
  have hfits : Fits 68 bare := ⟨by decide +kernel, by decide +kernel, by decide +kernel⟩
  obtain ⟨w, guid, heq, hw⟩ := partWriteGpt_written (d := blank) 0 (fun _ => 7) [bare]
    rfl (by decide) (by decide) (by decide)
  obtain ⟨qs, hqs, hsame⟩ := partProbe_written hw (by decide) (by decide) (by decide)
    fun p hp => by rwa [mem_singleton.1 hp]
  obtain ⟨q, qs', hq, hnil, rfl⟩ := forall₂_cons_left_iff.1 hsame
  obtain rfl := forall₂_nil_left_iff.1 hnil
  rw [heq]
  exact ⟨hfits, rfl, q, hqs, rfl, hq.made⟩

end Partition

end Makar
