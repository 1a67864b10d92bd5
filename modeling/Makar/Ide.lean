import Mathlib.Tactic

/-!
# Sectors through the IDE driver

A drive is a map from 28-bit addresses to sectors. A command reads or writes a range
of them and may fail; a write that fails leaves anything in its own range. The driver
first tries bus-master DMA, in pieces of sixty-four sectors through a bounce buffer,
and on any failure does the whole request again by polled input and output.

Both paths put the low 28 bits of the address into the registers and say nothing about
the rest. A polled write has one more gap, as the status after its last sector is never
read before the cache flush is issued, and so has every write, as the result of the
flush is not looked at. These are all: a request that returns 0 did what it should if
and only if it lies on the drive and neither of the two failed (`sectors_iff`).
-/

namespace Makar

namespace Ide

variable {S : Type}

/-- The number of sectors an address of 28 bits can name. -/
def lbaEnd : ℕ := 2 ^ 28

/-- `DMA_ATA_CHUNK_SECS` -/
def chunkSecs : ℕ := 64

/-- Which way the data goes. -/
inductive Direction
  | read
  | write
  deriving DecidableEq

/-- What the driver knows of a drive: whether it is there, whether it is an ATA drive, and
whether it and the controller can do DMA. -/
structure Drive where
  present : Bool
  ata : Bool
  dma : Bool

/-- What goes wrong. -/
structure Faults (S : Type) where
  /-- The first DMA transfer of the request that fails, by its number. -/
  dma : Option ℕ
  /-- The first error `ide_poll` reports while a polled transfer goes on, 0 for none. -/
  poll : ℕ
  /-- The polled write fails after its last sector. -/
  late : Bool
  /-- The cache flush fails. -/
  flush : Bool
  /-- What a failed command leaves in its range. -/
  left : ℕ → S

/-- The sectors of the drive, the caller's buffer, and whether the cache was flushed. -/
structure Mem (S : Type) where
  disk : ℕ → S
  buf : ℕ → S
  flushed : Bool

/-- Replace a range of sectors. -/
def put (d : ℕ → S) (a n : ℕ) (f : ℕ → S) : ℕ → S :=
  fun x => if a ≤ x ∧ x < a + n then f (x - a) else d x

namespace Mem

variable (m : Mem S) (x : Faults S) (dir : Direction)

/-- What a completed command does, between sectors from `a` on and the buffer from `off`
on. -/
def transfer (a off n : ℕ) : Mem S :=
  match dir with
  | .read => { m with buf := put m.buf off n fun i => m.disk (a + i) }
  | .write => { m with disk := put m.disk a n fun i => m.buf (off + i) }

/-- What a failed one does to the drive. A failed read may have filled a part of the buffer,
of which nothing is said. -/
def failed (a n : ℕ) : Mem S :=
  match dir with
  | .read => m
  | .write => { m with disk := put m.disk a n x.left }

/-- The cache flush after a write, whose result is ignored. -/
def flush : Mem S :=
  match dir with
  | .read => m
  | .write => { m with flushed := !x.flush }

end Mem

/-- One DMA transfer. The registers take the low 28 bits of the address, and the drive
refuses a range that leaves it. -/
def dmaCommand (x : Faults S) (dir : Direction) (k cur off secs : ℕ) (m : Mem S) : Bool × Mem S :=
  if x.dma = some k ∨ lbaEnd < cur % 2 ^ 28 + secs then (false, m.failed x dir (cur % 2 ^ 28) secs)
  else (true, m.transfer dir (cur % 2 ^ 28) off secs)

/-- The loop of `ide_dma_ata`. Each turn takes off a sector at least. -/
def dmaLoop (x : Faults S) (dir : Direction) : ℕ → ℕ → ℕ → ℕ → ℕ → Mem S → Bool × Mem S
  | 0, _, _, _, _, m => (true, m)
  | fuel + 1, k, cur, off, remaining, m =>
    if remaining = 0 then (true, m)
    else
      let secs := if chunkSecs < remaining then chunkSecs else remaining
      match dmaCommand x dir k cur off secs m with
      | (false, m) => (false, m)
      | (true, m) =>
        dmaLoop x dir fuel (k + 1) ((cur + secs) % 2 ^ 32) (off + secs) (remaining - secs) m

/-- `dma_ata_usable` -/
def Drive.dmaUsable (dr : Drive) : Bool := dr.present && dr.ata && dr.dma

/-- `ide_dma_ata` -/
def ideDmaAta (dr : Drive) (x : Faults S) (dir : Direction) (lba count : ℕ) (m : Mem S) : ℤ × Mem S :=
  if dr.dmaUsable = false then (-3, m)
  else if count = 0 then (0, m)
  else
    match dmaLoop x dir count 0 lba 0 count m with
    | (false, m) => (1, m)
    | (true, m) => (0, m.flush x dir)

/-- `ide_access` -/
def ideAccess (dr : Drive) (x : Faults S) (dir : Direction) (lba count : ℕ) (m : Mem S) : ℤ × Mem S :=
  if dr.present = false then (-1, m)
  else if dr.ata = false then (-2, m)
  else if count = 0 then (0, m)
  else
    let a := lba % 2 ^ 28
    if x.poll ≠ 0 then (x.poll, m.failed x dir a count)
    else if lbaEnd < a + count then (1, m.failed x dir a count)
    -- The last sector has gone out, and what the drive says of it is not read.
    else if dir = .write ∧ x.late then (0, (m.failed x dir a count).flush x dir)
    else (0, (m.transfer dir a 0 count).flush x dir)

/-- `ide_read_sectors` and `ide_write_sectors`, which differ in the direction. The reset
between the two attempts moves no data. -/
def ideSectors (dir : Direction) (dr : Drive) (x : Faults S) (lba count : ℕ) (m : Mem S) : ℤ × Mem S :=
  match ideDmaAta dr x dir lba count m with
  | (r, m) => if r ≠ 0 then ideAccess dr x dir lba count m else (r, m)

/-- `ide_read_sectors` -/
def ideReadSectors (dr : Drive) (x : Faults S) (lba count : ℕ) (m : Mem S) : ℤ × Mem S :=
  ideSectors .read dr x lba count m

/-- `ide_write_sectors` -/
def ideWriteSectors (dr : Drive) (x : Faults S) (lba count : ℕ) (m : Mem S) : ℤ × Mem S :=
  ideSectors .write dr x lba count m

/-! ## What a request should do -/

/-- **The buffer holds the sectors.** -/
def HasRead (lba count : ℕ) (m m' : Mem S) : Prop :=
  ∀ i < count, lba + i < lbaEnd ∧ m'.buf i = m.disk (lba + i)

/-- **The sectors hold the buffer**, the others are as before, and the cache was flushed. -/
structure HasWritten (lba count : ℕ) (m m' : Mem S) : Prop where
  data : ∀ i < count, lba + i < lbaEnd ∧ m'.disk (lba + i) = m.buf i
  others : ∀ a < lbaEnd, a < lba ∨ lba + count ≤ a → m'.disk a = m.disk a
  flushed : m'.flushed = true

/-- One of the DMA transfers from the `k`-th on fails. -/
def DmaFails (x : Faults S) (k count : ℕ) : Prop := ∃ j, x.dma = some j ∧ k ≤ j ∧ chunkSecs * j < count

/-- The request is done by polled transfers. -/
def Polled (dr : Drive) (x : Faults S) (count : ℕ) : Prop := dr.dmaUsable = false ∨ DmaFails x 0 count

/-! ## Pieces of a request -/

section Steps

variable {x : Faults S} {dir : Direction} {m m' : Mem S} {a n off lba count : ℕ}

/-- A piece and the next one are one transfer. -/
theorem transfer_add (m : Mem S) (dir : Direction) (a off n k : ℕ) :
    (m.transfer dir a off n).transfer dir (a + n) (off + n) k = m.transfer dir a off (n + k) := by
  cases dir <;>
  · simp only [Mem.transfer, Mem.mk.injEq, and_true, true_and]
    funext y
    simp only [put]
    -- The three ways a place can lie: in the first piece, in the second, in neither.
    split_ifs <;> first | rfl | omega | (congr 1; omega)

/-- What stays when a part of a range is transferred or fails: the side that is read,
and the drive outside of the range. -/
structure Within (dir : Direction) (lba count : ℕ) (m m' : Mem S) : Prop where
  source : dir = .read → m'.disk = m.disk
  buf : dir = .write → m'.buf = m.buf
  disk : ∀ y, y < lba ∨ lba + count ≤ y → m'.disk y = m.disk y

theorem Within.trans {m'' : Mem S} (h : Within dir lba count m m') (h' : Within dir lba count m' m'') :
    Within dir lba count m m'' :=
  ⟨fun e => (h'.source e).trans (h.source e), fun e => (h'.buf e).trans (h.buf e),
    fun y hy => (h'.disk y hy).trans (h.disk y hy)⟩

theorem put_of_notMem {d f : ℕ → S} {y : ℕ} (h : y < a ∨ a + n ≤ y) : put d a n f y = d y :=
  if_neg (by omega)

theorem within_transfer (ha : lba ≤ a) (hn : a + n ≤ lba + count) :
    Within dir lba count m (m.transfer dir a off n) := by
  cases dir with
  | read => exact ⟨fun _ => rfl, (fun e => by cases e), fun _ _ => rfl⟩
  | write =>
    refine ⟨(fun e => by cases e), fun _ => rfl, fun y hy => ?_⟩
    show put m.disk a n (fun i => m.buf (off + i)) y = m.disk y
    exact put_of_notMem (by omega)

theorem within_failed (ha : lba ≤ a) (hn : a + n ≤ lba + count) :
    Within dir lba count m (m.failed x dir a n) := by
  cases dir with
  | read => exact ⟨fun _ => rfl, (fun e => by cases e), fun _ _ => rfl⟩
  | write =>
    refine ⟨(fun e => by cases e), fun _ => rfl, fun y hy => ?_⟩
    show put m.disk a n _ y = m.disk y
    exact put_of_notMem (by omega)

/-- **The DMA loop** of a request that lies on the drive moves it as a whole, or fails with
the first transfer that does. -/
theorem dmaLoop_spec (dir : Direction) (hend : lba + count ≤ lbaEnd) {fuel k remaining : ℕ}
    (hfuel : remaining ≤ fuel)
    (hsum : off + remaining = count)
    (hk : off = chunkSecs * k ∨ remaining = 0 ∧ count ≤ chunkSecs * k) (m : Mem S) :
    (¬DmaFails x k count →
      dmaLoop x dir fuel k (lba + off) off remaining m
        = (true, m.transfer dir (lba + off) off remaining)) ∧
    (DmaFails x k count → ∃ m', dmaLoop x dir fuel k (lba + off) off remaining m = (false, m')
      ∧ Within dir lba count m m') := by
  have hzero : m.transfer dir (lba + off) off 0 = m := by
    cases dir <;>
    · simp only [Mem.transfer]
      congr 1
      funext y
      exact put_of_notMem (by omega)
  unfold lbaEnd at hend
  induction fuel generalizing k off remaining m with
  | zero =>
    obtain rfl : remaining = 0 := by omega
    refine ⟨fun _ => by rw [dmaLoop, hzero], fun ⟨j, _, hj, hlt⟩ => ?_⟩
    unfold chunkSecs at *
    omega
  | succ fuel ih =>
    rw [dmaLoop]
    by_cases hrem : remaining = 0
    · subst hrem
      refine ⟨fun _ => by rw [if_pos rfl, hzero], fun ⟨j, _, hj, hlt⟩ => ?_⟩
      unfold chunkSecs at *
      omega
    rw [if_neg hrem]
    have hoff : off = chunkSecs * k := hk.resolve_right fun h => hrem h.1
    obtain ⟨secs, hsecs⟩ : ∃ secs, secs = if chunkSecs < remaining then chunkSecs else remaining :=
      ⟨_, rfl⟩
    have hle : secs ≤ remaining ∧ 0 < secs ∧ (secs = chunkSecs ∨ secs = remaining ∧ secs ≤ chunkSecs) := by
      rw [hsecs]
      unfold chunkSecs
      split <;> omega
    have hmod : (lba + off) % 2 ^ 28 = lba + off := Nat.mod_eq_of_lt (by omega)
    have hnext : (lba + off + secs) % 2 ^ 32 = lba + (off + secs) := by
      rw [Nat.mod_eq_of_lt (by omega)]
      omega
    dsimp only
    rw [← hsecs, dmaCommand, hmod, hnext]
    clear hsecs
    by_cases hfail : x.dma = some k
    · -- This transfer is the one that fails.
      rw [if_pos (.inl hfail)]
      refine ⟨fun h => absurd ⟨k, hfail, le_rfl, by omega⟩ h, fun _ => ⟨_, rfl, ?_⟩⟩
      exact within_failed (by omega) (by omega)
    · rw [if_neg (by unfold lbaEnd; exact fun h => h.elim hfail (by omega))]
      have hstep : DmaFails x k count ↔ DmaFails x (k + 1) count := by
        constructor
        · rintro ⟨j, hj, hkj, hlt⟩
          have : j ≠ k := fun e => hfail (e ▸ hj)
          exact ⟨j, hj, by omega, hlt⟩
        · rintro ⟨j, hj, hkj, hlt⟩
          exact ⟨j, hj, by omega, hlt⟩
      have hzero' : (m.transfer dir (lba + off) off secs).transfer dir (lba + (off + secs))
          (off + secs) 0 = m.transfer dir (lba + off) off secs := by
        rw [← Nat.add_assoc, transfer_add, Nat.add_zero]
      obtain ⟨ihok, ihfail⟩ := ih (by omega : remaining - secs ≤ fuel)
        (by omega : off + secs + (remaining - secs) = count)
        (by unfold chunkSecs at *; omega : off + secs = chunkSecs * (k + 1)
          ∨ remaining - secs = 0 ∧ count ≤ chunkSecs * (k + 1))
        (m.transfer dir (lba + off) off secs) hzero'
      rw [hstep]
      dsimp only
      refine ⟨fun h => ?_, fun h => ?_⟩
      · rw [ihok h, ← Nat.add_assoc, transfer_add, Nat.add_sub_cancel' hle.1]
      · obtain ⟨m', heq, hw⟩ := ihfail h
        exact ⟨m', heq, (within_transfer (by omega) (by omega)).trans hw⟩

/-- **A request is one transfer of the whole**; or, polled and a write, one that failed after
its last sector. -/
def Ends (dir : Direction) (dr : Drive) (x : Faults S) (lba count : ℕ) (m : Mem S) : Prop :=
  ∃ m₁, Within dir lba count m m₁ ∧
    (((dir = .write → Polled dr x count → x.late = false)
        ∧ (ideSectors dir dr x lba count m).2 = (m₁.transfer dir lba 0 count).flush x dir)
      ∨ (dir = .write ∧ Polled dr x count ∧ x.late = true
        ∧ (ideSectors dir dr x lba count m).2 = (m₁.failed x dir lba count).flush x dir))

/-- How a request on the drive that returns 0 ends. -/
theorem ideSectors_cases (dr : Drive) (hc : 0 < count) (hend : lba + count ≤ lbaEnd) (m : Mem S)
    (hret : (ideSectors dir dr x lba count m).1 = 0) : Ends dir dr x lba count m := by
  have hmod : lba % 2 ^ 28 = lba := Nat.mod_eq_of_lt (by unfold lbaEnd at hend; omega)
  obtain ⟨hok, hfails⟩ := dmaLoop_spec (x := x) (k := 0) dir hend (le_refl count)
    (Nat.zero_add count) (.inl rfl) m
  rw [Nat.add_zero] at hok hfails
  -- By polling, from whatever the first attempt left.
  have hpolled : Polled dr x count → ∀ m₁, Within dir lba count m m₁ →
      (ideAccess dr x dir lba count m₁).1 = 0 →
      ideSectors dir dr x lba count m = ideAccess dr x dir lba count m₁ →
      Ends dir dr x lba count m := by
    intro hp m₁ hw h0 heq
    refine ⟨m₁, hw, ?_⟩
    rw [heq]
    unfold ideAccess at h0 ⊢
    dsimp only at h0 ⊢
    rw [hmod] at h0 ⊢
    split_ifs at h0 ⊢ with h1 h2 h3 h4 h5 h6
    · cases h0
    · cases h0
    · omega
    · exact absurd (Int.natCast_eq_zero.1 h0) h4
    · cases h0
    · exact .inr ⟨h6.1, hp, h6.2, rfl⟩
    · exact .inl ⟨fun hd _ => by simpa [hd] using h6, rfl⟩
  have heq : ideSectors dir dr x lba count m
      = if (ideDmaAta dr x dir lba count m).1 ≠ 0
        then ideAccess dr x dir lba count (ideDmaAta dr x dir lba count m).2
        else ideDmaAta dr x dir lba count m := rfl
  by_cases hu : dr.dmaUsable = false
  · have hdma : ideDmaAta dr x dir lba count m = (-3, m) := if_pos hu
    rw [hdma, if_pos (show (-3 : ℤ) ≠ 0 by decide)] at heq
    exact hpolled (.inl hu) m ⟨fun _ => rfl, fun _ => rfl, fun _ _ => rfl⟩ (heq ▸ hret) heq
  · by_cases hf : DmaFails x 0 count
    · obtain ⟨m₁, hloop, hw⟩ := hfails hf
      have hdma : ideDmaAta dr x dir lba count m = (1, m₁) := by
        rw [ideDmaAta, if_neg hu, if_neg (by omega), hloop]
      rw [hdma, if_pos (show (1 : ℤ) ≠ 0 by decide)] at heq
      exact hpolled (.inr hf) m₁ hw (heq ▸ hret) heq
    · have hdma : ideDmaAta dr x dir lba count m = (0, (m.transfer dir lba 0 count).flush x dir) := by
        rw [ideDmaAta, if_neg hu, if_neg (by omega), hok hf]
      rw [hdma, if_neg (show ¬(0 : ℤ) ≠ 0 by decide)] at heq
      refine ⟨m, ⟨fun _ => rfl, fun _ => rfl, fun _ _ => rfl⟩, .inl ⟨fun _ hp => ?_, by rw [heq]⟩⟩
      exact absurd hp (not_or.2 ⟨hu, hf⟩)

end Steps

/-! ## The two requests -/

/-- What was sent from the range is there, or not. -/
theorem hasWritten_iff {m m₁ m' : Mem S} {x : Faults S} (sent : ℕ → S)
    (hend : lba + count ≤ lbaEnd) (hw : Within .write lba count m m₁)
    (hdisk : m'.disk = put m₁.disk lba count sent) (hflush : m'.flushed = !x.flush) :
    HasWritten lba count m m' ↔ x.flush = false ∧ ∀ i < count, sent i = m.buf i := by
  have hin : ∀ i < count, m'.disk (lba + i) = sent i := by
    intro i hi
    rw [hdisk, put, if_pos (by omega), Nat.add_sub_cancel_left]
  constructor
  · intro h
    exact ⟨by simpa [hflush] using h.flushed, fun i hi => (hin i hi).symm.trans (h.data i hi).2⟩
  · rintro ⟨hf, hsent⟩
    refine ⟨fun i hi => ⟨by omega, (hin i hi).trans (hsent i hi)⟩, fun a _ ha => ?_,
      by rw [hflush, hf]; rfl⟩
    rw [hdisk, put_of_notMem ha, hw.disk a ha]

/-- **When a request that returns 0 did what it should.** For every drive, address, count,
buffer and failures. A read: if and only if the range lies on the drive. A write: if
moreover the flush succeeds and, where it is polled, the write does not fail after its
last sector with something else than the buffer on the drive. -/
theorem sectors_iff (dr : Drive) (x : Faults S) (lba count : ℕ) (hc : 0 < count) (m : Mem S) :
    ((ideReadSectors dr x lba count m).1 = 0 →
      (HasRead lba count m (ideReadSectors dr x lba count m).2 ↔ lba + count ≤ lbaEnd)) ∧
    ((ideWriteSectors dr x lba count m).1 = 0 →
      (HasWritten lba count m (ideWriteSectors dr x lba count m).2 ↔
        lba + count ≤ lbaEnd ∧ x.flush = false ∧
        (Polled dr x count → x.late = true → ∀ i < count, x.left i = m.buf i))) := by
  have hlast : ∀ P : ℕ → Prop, (∀ i < count, lba + i < lbaEnd ∧ P i) → lba + count ≤ lbaEnd := by
    intro P h
    have := (h (count - 1) (by omega)).1
    omega
  constructor
  · intro hret
    refine ⟨hlast _, fun hend i hi => ⟨by omega, ?_⟩⟩
    obtain ⟨m₁, hw, ⟨-, heq⟩ | ⟨hd, -⟩⟩ := ideSectors_cases dr hc hend m hret
    · rw [ideReadSectors, heq]
      show put m₁.buf 0 count (fun i => m₁.disk (lba + i)) i = _
      rw [put, if_pos (by omega), hw.source rfl, Nat.sub_zero]
    · cases hd
  · intro hret
    by_cases hend : lba + count ≤ lbaEnd
    swap
    · exact ⟨fun h => absurd (hlast _ h.data) hend, fun h => absurd h.1 hend⟩
    obtain ⟨m₁, hw, ⟨hlate, heq⟩ | ⟨-, hp, hlate, heq⟩⟩ := ideSectors_cases dr hc hend m hret
    · rw [ideWriteSectors, heq, hasWritten_iff (fun i => m₁.buf (0 + i)) hend hw rfl rfl]
      refine ⟨fun h => ⟨hend, h.1, fun hp hl => ?_⟩, fun h => ⟨h.2.1, fun i _ => ?_⟩⟩
      · rw [hlate rfl hp] at hl
        cases hl
      · rw [hw.buf rfl, Nat.zero_add]
    · rw [ideWriteSectors, heq, hasWritten_iff x.left hend hw rfl rfl]
      exact ⟨fun h => ⟨hend, h.1, fun _ _ => h.2⟩, fun h => ⟨h.2.1, h.2.2 hp hlate⟩⟩

/-- Every sector holds its own number, and the buffer a hundred. -/
def numbered : Mem ℕ := ⟨id, fun _ => 100, false⟩

/-- The second DMA transfer fails, and polling succeeds. -/
def retried : Faults ℕ := ⟨some 1, 0, false, false, fun _ => 7⟩

theorem sectors_iff_retried :
    HasWritten 1000 200 numbered (ideWriteSectors ⟨true, true, true⟩ retried 1000 200 numbered).2 :=
  ((sectors_iff ⟨true, true, true⟩ retried 1000 200 (by decide) numbered).2
    (by decide +kernel)).2 ⟨by decide, rfl, fun _ h => nomatch h⟩

/-- **Sector 0 is returned for the first address past the drive.** -/
theorem read_wraps :
    (ideReadSectors ⟨true, true, false⟩ ⟨none, 0, false, false, fun _ => 0⟩ (2 ^ 28) 1 numbered).1 = 0
      ∧ (ideReadSectors ⟨true, true, false⟩ ⟨none, 0, false, false, fun _ => 0⟩ (2 ^ 28) 1
          numbered).2.buf 0 = 0
      ∧ ¬HasRead (2 ^ 28) 1 numbered (ideReadSectors ⟨true, true, false⟩
          ⟨none, 0, false, false, fun _ => 0⟩ (2 ^ 28) 1 numbered).2 := by
  refine ⟨by decide +kernel, by decide +kernel, fun h => ?_⟩
  have := (h 0 (by decide)).1
  unfold lbaEnd at this
  omega

end Ide

end Makar
