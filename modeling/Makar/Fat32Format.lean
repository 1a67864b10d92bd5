import Makar.Buffer

/-!
# Formatting a partition

`fat32_mkfs` takes the size of a cluster from the size of the partition and computes the rest of
the geometry from it; `fat32_mount` computes it again from the boot sector. Whenever the first
one accepts a size the second one agrees, the FAT has room for every cluster, and nothing lies
outside the partition.

But the cluster grows faster than the partition. Just above a size at which the next larger
cluster begins there are not enough clusters for a FAT32, so that 131073 sectors are refused
after 131072 were formatted (`mkfs_refuses_larger`). `mkfs_sizes_iff` says for which sizes there
is no such smaller one.
-/

namespace Makar

open Buf List

namespace Fat32

/-- The size of a cluster, in sectors. -/
def spcOf (n : ℕ) : ℕ :=
  if n ≤ 131072 then 1 else if n ≤ 524288 then 4 else if n ≤ 4194304 then 8 else 16

/-- The size of a FAT, in sectors. -/
def spfOf (n : ℕ) : ℕ := ((n - 32) / spcOf n * 4 + 511) / 512 + 1

/-- The number of clusters. -/
def totalClusters (n : ℕ) : ℕ := (n - 32 - 2 * spfOf n) / spcOf n

/-- The boot sector. -/
def bootSector (partLba n : ℕ) : Buf :=
  let b := blit (put (put (put zero 0 0xEB) 1 0x58) 2 0x90) 3 "MSDOS5.0".toUTF8.toList
  let b := put (wr16 (put (wr16 b 11 512) 13 (.ofNat (spcOf n))) 14 32) 16 2
  let b := wr16 (put (wr16 (wr16 b 17 0) 19 0) 21 0xF8) 22 0
  let b := wr32 (wr32 (wr32 (wr16 (wr16 b 24 63) 26 255) 28 partLba) 32 n) 36 (spfOf n)
  let b := wr16 (wr16 (wr32 (wr16 (wr16 b 40 0) 42 0) 44 2) 48 1) 50 6
  let b := wr32 (put (put b 64 0x80) 66 0x29) 67 (partLba ^^^ 0xA5A5A5A5)
  let b := blit (blit b 71 "MAKAR      ".toUTF8.toList) 82 "FAT32   ".toUTF8.toList
  put (put b 510 0x55) 511 0xAA

/-- The FSInfo sector. -/
def fsInfo (n : ℕ) : Buf :=
  wr32 (wr32 (wr32 (wr32 (wr32 zero 0 0x41615252) 484 0x61417272) 488 (totalClusters n - 1)) 492 3)
    508 0xAA550000

/-- The first sector of a FAT. -/
def fatStart : Buf := wr32 (wr32 (wr32 zero 0 0x0FFFFFF8) 4 0x0FFFFFFF) 8 0x0FFFFFFF

/-- The sectors that are written behind the boot sector, by their place in the partition. -/
def writes (partLba n : ℕ) : List (ℕ × Buf) :=
  (6, bootSector partLba n) :: (1, fsInfo n) :: (32, fatStart) :: (32 + spfOf n, fatStart)
    :: (List.range' 1 (spfOf n - 1)).flatMap (fun i => [(32 + i, zero), (32 + spfOf n + i, zero)])
    ++ (List.range (spcOf n)).map fun s => (32 + 2 * spfOf n + s, zero)

/-- A disk, by sectors. -/
abbrev Disk := ℕ → Buf

/-- Sectors are written to a partition until a write fails. -/
def writeAll (ok : ℕ → Bool) (partLba : ℕ) : List (ℕ × Buf) → Disk → ℤ × Disk
  | [], d => (0, d)
  | (o, b) :: ws, d =>
    let lba := (partLba + o) % 2 ^ 32
    if ok lba then writeAll ok partLba ws (Function.update d lba b) else (-2, d)

/-- `fat32_mkfs`, on a disk that can write to some sectors. -/
def mkfs (ok : ℕ → Bool) (partLba n : ℕ) (d : Disk) : ℤ × Disk :=
  if n < 66000 then (-6, d)
  else if totalClusters n < 65525 then (-6, d)
  else writeAll ok partLba ((0, bootSector partLba n) :: writes partLba n) d

/-- The fields of `fat32_vol_t` that are read from the disk or computed from it. -/
structure Volume where
  partLba : ℕ
  spc : ℕ
  rsvd : ℕ
  nfats : ℕ
  spf : ℕ
  rootCluster : ℕ
  fatLba : ℕ
  dataLba : ℕ
  totalClusters : ℕ

/-- `fat32_mount` -/
def mount (d : Disk) (partLba : ℕ) : Option Volume :=
  let b := d partLba
  let total := if rd16 b 19 ≠ 0 then rd16 b 19 else rd32 b 32
  if b 510 ≠ 0x55 ∨ b 511 ≠ 0xAA then none
  else if rd16 b 11 ≠ 512 ∨ b 13 = 0 ∨ rd16 b 14 = 0 ∨ b 16 = 0 ∨ rd16 b 17 ≠ 0 ∨ rd16 b 22 ≠ 0
    ∨ rd32 b 36 = 0 then none
  else if total = 0 then none
  else some {
    partLba := partLba
    spc := (b 13).toNat
    rsvd := rd16 b 14
    nfats := (b 16).toNat
    spf := rd32 b 36
    rootCluster := rd32 b 44
    fatLba := (partLba + rd16 b 14) % 2 ^ 32
    dataLba := (partLba + rd16 b 14 + (b 16).toNat * rd32 b 36) % 2 ^ 32
    totalClusters := (total + 2 ^ 33 - rd16 b 14 - (b 16).toNat * rd32 b 36 % 2 ^ 32) % 2 ^ 32
      / (b 13).toNat }

/-- **The volume a format is for.** -/
def volume (partLba n : ℕ) : Volume where
  partLba := partLba
  spc := spcOf n
  rsvd := 32
  nfats := 2
  spf := spfOf n
  rootCluster := 2
  fatLba := (partLba + 32) % 2 ^ 32
  dataLba := (partLba + 32 + 2 * spfOf n) % 2 ^ 32
  totalClusters := totalClusters n

/-! ## The geometry -/

variable {partLba n : ℕ} {d : Disk} {ok : ℕ → Bool}

/-- The sizes that are formatted. -/
def Accepted (n : ℕ) : Prop := 66000 ≤ n ∧ 65525 ≤ totalClusters n

theorem accepted_iff : Accepted n ↔ 66601 ≤ n ∧ n ≤ 131072 ∨ 263162 ≤ n ∧ n ≤ 524288
    ∨ 525260 ≤ n := by
  unfold Accepted totalClusters spfOf spcOf
  split_ifs <;> omega

/-- The regions of a partition that is formatted: they fit, and the FAT has an entry for each
cluster. -/
theorem Accepted.fits (h : Accepted n) (hn : n < 2 ^ 32) :
    32 + 2 * spfOf n + totalClusters n * spcOf n ≤ n ∧ 4 * (totalClusters n + 2) ≤ 512 * spfOf n
      ∧ spfOf n < 2 ^ 22 ∧ spcOf n < 256 ∧ 0 < spcOf n := by
  rw [accepted_iff] at h
  unfold totalClusters spfOf spcOf
  split_ifs <;> omega

/-- The boot sector is read back. -/
theorem mount_bootSector (h : Accepted n) (hn : n < 2 ^ 32) (hd : d partLba = bootSector partLba n) :
    mount d partLba = some (volume partLba n) := by
  obtain ⟨hfit, -, hspf, hspc, hpos⟩ := h.fits hn
  have h13 : (bootSector partLba n 13).toNat = spcOf n := by
    show (UInt8.ofNat (spcOf n)).toNat = spcOf n
    rw [UInt8.toNat_ofNat']
    omega
  have h32 : rd32 (bootSector partLba n) 32 = n := rd32_wr32 (b := zero) (o := 32) hn
  have h36 : rd32 (bootSector partLba n) 36 = spfOf n :=
    rd32_wr32 (b := zero) (o := 36) (by omega)
  have hconst : bootSector partLba n 510 = 0x55 ∧ bootSector partLba n 511 = 0xAA
      ∧ rd16 (bootSector partLba n) 11 = 512 ∧ rd16 (bootSector partLba n) 14 = 32
      ∧ bootSector partLba n 16 = 2 ∧ rd16 (bootSector partLba n) 17 = 0
      ∧ rd16 (bootSector partLba n) 19 = 0 ∧ rd16 (bootSector partLba n) 22 = 0
      ∧ rd32 (bootSector partLba n) 44 = 2 := ⟨rfl, rfl, rfl, rfl, rfl, rfl, rfl, rfl, rfl⟩
  obtain ⟨h510, h511, h11, h14, h16, h17, h19, h22, h44⟩ := hconst
  generalize bootSector partLba n = b at *
  have h0 : b 13 ≠ 0 := fun h0 => by
    rw [h0] at h13
    exact hpos.ne h13
  have hn0 : n ≠ 0 := by omega
  have hspf0 : spfOf n ≠ 0 := Nat.succ_ne_zero _
  have htotal : (n + 2 ^ 33 - 32 - 2 * spfOf n % 2 ^ 32) % 2 ^ 32 = n - 32 - 2 * spfOf n := by omega
  unfold mount volume totalClusters
  simp only [hd, h510, h511, h11, h13, h14, h16, h17, h19, h22, h32, h36, h44, h0, hn0, hspf0, ne_eq,
    not_true_eq_false, or_self, if_false, UInt8.reduceToNat, OfNat.ofNat_ne_zero, htotal]
  exact if_neg (by decide)

/-! ## The format -/

/-- Every sector behind the boot sector is in the partition. -/
theorem Accepted.place (h : Accepted n) (hn : n < 2 ^ 32) (partLba : ℕ) :
    ∀ w ∈ writes partLba n, 0 < w.1 ∧ w.1 < n := by
  obtain ⟨hfit, -, -, -, hpos⟩ := h.fits hn
  have hone : spcOf n ≤ totalClusters n * spcOf n :=
    Nat.le_mul_of_pos_left _ (Nat.zero_lt_of_lt h.2)
  have hspf : 1 ≤ spfOf n := Nat.succ_pos _
  simp only [writes, forall_mem_cons, forall_mem_append, forall_mem_flatMap,
    forall_mem_map, mem_range'_1, mem_range, cons_append]
  refine ⟨by omega, by omega, by omega, by omega, fun i hi => ⟨by omega, by omega, ?_⟩,
    fun s hs => by omega⟩
  simp

theorem writeAll_of_ne (ws : List (ℕ × Buf)) {lba : ℕ}
    (hws : ∀ w ∈ ws, (partLba + w.1) % 2 ^ 32 ≠ lba) : (writeAll ok partLba ws d).2 lba = d lba := by
  induction ws generalizing d with
  | nil => rfl
  | cons w ws ih =>
    unfold writeAll
    dsimp only
    split_ifs
    · rw [ih fun w hw => hws w (mem_cons_of_mem _ hw),
        Function.update_of_ne (hws w mem_cons_self).symm]
    · rfl

theorem writeAll_true (ws : List (ℕ × Buf)) : (writeAll (fun _ => true) partLba ws d).1 = 0 := by
  induction ws generalizing d with
  | nil => rfl
  | cons w ws ih => exact ih

/-- A size that a disk without faults accepts. -/
def Accepts (partLba n : ℕ) : Prop := ∀ d, (mkfs (fun _ => true) partLba n d).1 = 0

/-- **A format is sound**: it is mounted as the volume it is for, which has an entry of the FAT for
every cluster and lies in the partition. -/
def Sound (partLba n : ℕ) : Prop :=
  ∀ ok d, (mkfs ok partLba n d).1 = 0 →
    mount (mkfs ok partLba n d).2 partLba = some (volume partLba n)
      ∧ 4 * (totalClusters n + 2) ≤ 512 * spfOf n
      ∧ 32 + 2 * spfOf n + totalClusters n * spcOf n ≤ n ∧ ∀ w ∈ writes partLba n, w.1 < n

theorem mkfs_of_accepted (h : Accepted n) : mkfs ok partLba n d
    = writeAll ok partLba ((0, bootSector partLba n) :: writes partLba n) d := by
  unfold mkfs
  rw [if_neg (not_lt.2 h.1), if_neg (not_lt.2 h.2)]

theorem accepted_of_mkfs (h : (mkfs ok partLba n d).1 = 0) : Accepted n := by
  unfold mkfs at h
  split_ifs at h with h1 h2
  · cases h
  · cases h
  · exact ⟨not_lt.1 h1, not_lt.1 h2⟩

theorem accepts_iff : Accepts partLba n ↔ Accepted n :=
  ⟨fun h => accepted_of_mkfs (h fun _ => zero), fun h d => by
    rw [mkfs_of_accepted h]
    exact writeAll_true _⟩

theorem sound (hp : partLba < 2 ^ 32) (hn : n < 2 ^ 32) : Sound partLba n := by
  intro ok d hok
  have h := accepted_of_mkfs hok
  obtain ⟨hfit, hfat, -⟩ := h.fits hn
  have hplace := h.place hn partLba
  refine ⟨mount_bootSector h hn ?_, hfat, hfit, fun w hw => (hplace w hw).2⟩
  rw [mkfs_of_accepted h] at hok ⊢
  unfold writeAll at hok ⊢
  dsimp only at hok ⊢
  rw [Nat.add_zero, Nat.mod_eq_of_lt hp] at hok ⊢
  split_ifs at hok ⊢
  · rw [writeAll_of_ne, Function.update_self]
    intro w hw
    have := hplace w hw
    omega
  · cases hok

/-- **Every format is sound, and a size is accepted if a smaller one is**, exactly if it does not
lie in a gap above a size at which the cluster grows. -/
theorem mkfs_sizes_iff (partLba n : ℕ) (hp : partLba < 2 ^ 32) (hn : n < 2 ^ 32) :
    Sound partLba n ∧ (∀ m < n, Accepts partLba m → Accepts partLba n)
      ↔ n ≤ 131072 ∨ 263162 ≤ n ∧ n ≤ 524288 ∨ 525260 ≤ n := by
  simp only [accepts_iff, accepted_iff]
  constructor
  · rintro ⟨-, hup⟩
    have := hup 131072
    omega
  · intro h
    exact ⟨sound hp hn, fun m hm hacc => by omega⟩

/-- Half a gibibyte and the gap below it. -/
theorem mkfs_sizes_at_gap : (Sound 2048 (2 ^ 20) ∧ ∀ m < 2 ^ 20, Accepts 2048 m → Accepts 2048 (2 ^ 20))
    ∧ ¬ (Sound 2048 525000 ∧ ∀ m < 525000, Accepts 2048 m → Accepts 2048 525000) :=
  ⟨(mkfs_sizes_iff 2048 (2 ^ 20) (by decide) (by decide)).2 (by decide),
    fun h => absurd ((mkfs_sizes_iff 2048 525000 (by decide) (by decide)).1 h) (by decide)⟩

/-- **A larger partition is refused.** -/
theorem mkfs_refuses_larger : Accepts 2048 131072 ∧ ¬ Accepts 2048 131073 := by
  rw [accepts_iff, accepts_iff, accepted_iff, accepted_iff]
  decide

end Fat32

end Makar
