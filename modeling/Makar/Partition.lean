import Makar.Buffer

/-!
# Partition tables

The model of `drivers/partition.c`: reading the partition table of a disk, and writing an MBR or a
GPT. A disk is its number of sectors and its bytes, sector after sector; transfers do not fail on a
drive that is present, which is a disk and no packet device. The controller is sent 28 bits of the
sector's number.

A GPT is written twice. The entries, 128 of 128 bytes, stand behind the first header and before the
last one, and each header carries a CRC of its own 92 bytes and one of the entries. `part_probe`
reads the first copy and does not look at the sums.
-/

namespace Makar

namespace Partition

open Buf

/-! ## CRC-32 -/

/-- One bit of `crc32_buf`: the polynomial is masked with the bit that falls out. -/
def crcBit (crc : UInt32) : UInt32 := (crc >>> 1) ^^^ (0xEDB88320 &&& (0 - (crc &&& 1)))

/-- One byte of `crc32_buf`. -/
def crcByte (crc : UInt32) (x : UInt8) : UInt32 :=
  (List.range 8).foldl (fun c _ => crcBit c) (crc ^^^ x.toUInt32)

/-- `crc32_buf` -/
def crc32Buf (xs : List UInt8) : ℕ := (xs.foldl crcByte 0xFFFFFFFF ^^^ 0xFFFFFFFF).toNat

/-! ## Disks -/

/-- A drive: whether it is there, its sectors, and its bytes. -/
structure Disk where
  present : Bool
  size : ℕ
  bytes : Buf

namespace Disk

variable (d : Disk)

/-- `ide_read_sectors`, of a transfer that succeeds -/
def readSectors (lba n : ℕ) : Buf :=
  fun k => if k < 512 * n then d.bytes (512 * (lba % 2 ^ 28) + k) else 0

/-- `ide_write_sectors`, of a transfer that succeeds -/
def writeSectors (lba n : ℕ) (b : Buf) : Disk :=
  { d with bytes := fun k =>
      if 512 * (lba % 2 ^ 28) ≤ k ∧ k < 512 * (lba % 2 ^ 28 + n) then b (k - 512 * (lba % 2 ^ 28))
      else d.bytes k }

end Disk

/-- Write a 64-bit number whose upper half is zero. -/
def wr64 (b : Buf) (o v : ℕ) : Buf := wr32 (wr32 b o v) (o + 4) 0

/-! ## Entries -/

/-- A GUID, as it is on the disk. -/
abbrev Guid := Fin 16 → UInt8

/-- The 16 bytes at an offset. -/
def guidAt (b : Buf) (o : ℕ) : Guid := fun i => b (o + i)

/-- Copy a GUID into a buffer. -/
def putGuid (b : Buf) (o : ℕ) (g : Guid) : Buf := blit b o (List.ofFn g)

/-- `PART_SCHEME_NONE`, `PART_SCHEME_MBR` and `PART_SCHEME_GPT` -/
inductive Scheme
  | none
  | mbr
  | gpt
  deriving DecidableEq, Repr

/-- `part_info_t`. The name is what stands before the terminator. -/
structure PartInfo where
  scheme : Scheme
  mbrType : UInt8
  bootable : UInt8
  lbaStart : ℕ
  lbaCount : ℕ
  name : List UInt8
  typeGuid : Guid
  partGuid : Guid
  deriving DecidableEq

/-- `disk_parts_t` -/
structure DiskParts where
  scheme : Scheme
  totalSectors : ℕ
  parts : List PartInfo

/-- `PART_MAX_ENTRIES` -/
def maxEntries : ℕ := 128

/-- `guid_gen`: a GUID from the clock, a number that tells the callers apart and the seed, and the
new seed. The version and the variant are stamped into two of its bytes. -/
def guidGen (ticks discriminator seed : UInt32) : Guid × UInt32 :=
  let a := ticks ^^^ discriminator ^^^ seed ^^^ 0xDEADBEEF
  let b := a * 1664525 + 1013904223
  let c := b * 22695477 + 1
  let d := c * 1103515245 + 12345
  let buf := wr32 (wr32 (wr32 (wr32 zero 0 a.toNat) 4 b.toNat) 8 c.toNat) 12 d.toNat
  let buf := put buf 6 ((buf 6 &&& 0x0F) ||| 0x40)
  let buf := put buf 8 ((buf 8 &&& 0x3F) ||| 0x80)
  (guidAt buf 0, d)

/-- `gpt_name_to_ascii`: up to 36 units of two bytes, to the first that is zero. -/
def gptNameToAscii (b : Buf) (o : ℕ) : List UInt8 :=
  (((List.range 36).map fun i => rd16 b (o + 2 * i)).takeWhile (· ≠ 0)).map
    fun c => if c < 0x80 then UInt8.ofNat c else 63

/-! ## Reading a table -/

/-- One entry of an MBR, when it is not empty. -/
def mbrEntry (sector0 : Buf) (i : ℕ) : Option PartInfo :=
  let base := 0x1BE + i * 16
  if sector0 (base + 4) = 0 then none
  else some
    { scheme := .mbr
      mbrType := sector0 (base + 4)
      bootable := if sector0 base = 0x80 then 1 else 0
      lbaStart := rd32 sector0 (base + 8)
      lbaCount := rd32 sector0 (base + 12)
      name := []
      typeGuid := fun _ => 0
      partGuid := fun _ => 0 }

/-- `parse_mbr` -/
def parseMbr (sector0 : Buf) (total : ℕ) : DiskParts :=
  ⟨.mbr, total, (List.range 4).filterMap (mbrEntry sector0)⟩

/-- One entry of a GPT, when it is used. -/
def gptEntry (entries : Buf) (i : ℕ) : Option PartInfo :=
  let e := 128 * i
  if guidAt entries e = fun _ => 0 then none
  else some
    { scheme := .gpt
      mbrType := 0
      bootable := 0
      lbaStart := rd32 entries (e + 32)
      lbaCount := (rd32 entries (e + 40) + 2 ^ 32 - rd32 entries (e + 32) + 1) % 2 ^ 32
      name := gptNameToAscii entries (e + 56)
      typeGuid := guidAt entries e
      partGuid := guidAt entries (e + 16) }

/-- `EFI PART` -/
def gptSig : List UInt8 := [69, 70, 73, 32, 80, 65, 82, 84]

/-- `parse_gpt`: none when the header is not one the driver reads. -/
def parseGpt (d : Disk) (hdr : Buf) : Option DiskParts :=
  if slice hdr 0 8 ≠ gptSig then none
  else
    let numEntries := rd32 hdr 80
    let entrySize := rd32 hdr 84
    let entriesStart := rd32 hdr 72
    if entrySize ≠ 128 ∨ maxEntries < numEntries then none
    else
      let entries := d.readSectors entriesStart (min ((numEntries * entrySize + 511) / 512) 32)
      some ⟨.gpt, d.size, ((List.range numEntries).filterMap (gptEntry entries)).take maxEntries⟩

/-- `part_probe`: none when there is no drive. -/
def partProbe (d : Disk) : Option DiskParts :=
  if ¬d.present then none
  else
    let sector0 := d.readSectors 0 1
    if sector0 510 ≠ 0x55 ∨ sector0 511 ≠ 0xAA then some ⟨.none, d.size, []⟩
    else if sector0 (0x1BE + 4) = 0xEE then
      match parseGpt d (d.readSectors 1 1) with
      | some parts => some parts
      | none => some (parseMbr sector0 d.size)
    else some (parseMbr sector0 d.size)

/-! ## Writing a table -/

/-- The protective MBR. -/
def protectiveMbr (sectors : ℕ) : Buf :=
  let b := put (put (put (put zero 0x1BE 0) (0x1BE + 1) 0) (0x1BE + 2) 2) (0x1BE + 3) 0
  let b := put b (0x1BE + 4) 0xEE
  let b := put (put (put b (0x1BE + 5) 0xFF) (0x1BE + 6) 0xFF) (0x1BE + 7) 0xFF
  let b := wr32 b (0x1BE + 8) 1
  let b := wr32 b (0x1BE + 12) (if 1 < sectors then sectors - 1 else 0xFFFFFFFF)
  put (put b 510 0x55) 511 0xAA

/-- One entry is written into the buffer. A partition without a GUID gets one. -/
def writeEntry (drive : UInt8) (ticks : ℕ → UInt32) (s : Buf × UInt32) (p : PartInfo × ℕ) :
    Buf × UInt32 :=
  let e := 128 * p.2
  let b := putGuid (putGuid s.1 e p.1.typeGuid) (e + 16) p.1.partGuid
  let g := guidGen (ticks (p.2 + 1)) (UInt32.ofNat p.2 * 0x1000 + drive.toUInt32) s.2
  let s := if p.1.partGuid = fun _ => 0 then (putGuid b (e + 16) g.1, g.2) else (b, s.2)
  let b := wr64 s.1 (e + 32) p.1.lbaStart
  let b := wr64 b (e + 40) ((p.1.lbaStart + p.1.lbaCount + 2 ^ 32 - 1) % 2 ^ 32)
  let b := wr64 b (e + 48) 0
  (blit b (e + 56) (((p.1.name.takeWhile (· ≠ 0)).take 36).flatMap fun c => [c, 0]), s.2)

/-- The entries, and the seed afterwards. -/
def writeEntries (drive : UInt8) (ticks : ℕ → UInt32) (parts : List PartInfo) : Buf × UInt32 :=
  parts.zipIdx.foldl (writeEntry drive ticks) (zero, ticks 0)

/-- A GPT header at `lba`, whose other copy is at `other`, before its CRC is known. -/
def gptHeaderBody (sectors lba other entriesLba : ℕ) (guid : Guid) (entriesCrc : ℕ) : Buf :=
  let b := blit zero 0 gptSig
  let b := wr32 b 8 0x00010000
  let b := wr32 b 12 92
  let b := wr32 b 16 0
  let b := wr32 b 20 0
  let b := wr64 b 24 lba
  let b := wr64 b 32 other
  let b := wr64 b 40 34
  let b := wr64 b 48 (sectors - 34)
  let b := putGuid b 56 guid
  let b := wr64 b 72 entriesLba
  let b := wr32 b 80 128
  let b := wr32 b 84 128
  wr32 b 88 entriesCrc

/-- A GPT header with its CRC. -/
def gptHeader (sectors lba other entriesLba : ℕ) (guid : Guid) (entriesCrc : ℕ) : Buf :=
  let b := gptHeaderBody sectors lba other entriesLba guid entriesCrc
  wr32 b 16 (crc32Buf (slice b 0 92))

/-- `part_write_gpt`: the status and the disk. The clock is read once for the seed and once for
every GUID that is made up. -/
def partWriteGpt (drive : UInt8) (ticks : ℕ → UInt32) (d : Disk) (parts : List PartInfo) :
    ℤ × Disk :=
  if 128 < parts.length then (-1, d)
  else if ¬d.present then (-1, d)
  else if d.size < 68 then (-1, d)
  else
    let n := d.size
    let d := d.writeSectors 0 1 (protectiveMbr n)
    let es := writeEntries drive ticks parts
    let crc := crc32Buf (slice es.1 0 (128 * 128))
    let d := d.writeSectors 2 32 es.1
    let d := d.writeSectors (n - 33) 32 es.1
    let guid := (guidGen (ticks 129) (drive.toUInt32 <<< 24) es.2).1
    let d := d.writeSectors 1 1 (gptHeader n 1 (n - 1) 2 guid crc)
    (0, d.writeSectors (n - 1) 1 (gptHeader n (n - 1) 1 (n - 33) guid crc))

end Partition

end Makar
