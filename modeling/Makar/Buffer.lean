import Mathlib.Tactic
import Mathlib.Data.List.GetD

/-!
# Buffers of bytes

A block or a sector that a driver has read is a buffer of bytes, and the fields of the
structures in it are little-endian numbers at some offset. A field that is written reads
back, as far as its width goes; every other field is left alone when the two share no byte.

The second half is always the same argument, so it is stated once for every reader: what a
reader gives depends on the bytes it reads (`rd16_congr`, `rd32_congr`, `slice_congr`), and a
writer changes the bytes it writes and no others (`wr16_of_notMem`, `wr32_of_notMem`,
`blit_of_notMem`).
-/

namespace Makar

open List

/-- A buffer of bytes, by offset. -/
abbrev Buf := ℕ → UInt8

namespace Buf

variable {b b' : Buf} {o k n v : ℕ} {xs : List UInt8}

/-- The 16-bit number at an offset. -/
def rd16 (b : Buf) (o : ℕ) : ℕ := (b o).toNat + 256 * (b (o + 1)).toNat

/-- The 32-bit number at an offset. -/
def rd32 (b : Buf) (o : ℕ) : ℕ := rd16 b o + 65536 * rd16 b (o + 2)

/-- Write a 16-bit number. -/
def wr16 (b : Buf) (o v : ℕ) : Buf := fun k =>
  if k = o then UInt8.ofNat v else if k = o + 1 then UInt8.ofNat (v / 256) else b k

/-- Write a 32-bit number. -/
def wr32 (b : Buf) (o v : ℕ) : Buf := wr16 (wr16 b o v) (o + 2) (v / 65536)

/-- Write one byte. -/
def put (b : Buf) (o : ℕ) (x : UInt8) : Buf := fun k => if k = o then x else b k

/-- The `n` bytes from an offset on. -/
def slice (b : Buf) (o n : ℕ) : List UInt8 := (List.range n).map fun i => b (o + i)

/-- Copy bytes into the buffer. -/
def blit (b : Buf) (o : ℕ) (xs : List UInt8) : Buf := fun k =>
  if o ≤ k ∧ k < o + xs.length then xs.getD (k - o) 0 else b k

/-- The buffer of zeros. -/
def zero : Buf := fun _ => 0

/-! ## What a reader depends on -/

theorem rd16_congr (h : ∀ k, o ≤ k → k < o + 2 → b k = b' k) : rd16 b o = rd16 b' o := by
  simp only [rd16, h o (by omega) (by omega), h (o + 1) (by omega) (by omega)]

theorem rd32_congr (h : ∀ k, o ≤ k → k < o + 4 → b k = b' k) : rd32 b o = rd32 b' o := by
  have h1 : rd16 b o = rd16 b' o := rd16_congr fun k hk hk' => h k hk (by omega)
  have h2 : rd16 b (o + 2) = rd16 b' (o + 2) :=
    rd16_congr fun k hk hk' => h k (by omega) (by omega)
  rw [rd32, rd32, h1, h2]

theorem slice_congr (h : ∀ k, o ≤ k → k < o + n → b k = b' k) : slice b o n = slice b' o n :=
  map_congr_left fun i hi => by
    have hi : i < n := mem_range.1 hi
    exact h (o + i) (by omega) (by omega)

theorem rd16_lt (b : Buf) (o : ℕ) : rd16 b o < 65536 := by
  have h1 : (b o).toNat < 256 := (b o).toNat_lt
  have h2 : (b (o + 1)).toNat < 256 := (b (o + 1)).toNat_lt
  unfold rd16
  omega

theorem rd32_lt (b : Buf) (o : ℕ) : rd32 b o < 2 ^ 32 := by
  have h1 := rd16_lt b o
  have h2 := rd16_lt b (o + 2)
  unfold rd32
  omega

@[simp] theorem length_slice (b : Buf) (o n : ℕ) : (slice b o n).length = n := by
  simp [slice]

/-! ## What a writer changes -/

theorem wr16_of_notMem (h : k < o ∨ o + 2 ≤ k) : wr16 b o v k = b k := by
  rw [wr16, if_neg (by omega), if_neg (by omega)]

theorem wr32_of_notMem (h : k < o ∨ o + 4 ≤ k) : wr32 b o v k = b k := by
  rw [wr32, wr16_of_notMem (by omega), wr16_of_notMem (by omega)]

theorem put_of_ne {x : UInt8} (h : k ≠ o) : put b o x k = b k := if_neg h

@[simp] theorem put_self {x : UInt8} : put b o x o = x := if_pos rfl

theorem blit_of_notMem (h : k < o ∨ o + xs.length ≤ k) : blit b o xs k = b k :=
  if_neg (by omega)

theorem rd16_wr16_mod : rd16 (wr16 b o v) o = v % 65536 := by
  have h1 : wr16 b o v o = UInt8.ofNat v := if_pos rfl
  have h2 : wr16 b o v (o + 1) = UInt8.ofNat (v / 256) := by
    rw [wr16, if_neg (by omega), if_pos rfl]
  rw [rd16, h1, h2, UInt8.toNat_ofNat', UInt8.toNat_ofNat']
  omega

theorem rd16_wr16 (h : v < 65536) : rd16 (wr16 b o v) o = v := by
  rw [rd16_wr16_mod, Nat.mod_eq_of_lt h]

theorem rd32_wr32 (h : v < 2 ^ 32) : rd32 (wr32 b o v) o = v := by
  have h1 : rd16 (wr32 b o v) o = v % 65536 := by
    rw [← rd16_wr16_mod (b := b) (o := o)]
    exact rd16_congr fun k hk hk' => wr16_of_notMem (by omega)
  have h2 : rd16 (wr32 b o v) (o + 2) = v / 65536 := by
    rw [wr32, rd16_wr16 (by omega)]
  rw [rd32, h1, h2]
  omega

/-- A word that shares no byte with the one that is written. -/
theorem rd32_wr32_of_disjoint (h : o + 4 ≤ k ∨ k + 4 ≤ o) : rd32 (wr32 b o v) k = rd32 b k :=
  rd32_congr fun j _ _ => wr32_of_notMem (by omega)

theorem slice_blit : slice (blit b o xs) o xs.length = xs := by
  refine ext_getElem (by simp) (fun i hi _ => ?_)
  have hi : i < xs.length := by simpa using hi
  simp only [slice, getElem_map, getElem_range, blit]
  rw [if_pos (by omega), Nat.add_sub_cancel_left, getD_eq_getElem _ _ hi]

end Buf

end Makar
