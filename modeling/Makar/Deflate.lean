import Mathlib

/-!
# The format of compressed data

The data format of RFC 1951 as a grammar. A byte string is read as a list of bits, the
low-order bit of a byte first, and `Stream` says which lists of bits are a sequence of blocks
and what data they stand for. Nothing here decodes: every rule says what the bits of one
construct look like, given the data before it.

Two things are not local. A match refers to the data that came before it, so that every rule
carries the data so far; and a stored block starts at the next byte, so that a block carries
its position in the string.

A code is given by the lengths of its words. The words are then fixed: those of a length are
consecutive numbers in the order of the symbols, and the first of a length follows the last of
the length before it, with a zero appended (`firstCode`). That they fit their lengths is the
inequality of Kraft (`IsCode.fits`).

The format has room for a description of 32 distance codes, of which the last two never occur
in the data. The number is a parameter of the grammar.
-/

namespace Makar

open List

namespace Deflate

/-! ## Bits -/

/-- The bit of a byte string at a position, the low-order bit of a byte first. -/
def bitAt (bytes : List UInt8) (p : ℕ) : Bool := (bytes.getD (p / 8) 0).toNat.testBit (p % 8)

/-- The bits of a byte string. -/
def bits (bytes : List UInt8) : List Bool := (range (8 * bytes.length)).map (bitAt bytes)

/-- The number that bits stand for, the low-order bit first. -/
def value : List Bool → ℕ
  | [] => 0
  | b :: w => b.toNat + 2 * value w

theorem value_lt (w : List Bool) : value w < 2 ^ w.length := by
  induction w with
  | nil => exact Nat.one_pos
  | cons b w ih =>
    have hb := b.toNat_lt
    rw [value, length_cons, pow_succ]
    omega

/-- The bits of one number behind those of another. -/
theorem value_append (w v : List Bool) :
    value (w ++ v) = value w + 2 ^ w.length * value v := by
  induction w with
  | nil => simp [value]
  | cons b w ih =>
    rw [cons_append, value, ih, value, length_cons, pow_succ]
    ring

variable {w : List Bool}

/-- Bits that are those of a number stand for it. -/
theorem value_eq {n : ℕ} (hn : n < 2 ^ w.length)
    (h : ∀ i < w.length, w.getD i false = n.testBit i) : value w = n := by
  induction w generalizing n with
  | nil =>
    have hzero : n < 1 := hn
    exact (Nat.lt_one_iff.1 hzero).symm
  | cons b w ih =>
    have hrest : value w = n / 2 := by
      refine ih ?_ (fun i hi => ?_)
      · rw [length_cons, pow_succ] at hn
        omega
      · have hbit := h (i + 1) (Nat.succ_lt_succ hi)
        rw [getD_cons_succ, Nat.testBit_succ] at hbit
        exact hbit
    have hlow : b.toNat = n % 2 := by
      have hbit := h 0 (Nat.succ_pos _)
      rw [getD_cons_zero, Nat.testBit_zero] at hbit
      rw [hbit]
      rcases Nat.mod_two_eq_zero_or_one n with h0 | h0 <;> simp [h0]
    rw [value, hrest, hlow]
    omega

/-- The byte that eight bits stand for. -/
def byteOf (w : List Bool) : UInt8 := UInt8.ofNat (value w)

/-! ## Codes -/

/-- The word of a number in a length, the high-order bit first. -/
def codeword : ℕ → ℕ → List Bool
  | 0, _ => []
  | l + 1, c => codeword l (c / 2) ++ [c.testBit 0]

@[simp] theorem codeword_length (l c : ℕ) : (codeword l c).length = l := by
  induction l generalizing c with
  | zero => rfl
  | succ l ih => rw [codeword, length_append, ih, length_singleton]

/-- The number of words of a length. A symbol of length zero has none. -/
def wordCount (lengths : List ℕ) (l : ℕ) : ℕ := if l = 0 then 0 else lengths.count l

/-- The first word of a length, as a number: behind the last one of the length before, with a
zero appended. -/
def firstCode (lengths : List ℕ) : ℕ → ℕ
  | 0 => 0
  | l + 1 => 2 * (firstCode lengths l + wordCount lengths l)

/-- **The word of a symbol.** -/
structure Encodes (lengths : List ℕ) (sym : ℕ) (w : List Bool) : Prop where
  /-- It is a symbol of the alphabet. -/
  mem : sym < lengths.length
  /-- It has a word. -/
  used : lengths.getD sym 0 ≠ 0
  /-- The words of a length are in the order of their symbols. -/
  word : w = codeword (lengths.getD sym 0) (firstCode lengths (lengths.getD sym 0)
    + (lengths.take sym).count (lengths.getD sym 0))

/-- The length of the longest word. -/
def maxBits : ℕ := 15

/-- **Lengths of a code**: words of that length exist, none of which is the beginning of
another. -/
structure IsCode (lengths : List ℕ) : Prop where
  /-- No word is longer than the longest. -/
  short : ∀ l ∈ lengths, l ≤ maxBits
  /-- The inequality of Kraft. -/
  kraft : ((lengths.filter (· ≠ 0)).map fun l => 2 ^ (maxBits - l)).sum ≤ 2 ^ maxBits

instance (lengths : List ℕ) : Decidable (IsCode lengths) :=
  decidable_of_iff ((∀ l ∈ lengths, l ≤ maxBits)
    ∧ ((lengths.filter (· ≠ 0)).map fun l => 2 ^ (maxBits - l)).sum ≤ 2 ^ maxBits)
    ⟨fun h => ⟨h.1, h.2⟩, fun h => ⟨h.short, h.kraft⟩⟩

/-- A word is read from its highest bit on. -/
theorem codeword_drop {l k : ℕ} (c : ℕ) (hk : k < l) :
    (codeword l c).drop k = c.testBit (l - 1 - k) :: (codeword l c).drop (k + 1) := by
  induction l generalizing c with
  | zero => exact absurd hk (Nat.not_lt_zero k)
  | succ l ih =>
    have hlen := codeword_length l (c / 2)
    rw [codeword]
    by_cases hlast : k < l
    · rw [drop_append_of_le_length (by omega), drop_append_of_le_length (by omega),
        ih (c / 2) hlast, ← Nat.testBit_succ, show (l - 1 - k).succ = l + 1 - 1 - k by omega]
      rfl
    · obtain rfl : k = l := by omega
      rw [drop_append_of_le_length hlen.ge, drop_of_length_le hlen.le,
        drop_of_length_le (by simp [hlen]), show k + 1 - 1 - k = 0 by omega]
      rfl

variable {lengths : List ℕ}

/-- The lengths up to a symbol and that of the symbol. -/
theorem take_succ_eq {i : ℕ} (hi : i < lengths.length) :
    lengths.take (i + 1) = lengths.take i ++ [lengths.getD i 0] := by
  rw [take_add_one, getElem?_eq_getElem hi, getD_eq_getElem _ _ hi]
  rfl

/-- The rank of a symbol among those of its length is below that of a later one. -/
theorem count_take_lt {sym i : ℕ} (hi : sym < i) (hlen : i ≤ lengths.length) :
    (lengths.take sym).count (lengths.getD sym 0) < (lengths.take i).count (lengths.getD sym 0) := by
  have hsub : (lengths.take (sym + 1)).count (lengths.getD sym 0)
      ≤ (lengths.take i).count (lengths.getD sym 0) :=
    (take_sublist_take_left hi).count_le _
  rw [take_succ_eq (by omega), count_append, count_singleton_self] at hsub
  omega

/-- The words of the shorter lengths leave room before the first of a length. -/
theorem firstCode_le {l k : ℕ} (hl : l < k) :
    2 ^ (k - l) * (firstCode lengths l + wordCount lengths l) ≤ firstCode lengths k := by
  induction k with
  | zero => exact absurd hl (Nat.not_lt_zero l)
  | succ k ih =>
    rw [firstCode]
    by_cases heq : l = k
    · subst heq
      rw [Nat.add_sub_cancel_left, pow_one]
    · have hle := ih (by omega)
      rw [show k + 1 - l = k - l + 1 by omega, pow_succ, mul_comm (2 ^ (k - l)) 2, mul_assoc]
      exact Nat.mul_le_mul_left 2 (hle.trans (Nat.le_add_right _ _))

/-- What the words up to a length take of the room there is. -/
theorem firstCode_mass (lengths : List ℕ) {l : ℕ} (hl : l ≤ maxBits) :
    (firstCode lengths l + wordCount lengths l) * 2 ^ (maxBits - l)
      = (lengths.map fun k => if k ≠ 0 ∧ k ≤ l then 2 ^ (maxBits - k) else 0).sum := by
  induction l with
  | zero =>
    have hnone : ∀ ks : List ℕ,
        (ks.map fun k => if k ≠ 0 ∧ k ≤ 0 then 2 ^ (maxBits - k) else 0).sum = 0 := by
      intro ks
      refine sum_eq_zero (fun x hx => ?_)
      obtain ⟨k, -, rfl⟩ := mem_map.1 hx
      exact if_neg (by omega)
    rw [hnone]
    simp [firstCode, wordCount]
  | succ l ih =>
    -- the words of one more length
    have hstep : ∀ ks : List ℕ,
        (ks.map fun k => if k ≠ 0 ∧ k ≤ l + 1 then 2 ^ (maxBits - k) else 0).sum
          = (ks.map fun k => if k ≠ 0 ∧ k ≤ l then 2 ^ (maxBits - k) else 0).sum
            + ks.count (l + 1) * 2 ^ (maxBits - (l + 1)) := by
      intro ks
      induction ks with
      | nil => simp
      | cons k ks ihk =>
        rw [map_cons, sum_cons, map_cons, sum_cons, ihk, count_cons]
        by_cases hk : k = l + 1
        · subst hk
          rw [if_pos ⟨Nat.succ_ne_zero l, le_rfl⟩, if_neg (by omega), if_pos (by simp)]
          ring
        · have hiff : (k ≠ 0 ∧ k ≤ l + 1) ↔ (k ≠ 0 ∧ k ≤ l) := by omega
          have hno : (k == l + 1) = false := by simpa using hk
          rw [hno, if_neg Bool.false_ne_true, add_zero, ← add_assoc, if_congr hiff rfl rfl]
    have hpow : 2 ^ (maxBits - l) = 2 * 2 ^ (maxBits - (l + 1)) := by
      rw [← pow_succ', show maxBits - (l + 1) + 1 = maxBits - l by omega]
    have hcount : wordCount lengths (l + 1) = lengths.count (l + 1) := if_neg (Nat.succ_ne_zero l)
    rw [hstep, ← ih (by omega), hpow, firstCode, hcount]
    ring

/-- **The words fit their lengths.** -/
theorem IsCode.fits (h : IsCode lengths) {l : ℕ} (hl : l ≤ maxBits) :
    firstCode lengths l + wordCount lengths l ≤ 2 ^ l := by
  have hsum : ∀ ks : List ℕ,
      (ks.map fun k => if k ≠ 0 ∧ k ≤ l then 2 ^ (maxBits - k) else 0).sum
        ≤ ((ks.filter (· ≠ 0)).map fun k => 2 ^ (maxBits - k)).sum := by
    intro ks
    induction ks with
    | nil => exact le_rfl
    | cons k ks ih =>
      rw [map_cons, sum_cons]
      by_cases hk : k = 0
      · rw [if_neg (fun hc => hc.1 hk), filter_cons_of_neg (by simpa using hk), zero_add]
        exact ih
      · rw [filter_cons_of_pos (by simpa using hk), map_cons, sum_cons]
        refine Nat.add_le_add ?_ ih
        split_ifs
        · exact le_rfl
        · exact Nat.zero_le _
  have hmass := (firstCode_mass lengths hl).trans_le ((hsum lengths).trans h.kraft)
  have hpow : 2 ^ maxBits = 2 ^ l * 2 ^ (maxBits - l) := by
    rw [← pow_add, Nat.add_sub_cancel' hl]
  rw [hpow] at hmass
  exact Nat.le_of_mul_le_mul_right hmass (by positivity)

/-- The number of the word of a symbol is behind the first of its length, before the last. -/
theorem Encodes.exists_code {sym : ℕ} (hcode : IsCode lengths) (h : Encodes lengths sym w) :
    ∃ r, r < wordCount lengths (lengths.getD sym 0)
      ∧ r = (lengths.take sym).count (lengths.getD sym 0)
      ∧ w = codeword (lengths.getD sym 0) (firstCode lengths (lengths.getD sym 0) + r)
      ∧ firstCode lengths (lengths.getD sym 0) + r < 2 ^ lengths.getD sym 0
      ∧ lengths.getD sym 0 ≤ maxBits := by
  have hmem : lengths.getD sym 0 ∈ lengths := by
    rw [getD_eq_getElem _ _ h.mem]
    exact getElem_mem _
  have hle := hcode.short _ hmem
  have hrank : (lengths.take sym).count (lengths.getD sym 0)
      < wordCount lengths (lengths.getD sym 0) := by
    have hlt := count_take_lt h.mem le_rfl
    rw [take_length] at hlt
    rw [wordCount, if_neg h.used]
    exact hlt
  have hfits := hcode.fits hle
  exact ⟨_, hrank, rfl, h.word, by omega, hle⟩

/-- A word is not empty. -/
theorem Encodes.length_pos {sym : ℕ} (h : Encodes lengths sym w) : 0 < w.length := by
  rw [h.word, codeword_length]
  exact Nat.pos_of_ne_zero h.used

/-! ## Data -/

/-- Extra bits of a length code, counted from 257. -/
def lengthExtra (i : ℕ) : ℕ := if i < 8 ∨ i = 28 then 0 else (i - 4) / 4

/-- The least length of a length code, counted from 257. -/
def lengthBase (i : ℕ) : ℕ :=
  if i < 8 then 3 + i else if i = 28 then 258 else 3 + (4 + i % 4) * 2 ^ lengthExtra i

/-- Extra bits of a distance code. -/
def distExtra (i : ℕ) : ℕ := if i < 4 then 0 else (i - 2) / 2

/-- The least distance of a distance code. -/
def distBase (i : ℕ) : ℕ := if i < 4 then 1 + i else 1 + (2 + i % 2) * 2 ^ distExtra i

/-- A match is copied byte by byte, so that it may overlap what it makes. -/
def copyMatch (dist : ℕ) : ℕ → List UInt8 → List UInt8
  | 0, out => out
  | n + 1, out => copyMatch dist n (out ++ [out.getD (out.length - dist) 0])

/-- **Compressed data**: the bits of literals and matches up to the end of the block, and the
data after them. -/
inductive Items (lit dist : List ℕ) : List UInt8 → List Bool → List UInt8 → Prop
  /-- The end of the block. -/
  | stop {out w} : Encodes lit 256 w → Items lit dist out w out
  /-- A byte. -/
  | byte {out sym w v out'} : sym < 256 → Encodes lit sym w →
      Items lit dist (out ++ [UInt8.ofNat sym]) v out' → Items lit dist out (w ++ v) out'
  /-- A match: a length code, its extra bits, a distance code and its extra bits. -/
  | copy {out i j w x y z v out'} : i < 29 → j < 30 →
      Encodes lit (257 + i) w → x.length = lengthExtra i →
      Encodes dist j y → z.length = distExtra j →
      distBase j + value z ≤ out.length →
      Items lit dist (copyMatch (distBase j + value z) (lengthBase i + value x) out) v out' →
      Items lit dist out (w ++ (x ++ (y ++ (z ++ v)))) out'

@[simp] theorem copyMatch_length (dist n : ℕ) (out : List UInt8) :
    (copyMatch dist n out).length = out.length + n := by
  induction n generalizing out with
  | zero => rfl
  | succ n ih =>
    rw [copyMatch, ih, length_append, length_singleton]
    omega

/-- The last byte of a match. -/
theorem copyMatch_succ (dist n : ℕ) (out : List UInt8) :
    copyMatch dist (n + 1) out = copyMatch dist n out
      ++ [(copyMatch dist n out).getD ((copyMatch dist n out).length - dist) 0] := by
  induction n generalizing out with
  | zero => rfl
  | succ n ih => rw [copyMatch, ih, copyMatch]

/-- Data only grow. -/
theorem Items.length_le {lit dist : List ℕ} {out out' : List UInt8}
    (h : Items lit dist out w out') : out.length ≤ out'.length := by
  induction h with
  | stop _ => exact le_rfl
  | byte _ _ _ ih =>
    rw [length_append] at ih
    omega
  | copy _ _ _ _ _ _ _ _ ih =>
    rw [copyMatch_length] at ih
    omega

/-! ## The description of a code -/

/-- The order in which the lengths of the code length code are given. -/
def clenOrder : List ℕ := [16, 17, 18, 0, 8, 7, 9, 6, 10, 5, 11, 4, 12, 3, 13, 2, 14, 1, 15]

/-- The lengths of the code length code from the numbers that are given for it: three bits
each. -/
def clenOf (ws : List (List Bool)) : List ℕ :=
  (range 19).map fun sym => value (ws.getD (clenOrder.idxOf sym) [])

/-- **Code lengths**: the bits of a sequence of lengths and repetitions, behind the lengths so
far, and the lengths after them. -/
inductive Lengths (clen : List ℕ) : List ℕ → List Bool → List ℕ → Prop
  /-- There are no more. -/
  | nil {ls} : Lengths clen ls [] ls
  /-- A length. -/
  | length {ls l w v ls'} : l < 16 → Encodes clen l w →
      Lengths clen (ls ++ [l]) v ls' → Lengths clen ls (w ++ v) ls'
  /-- The length before it, three to six times. -/
  | again {ls l w x v ls'} : Encodes clen 16 w → x.length = 2 → ls.getLast? = some l →
      Lengths clen (ls ++ replicate (3 + value x) l) v ls' →
      Lengths clen ls (w ++ (x ++ v)) ls'
  /-- Zero, three to ten times. -/
  | zeros {ls w x v ls'} : Encodes clen 17 w → x.length = 3 →
      Lengths clen (ls ++ replicate (3 + value x) 0) v ls' →
      Lengths clen ls (w ++ (x ++ v)) ls'
  /-- Zero, eleven to 138 times. -/
  | manyZeros {ls w x v ls'} : Encodes clen 18 w → x.length = 7 →
      Lengths clen (ls ++ replicate (11 + value x) 0) v ls' →
      Lengths clen ls (w ++ (x ++ v)) ls'

/-- The lengths of the fixed literal code. -/
def fixedLit : List ℕ :=
  replicate 144 8 ++ replicate 112 9 ++ replicate 24 7 ++ replicate 8 8

/-- The lengths of the fixed distance code. -/
def fixedDist : List ℕ := replicate 32 5

/-! ## Blocks -/

/-- **A block**, with its type and its position: its bits, and the data after it. The
description of a code has at most `dmax` distance codes. -/
inductive Block (dmax : ℕ) : ℕ → List UInt8 → List Bool → List UInt8 → Prop
  /-- Bytes as they are, from the next byte on, behind their number and its complement. -/
  | stored {pos out pad len} {data : List (List Bool)} :
      pad.length < 8 → 8 ∣ pos + 2 + pad.length → len.length = 16 →
      data.length = value len → (∀ b ∈ data, b.length = 8) →
      Block dmax pos out ([false, false] ++ (pad ++ (len ++ (len.map not ++ data.flatten))))
        (out ++ data.map byteOf)
  /-- Data in the fixed code. -/
  | fixed {pos out w out'} : Items fixedLit fixedDist out w out' →
      Block dmax pos out ([true, false] ++ w) out'
  /-- Data in a code that is described first. -/
  | dynamic {pos out hlit hdist hclen} {ws : List (List Bool)} {v lit dist w out'} :
      hlit.length = 5 → hdist.length = 5 → hclen.length = 4 →
      value hlit + 257 ≤ 286 → value hdist + 1 ≤ dmax →
      ws.length = value hclen + 4 → (∀ b ∈ ws, b.length = 3) → IsCode (clenOf ws) →
      Lengths (clenOf ws) [] v (lit ++ dist) →
      lit.length = value hlit + 257 → dist.length = value hdist + 1 → IsCode lit → IsCode dist →
      Items lit dist out w out' →
      Block dmax pos out
        ([false, true] ++ (hlit ++ (hdist ++ (hclen ++ (ws.flatten ++ (v ++ w)))))) out'

/-- **A sequence of blocks**, each with a bit that says whether it is the last. -/
inductive Stream (dmax : ℕ) : ℕ → List UInt8 → List Bool → List UInt8 → Prop
  /-- The last block. -/
  | last {pos out w out'} : Block dmax (pos + 1) out w out' →
      Stream dmax pos out (true :: w) out'
  /-- A block, and more. -/
  | more {pos out w out₁ v out'} : Block dmax (pos + 1) out w out₁ →
      Stream dmax (pos + 1 + w.length) out₁ v out' → Stream dmax pos out (false :: (w ++ v)) out'

/-- **The byte string holds the data**: its bits start with a stream for it. -/
def Holds (dmax : ℕ) (bytes : List UInt8) (out : List UInt8) : Prop :=
  ∃ w, Stream dmax 0 [] w out ∧ w <+: bits bytes

/-- The number of distance codes that the format has room for. -/
def maxDistCodes : ℕ := 32

end Deflate

end Makar
