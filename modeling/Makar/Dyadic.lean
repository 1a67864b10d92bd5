import Mathlib.Tactic
import Mathlib.Data.Nat.Bitwise

/-!
# Dyadic blocks

The arithmetic a buddy system rests on, over the natural numbers alone. A
block of order `o` at `f` is the interval of `2 ^ o` numbers from `f`
(`Covers`); it is aligned when `2 ^ o` divides `f`. Flipping bit `o` of an
aligned `f` gives its buddy, the other half of the one aligned block of
order `o + 1` that contains it: `lowerHalf` is where that block starts, and
`covers_lowerHalf` says the two halves make it up.

Nothing here knows of free lists or of frames; a splitting allocator and a
coalescing one both use these facts and no others about the bits.
-/

namespace Makar

open Nat

variable {f g o p x : ℕ}

/-- `x` is one of the `2 ^ o` numbers of the block of order `o` at `f`. -/
def Covers (f o x : ℕ) : Prop := f ≤ x ∧ x < f + 2 ^ o

instance : Decidable (Covers f o x) := inferInstanceAs (Decidable (_ ∧ _))

/-- The block starts at a multiple of its size. -/
def Aligned (f o : ℕ) : Prop := 2 ^ o ∣ f

/-- Two blocks share no number. -/
def Apart (f o g p : ℕ) : Prop := f + 2 ^ o ≤ g ∨ g + 2 ^ p ≤ f

/-- The buddy of a block: bit `o` of its start flipped. -/
def buddyOf (f o : ℕ) : ℕ := f ^^^ (1 <<< o)

/-- Where the block made of a block and its buddy starts. -/
def lowerHalf (f o : ℕ) : ℕ := if buddyOf f o < f then buddyOf f o else f

theorem Apart.symm (h : Apart f o g p) : Apart g p f o := Or.symm h

/-- A block covers its own start. -/
@[simp] theorem covers_self (f o : ℕ) : Covers f o f :=
  ⟨Nat.le_refl f, Nat.lt_add_of_pos_right (Nat.two_pow_pos o)⟩

/-- A block of order zero is one number. -/
@[simp] theorem covers_zero : Covers f 0 x ↔ x = f := by
  unfold Covers
  omega

/-- Every number is an aligned block of order zero. -/
@[simp] theorem aligned_zero (f : ℕ) : Aligned f 0 := by
  simp [Aligned]

/-- **Blocks are apart exactly when they share no number.** -/
theorem apart_iff : Apart f o g p ↔ ∀ x, Covers f o x → ¬ Covers g p x := by
  unfold Apart Covers
  constructor
  · intro h x hf hg
    omega
  · intro h
    have hpo := Nat.two_pow_pos o
    have hpp := Nat.two_pow_pos p
    by_contra hc
    have hf := h (max f g)
    omega

/-- The start of an aligned block of order `o` is `2 ^ o` times its rank, and
flipping bit `o` flips the lowest bit of the rank. -/
theorem buddyOf_mul (q o : ℕ) : buddyOf (2 ^ o * q) o = 2 ^ o * (q ^^^ 1) := by
  have h : ∀ n : ℕ, 2 ^ o * n = n <<< o := fun n => by
    rw [shiftLeft_eq, mul_comm]
  rw [buddyOf, h, h, shiftLeft_xor_distrib]

/-- **A block is the lower or the upper half of the block it makes with its
buddy.** -/
theorem buddyOf_cases (h : Aligned f o) :
    (buddyOf f o = f + 2 ^ o ∧ Aligned f (o + 1)) ∨
      (f = buddyOf f o + 2 ^ o ∧ Aligned (buddyOf f o) (o + 1)) := by
  obtain ⟨q, rfl⟩ := h
  rw [buddyOf_mul]
  rcases even_or_odd q with hq | hq
  · left
    rw [xor_one_of_even hq]
    obtain ⟨r, rfl⟩ := hq
    exact ⟨by ring, r, by ring⟩
  · right
    rw [xor_one_of_odd hq]
    obtain ⟨r, rfl⟩ := hq
    rw [Nat.add_sub_cancel]
    exact ⟨by ring, r, by ring⟩

/-- Being buddies is mutual. -/
theorem buddyOf_buddyOf (f o : ℕ) : buddyOf (buddyOf f o) o = f := by
  unfold buddyOf
  rw [Nat.xor_assoc, Nat.xor_self, Nat.xor_zero]

/-- A block is not its own buddy. -/
theorem buddyOf_ne (h : Aligned f o) : buddyOf f o ≠ f := by
  have hpo := Nat.two_pow_pos o
  rcases buddyOf_cases h with ⟨hb, -⟩ | ⟨hb, -⟩ <;> omega

/-- The block a block makes with its buddy is aligned one order up. -/
theorem aligned_lowerHalf (h : Aligned f o) : Aligned (lowerHalf f o) (o + 1) := by
  have hpo := Nat.two_pow_pos o
  unfold lowerHalf
  rcases buddyOf_cases h with ⟨hb, ha⟩ | ⟨hb, ha⟩
  · rwa [if_neg (by omega)]
  · rwa [if_pos (by omega)]

/-- **A block and its buddy make up the block one order up.** -/
theorem covers_lowerHalf (h : Aligned f o) (x : ℕ) :
    Covers (lowerHalf f o) (o + 1) x ↔ Covers f o x ∨ Covers (buddyOf f o) o x := by
  have hpo := Nat.two_pow_pos o
  unfold lowerHalf Covers
  rw [pow_succ]
  rcases buddyOf_cases h with ⟨hb, -⟩ | ⟨hb, -⟩
  · rw [if_neg (by omega)]
    omega
  · rw [if_pos (by omega)]
    omega

/-- An aligned block is aligned at every lower order. -/
theorem Aligned.of_succ (h : Aligned f (o + 1)) : Aligned f o :=
  (pow_dvd_pow 2 (le_succ o)).trans h

/-- The upper half of an aligned block is aligned at its own order. -/
theorem Aligned.upper (h : Aligned f (o + 1)) : Aligned (f + 2 ^ o) o :=
  dvd_add h.of_succ (dvd_refl _)

/-- The lower half is the buddy of the upper half. -/
theorem buddyOf_upper (h : Aligned f (o + 1)) : buddyOf (f + 2 ^ o) o = f := by
  have hpo := Nat.two_pow_pos o
  have hf : buddyOf f o = f + 2 ^ o := by
    rcases buddyOf_cases h.of_succ with ⟨hb, -⟩ | ⟨hb, ha⟩
    · exact hb
    · -- both halves aligned one order up would be `2 ^ o` apart
      exfalso
      obtain ⟨q, hq⟩ := h
      obtain ⟨r, hr⟩ := ha
      rw [hr, hq, pow_succ, mul_assoc, mul_assoc] at hb
      have hb' : 2 ^ o * (2 * q) = 2 ^ o * (2 * r + 1) := by rw [hb]; ring
      have := Nat.eq_of_mul_eq_mul_left hpo hb'
      omega
  rw [← hf, buddyOf_buddyOf]

/-- **A block is its lower and its upper half.** -/
theorem covers_halves (f o x : ℕ) :
    Covers f (o + 1) x ↔ Covers f o x ∨ Covers (f + 2 ^ o) o x := by
  unfold Covers
  rw [pow_succ]
  omega

/-- The two halves of a block share no number. -/
theorem apart_halves (f o : ℕ) : Apart f o (f + 2 ^ o) o := .inl (le_refl _)

end Makar
