import Makar.ByteMemory

/-!
# A ring under free-running cursors

A ring of `cap` cells is written at one cursor and read at another. The cursors
are 32-bit words that only ever grow, and wrap; a cursor stands for the cell at its
remainder by the capacity. When the capacity divides `2 ^ 32` the wrap is
invisible: cells at distances below the capacity are different ones, wherever the
cursors stand (`slot_add_inj`).

The contents are what is read from the reading cursor on. Putting something in
behind them appends it (`take_put`), and reading a part of them takes it off the
front (`take_add`).
-/

namespace Makar

open List Function

namespace RingBuffer

variable {α : Type*} {cap : ℕ} [NeZero cap]

/-- The cell of a cursor. -/
def slot (cap : ℕ) [NeZero cap] (c : Word) : Fin cap :=
  ⟨c.toNat % cap, Nat.mod_lt _ (NeZero.pos cap)⟩

/-- What is read from a cursor on. -/
def take (buf : Fin cap → α) (c : Word) : ℕ → List α
  | 0 => []
  | n + 1 => buf (slot cap c) :: take buf (c + 1) n

/-- Write from a cursor on. -/
def put (buf : Fin cap → α) (c : Word) : List α → Fin cap → α
  | [] => buf
  | a :: as => put (Function.update buf (slot cap c) a) (c + 1) as

variable {buf : Fin cap → α} {c : Word}

@[simp] theorem length_take (buf : Fin cap → α) (c : Word) (n : ℕ) : (take buf c n).length = n := by
  induction n generalizing c with
  | zero => rfl
  | succ n ih => rw [take, length_cons, ih]

theorem succ_add_ofNat (c : Word) (n : ℕ) :
    c + 1 + BitVec.ofNat 32 n = c + BitVec.ofNat 32 (n + 1) := by
  rw [BitVec.add_assoc, BitVec.ofNat_add, BitVec.add_comm 1]
  rfl

/-- A part is read, then the rest. -/
theorem take_add (buf : Fin cap → α) (c : Word) (n m : ℕ) :
    take buf c (n + m) = take buf c n ++ take buf (c + BitVec.ofNat 32 n) m := by
  induction n generalizing c with
  | zero => simp [take]
  | succ n ih =>
    rw [Nat.add_right_comm, take, take, ih, succ_add_ofNat, cons_append]

/-- The cell at a distance from a cursor, whether or not the cursor wraps on the way. -/
theorem slot_add (hcap : cap ∣ 2 ^ 32) (c : Word) (i : ℕ) :
    (slot cap (c + BitVec.ofNat 32 i)).val = (c.toNat + i) % cap := by
  show (c + BitVec.ofNat 32 i).toNat % cap = _
  rw [BitVec.toNat_add, BitVec.toNat_ofNat, Nat.add_mod_mod, Nat.mod_mod_of_dvd _ hcap]

/-- **Cells at different distances below the capacity are different.** -/
theorem slot_add_inj (hcap : cap ∣ 2 ^ 32) {i j : ℕ} (hi : i < cap) (hj : j < cap)
    (h : slot cap (c + BitVec.ofNat 32 i) = slot cap (c + BitVec.ofNat 32 j)) : i = j := by
  have hval := congrArg Fin.val h
  rw [slot_add hcap, slot_add hcap] at hval
  exact (Nat.ModEq.add_left_cancel' c.toNat hval).eq_of_lt_of_lt hi hj

variable {as : List α}

/-- A cell that is not written keeps its value. -/
theorem put_of_ne {s : Fin cap} (h : ∀ i < as.length, slot cap (c + BitVec.ofNat 32 i) ≠ s) :
    put buf c as s = buf s := by
  induction as generalizing buf c with
  | nil => rfl
  | cons a as ih =>
    have hfirst : slot cap c ≠ s := by
      have := h 0 (by simp)
      rwa [BitVec.add_zero] at this
    rw [put, ih, update_of_ne hfirst.symm]
    intro i hi
    rw [succ_add_ofNat]
    exact h (i + 1) (by simpa using hi)

theorem take_congr {buf' : Fin cap → α} {n : ℕ}
    (h : ∀ i < n, buf' (slot cap (c + BitVec.ofNat 32 i)) = buf (slot cap (c + BitVec.ofNat 32 i))) :
    take buf' c n = take buf c n := by
  induction n generalizing c with
  | zero => rfl
  | succ n ih =>
    have hfirst : buf' (slot cap c) = buf (slot cap c) := by
      have := h 0 (by omega)
      rwa [BitVec.add_zero] at this
    rw [take, take, hfirst, ih]
    intro i hi
    rw [succ_add_ofNat]
    exact h (i + 1) (by omega)

/-- What is written reads back. -/
theorem take_put_self (hcap : cap ∣ 2 ^ 32) (hlen : as.length ≤ cap) :
    take (put buf c as) c as.length = as := by
  induction as generalizing buf c with
  | nil => rfl
  | cons a as ih =>
    rw [length_cons] at hlen
    -- The later writes do not come round to the first cell.
    have hfirst : put (update buf (slot cap c) a) (c + 1) as (slot cap c) = a := by
      rw [put_of_ne, update_self]
      intro i hi heq
      have hzero : slot cap (c + BitVec.ofNat 32 (i + 1)) = slot cap (c + BitVec.ofNat 32 0) := by
        rw [← succ_add_ofNat, heq, BitVec.add_zero]
      exact absurd (slot_add_inj hcap (by omega) (by omega) hzero) (by omega)
    rw [length_cons, take, put, hfirst, ih (by omega)]

/-- **Writing behind the contents appends.** -/
theorem take_put (hcap : cap ∣ 2 ^ 32) {n : ℕ} (hlen : n + as.length ≤ cap) :
    take (put buf (c + BitVec.ofNat 32 n) as) c (n + as.length) = take buf c n ++ as := by
  rw [take_add, take_put_self hcap (by omega)]
  congr 1
  refine take_congr fun i hi => put_of_ne fun j hj heq => ?_
  rw [BitVec.add_assoc, ← BitVec.ofNat_add] at heq
  exact absurd (slot_add_inj hcap (by omega) (by omega) heq) (by omega)

end RingBuffer

end Makar
