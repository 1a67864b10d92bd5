import Mathlib.Tactic

/-!
# A ring under eight-bit cursors

One side writes at the head, the other reads at the tail, one element at a time.
Both cursors are bytes that wrap, and a cursor stands for the cell at its remainder
by the capacity; the occupancy is the wrapped difference of the two. One cell is
always left free, so that equal cursors mean an empty ring and nothing else.

The contents are the cells from the tail to the head. When the capacity divides 256
a push appends to them (`contents_push`) and a pop takes their first element
(`contents_pop`), wherever the cursors stand.
-/

namespace Makar

open List

/-- A ring of `cap` cells with its two cursors. -/
structure ByteRing (cap : ℕ) (α : Type*) where
  buf : Fin cap → α
  head : BitVec 8
  tail : BitVec 8

namespace ByteRing

variable {α : Type*} {cap : ℕ} [NeZero cap]

/-- The cell of a cursor. -/
def cell (cap : ℕ) [NeZero cap] (c : BitVec 8) : Fin cap :=
  ⟨c.toNat % cap, Nat.mod_lt _ (NeZero.pos cap)⟩

/-- The number of elements. -/
def count (r : ByteRing cap α) : ℕ := (r.head - r.tail).toNat

/-- All but one of the cells are taken. -/
def full (r : ByteRing cap α) : Bool := decide (cap - 1 ≤ r.count)

/-- Write at the head. A full ring drops the element. -/
def push (r : ByteRing cap α) (a : α) : ByteRing cap α :=
  if r.full then r
  else { r with buf := Function.update r.buf (cell cap r.head) a, head := r.head + 1 }

/-- Read at the tail. None when the ring is empty. -/
def pop (r : ByteRing cap α) : Option (α × ByteRing cap α) :=
  if r.head = r.tail then none
  else some (r.buf (cell cap r.tail), { r with tail := r.tail + 1 })

/-- Both cursors back to zero; the cells stay as they are. -/
def clear (r : ByteRing cap α) : ByteRing cap α := { r with head := 0, tail := 0 }

/-- The elements, the oldest first. -/
def contents (r : ByteRing cap α) : List α :=
  (List.range r.count).map fun i => r.buf (cell cap (r.tail + BitVec.ofNat 8 i))

@[simp] theorem contents_clear (r : ByteRing cap α) : r.clear.contents = [] := by
  rw [contents, show r.clear.count = 0 from by simp [count, clear]]
  rfl

variable {r : ByteRing cap α}

theorem push_of_full (h : r.full) (a : α) : r.push a = r := if_pos h

omit [NeZero cap] in
/-- The head is the cursor behind the last element. -/
theorem tail_add_count (r : ByteRing cap α) : r.tail + BitVec.ofNat 8 r.count = r.head := by
  rw [count]
  bv_omega

theorem cell_add (hcap : cap ∣ 256) (c : BitVec 8) (i : ℕ) :
    (cell cap (c + BitVec.ofNat 8 i)).val = (c.toNat + i) % cap := by
  show (c + BitVec.ofNat 8 i).toNat % cap = _
  rw [BitVec.toNat_add, BitVec.toNat_ofNat, Nat.add_mod_mod, Nat.mod_mod_of_dvd _ hcap]

/-- Elements in front of the head are in other cells than the one the head stands for. -/
theorem cell_ne_head (hcap : cap ∣ 256) (h : r.count < cap) {i : ℕ} (hi : i < r.count) :
    cell cap (r.tail + BitVec.ofNat 8 i) ≠ cell cap r.head := by
  intro heq
  rw [← r.tail_add_count] at heq
  have hval := congrArg Fin.val heq
  rw [cell_add hcap, cell_add hcap] at hval
  have := (Nat.ModEq.add_left_cancel' r.tail.toNat hval).eq_of_lt_of_lt (hi.trans h) h
  omega

/-- **A push appends**, unless the ring is full. -/
theorem contents_push (hcap : cap ∣ 256) (h : r.full = false) (a : α) :
    (r.push a).contents = r.contents ++ [a] := by
  have hroom : ¬ cap - 1 ≤ r.count := of_decide_eq_false h
  have hle : cap ≤ 256 := Nat.le_of_dvd (by decide) hcap
  have hcount : (r.push a).count = r.count + 1 := by
    rw [push, if_neg (by simp [h])]
    show (r.head + 1 - r.tail).toNat = (r.head - r.tail).toNat + 1
    have : (r.head - r.tail).toNat + 1 < 256 := by rw [← count]; omega
    bv_omega
  rw [contents, hcount, range_succ, map_append, push, if_neg (by simp [h]), contents]
  congr 1
  · refine map_congr_left fun i hi => ?_
    exact Function.update_of_ne (cell_ne_head hcap (by omega) (mem_range.1 hi)) _ _
  · rw [map_singleton, r.tail_add_count]
    exact congrArg (fun x => [x]) (Function.update_self ..)

/-- **A pop takes the first element.** -/
theorem contents_pop {r r' : ByteRing cap α} {a : α} (h : r.pop = some (a, r')) :
    r.contents = a :: r'.contents := by
  rw [pop] at h
  split at h
  next => cases h
  next hne =>
    simp only [Option.some.injEq, Prod.mk.injEq] at h
    obtain ⟨rfl, rfl⟩ := h
    have hcount : r.count = ({ r with tail := r.tail + 1 } : ByteRing cap α).count + 1 := by
      show (r.head - r.tail).toNat = (r.head - (r.tail + 1)).toNat + 1
      bv_omega
    rw [contents, hcount, range_succ_eq_map, map_cons, map_map, contents]
    congr 1
    · rw [BitVec.add_zero]
    · refine map_congr_left fun i _ => ?_
      show r.buf (cell cap (r.tail + BitVec.ofNat 8 (i + 1)))
        = r.buf (cell cap (r.tail + 1 + BitVec.ofNat 8 i))
      rw [BitVec.add_assoc, BitVec.ofNat_add, BitVec.add_comm 1]
      rfl

end ByteRing

end Makar
