import Makar.Buffer
import Makar.Runs

/-!
# The log buffer

`ring_append` keeps the newest output of a log. A text that is longer than the buffer is cut at
its front, and when the buffer would be full the older half of it goes. But the half that stays
and the text need not fit together: where the log is more than half full, a text of half the
buffer or more is written past its end (`append_past_end`). `ringAppend_kept_iff` says that
nothing else goes wrong.
-/

namespace Makar

open Buf List

/-- The fields of `logfile_t` that `ring_append` uses. -/
structure LogFile where
  buf : Buf
  cap : ℕ
  len : ℕ

namespace LogFile

/-- The text in the buffer. -/
def contents (f : LogFile) : List UInt8 := slice f.buf 0 f.len

/-- The part of a text that is appended. -/
def cut (f : LogFile) (s : List UInt8) : List UInt8 :=
  if f.cap ≤ s.length then s.drop (s.length - (f.cap - 1)) else s

/-- Make room for `n` bytes. The list has the places that are written to. -/
def makeRoom (f : LogFile) (n : ℕ) : List ℕ × LogFile :=
  if f.cap ≤ (f.len + n + 1) % 2 ^ 32 then
    let keep := f.cap / 2
    if keep < f.len then
      (range keep, { f with buf := blit f.buf 0 (slice f.buf (f.len - keep) keep), len := keep })
    else ([], { f with len := 0 })
  else ([], f)

/-- `ring_append`, with the places it writes to. -/
def ringAppend (f : LogFile) (s : List UInt8) : List ℕ × LogFile :=
  if s = [] ∨ f.cap = 0 then ([], f)
  else
    let s := f.cut s
    let (ws, f) := f.makeRoom s.length
    (ws ++ range' f.len (s.length + 1),
      { f with buf := blit f.buf f.len (s ++ [0]), len := (f.len + s.length) % 2 ^ 32 })

/-- A call, with everything that was appended. -/
def step (x : LogFile × List UInt8) (s : List UInt8) : LogFile × List UInt8 :=
  ((x.1.ringAppend s).2, x.2 ++ s)

/-- **A call keeps to the buffer**: the length stays below the capacity, the writes are inside,
and the contents are the end of what was appended. -/
def Kept (x : LogFile × List UInt8) (s : List UInt8) : Prop :=
  (step x s).1.len < x.1.cap ∧ (∀ i ∈ (x.1.ringAppend s).1, i < x.1.cap)
    ∧ (step x s).1.contents <:+ (step x s).2

/-- The text fits behind what stays of the log. -/
def Fits (x : LogFile × List UInt8) (s : List UInt8) : Prop :=
  x.1.len + min s.length (x.1.cap - 1) + 1 < 2 ^ 32
    ∧ (x.1.len ≤ x.1.cap / 2 ∨ x.1.cap / 2 + min s.length (x.1.cap - 1) < x.1.cap)

variable {f : LogFile} {s out : List UInt8} {n : ℕ} {b : Buf} {o m : ℕ}

theorem slice_add : slice b o (m + n) = slice b o m ++ slice b (o + m) n := by
  simp [slice, range_add, Nat.add_assoc]

theorem slice_blit_slice : slice (blit b 0 (slice b m n)) 0 n = slice b m n := by
  have h : slice (blit b 0 (slice b m n)) 0 (slice b m n).length = slice b m n := slice_blit
  rwa [length_slice] at h

/-- A text and its zero behind a part of the buffer. -/
theorem slice_blit_append : slice (blit b o (s ++ [0])) 0 (o + s.length) = slice b 0 o ++ s := by
  rw [slice_add]
  congr 1
  · exact slice_congr fun k _ hk => blit_of_notMem (by omega)
  · have h : slice (blit b o (s ++ [0])) o (s.length + 1) = s ++ [0] := by
      rw [← length_singleton (a := (0 : UInt8)), ← length_append, slice_blit]
    rw [slice_add] at h
    rw [Nat.zero_add]
    exact (append_inj' h (by simp)).1

theorem length_cut (h : 0 < f.cap) : (f.cut s).length = min s.length (f.cap - 1) := by
  unfold cut
  split_ifs
  · rw [length_drop]
    omega
  · omega

theorem cut_suffix (f : LogFile) (s : List UInt8) : f.cut s <:+ s := by
  unfold cut
  split_ifs
  · exact drop_suffix _ _
  · exact suffix_rfl

/-- What stays when room is made, and how much. -/
theorem makeRoom_spec (hn : f.len + n + 1 < 2 ^ 32) :
    (f.makeRoom n).2.cap = f.cap ∧ (∀ i ∈ (f.makeRoom n).1, i < f.cap)
      ∧ (f.makeRoom n).2.contents <:+ f.contents
      ∧ (f.makeRoom n).2.len
        = if f.len + n + 1 < f.cap then f.len else if f.cap / 2 < f.len then f.cap / 2 else 0 := by
  unfold makeRoom
  rw [Nat.mod_eq_of_lt hn]
  dsimp only
  by_cases hfull : f.cap ≤ f.len + n + 1
  · rw [if_pos hfull, if_neg (not_lt.2 hfull)]
    split_ifs with hkeep
    · refine ⟨rfl, fun i hi => ?_, ?_, rfl⟩
      · have := mem_range.1 hi
        omega
      · unfold contents
        rw [slice_blit_slice]
        have hsplit := slice_add (b := f.buf) (o := 0) (m := f.len - f.cap / 2) (n := f.cap / 2)
        rw [Nat.sub_add_cancel hkeep.le, Nat.zero_add] at hsplit
        exact hsplit ▸ suffix_append _ _
    · exact ⟨rfl, by simp, nil_suffix, rfl⟩
  · rw [if_neg hfull, if_pos (not_le.1 hfull)]
    exact ⟨rfl, by simp, suffix_rfl, rfl⟩

theorem Fits.kept (hlen : f.len < f.cap) (hcap : f.cap < 2 ^ 32) (hout : f.contents <:+ out)
    (h : Fits (f, out) s) : Kept (f, out) s := by
  obtain ⟨hwrap, hroom⟩ := h
  dsimp only at hwrap hroom
  unfold Kept step ringAppend
  dsimp only
  split_ifs with hs
  · exact ⟨hlen, by simp, hout.trans (by simp [hs.resolve_right (by omega)])⟩
  have hn := length_cut (s := s) (f := f) (by omega)
  rw [← hn] at hwrap hroom
  obtain ⟨hsame, hws, hold, hkept⟩ := makeRoom_spec hwrap
  have hend : (f.makeRoom (f.cut s).length).2.len + (f.cut s).length < f.cap := by
    rw [hkept]
    split_ifs <;> omega
  rw [Nat.mod_eq_of_lt (by omega)]
  refine ⟨hend, fun i hi => ?_, ?_⟩
  · rcases mem_append.1 hi with hi | hi
    · exact hws i hi
    · have := mem_range'_1.1 hi
      omega
  · unfold contents at hold hout ⊢
    dsimp only
    rw [slice_blit_append]
    -- where the text is cut nothing of the log stays
    by_cases hcut : f.cap ≤ s.length
    · have hzero : (f.makeRoom (f.cut s).length).2.len = 0 := by
        rw [hkept]
        split_ifs <;> omega
      rw [hzero]
      exact (cut_suffix f s).trans (suffix_append _ _)
    · have hall : f.cut s = s := if_neg hcut
      rw [hall] at hold ⊢
      obtain ⟨t, ht⟩ := hold.trans hout
      exact ⟨t, by rw [← append_assoc, ht]⟩

theorem Kept.fits (hlen : f.len < f.cap) (hcap : f.cap < 2 ^ 32) (h : Kept (f, out) s) :
    Fits (f, out) s := by
  unfold Fits
  dsimp only
  by_cases hs : s = []
  · subst hs
    rw [length_nil, Nat.zero_min]
    omega
  have hn := length_cut (s := s) (f := f) (by omega)
  rw [← hn]
  have hws := h.2.1
  unfold ringAppend makeRoom at hws
  dsimp only at hws
  rw [if_neg (by simp [hs]; omega)] at hws
  have hlast := hws _ (mem_append_right _ (mem_range'_1.2 ⟨Nat.le_add_right _ _, Nat.lt_succ_self _⟩))
  generalize (f.cut s).length = n at hlast hn
  split_ifs at hlast <;> dsimp only at hlast <;> omega

theorem cap_ringAppend (f : LogFile) (s : List UInt8) : (f.ringAppend s).2.cap = f.cap := by
  unfold ringAppend makeRoom
  dsimp only
  split_ifs <;> rfl

instance (x : LogFile × List UInt8) (s : List UInt8) : Decidable (Fits x s) :=
  inferInstanceAs (Decidable (_ ∧ _))

/-- **A log keeps to its buffer exactly as long as each text fits** behind what stays of it. -/
theorem ringAppend_kept_iff (buf : Buf) (cap : ℕ) (hcap : 0 < cap) (hlt : cap < 2 ^ 32)
    (texts : List (List UInt8)) : Meets Kept step (⟨buf, cap, 0⟩, []) texts
      ↔ Meets Fits step (⟨buf, cap, 0⟩, []) texts := by
  have hrun : ∀ texts (x : LogFile × List UInt8), x.1.cap = cap → x.1.len < cap →
      x.1.contents <:+ x.2 → (Meets Kept step x texts ↔ Meets Fits step x texts) := by
    intro texts
    induction texts with
    | nil => exact fun _ _ _ _ => Iff.rfl
    | cons s texts ih =>
      rintro ⟨f, out⟩ rfl hlen hout
      have hiff : Kept (f, out) s ↔ Fits (f, out) s := ⟨Kept.fits hlen hlt, Fits.kept hlen hlt hout⟩
      rw [meets_cons, meets_cons, ← hiff]
      exact and_congr_right fun h => ih _ (cap_ringAppend f s) h.1 h.2.2
  exact hrun texts _ rfl hcap nil_suffix

/-- Two texts that fit, in a log of sixteen bytes. -/
theorem ringAppend_kept_sixteen :
    Meets Kept step (⟨zero, 16, 0⟩, []) [replicate 9 65, replicate 7 66] :=
  (ringAppend_kept_iff zero 16 (by decide) (by decide) _).2 (by decide)

/-- **The end of the buffer is passed**: eight bytes stay, and eight bytes and a zero follow. -/
theorem append_past_end :
    ¬ Meets Kept step (⟨zero, 16, 0⟩, []) [replicate 9 65, replicate 8 66] :=
  fun h => absurd (h.2.1.2.1 16 (by decide)) (by decide)

end LogFile

end Makar
