import Makar.Dyadic

/-!
# Tilings by dyadic blocks

The abstract picture of a buddy system: a set `M` of numbers tiled by
aligned blocks, each a start and an order. What each block is used for is
not part of the picture. The three moves a buddy system makes are the three
ways a tiling changes: a new number comes in as a block of its own
(`Tiles.insert`), a block and its buddy become one (`Tiles.merge`), a block
becomes its two halves (`Tiles.split`). Only the first changes what is
tiled.
-/

namespace Makar

open Finset Set

variable {top : ℕ} {M : Set ℕ} {B : Set (ℕ × ℕ)} {f o x : ℕ}

/-- **The blocks `B` tile `M`**: each is aligned and below the top order, no
two overlap, and together they cover exactly `M`. -/
structure Tiles (top : ℕ) (M : Set ℕ) (B : Set (ℕ × ℕ)) : Prop where
  /-- Every order is one the system has. -/
  order_lt : ∀ b ∈ B, b.2 < top
  /-- Every block starts at a multiple of its size. -/
  aligned : ∀ b ∈ B, Aligned b.1 b.2
  /-- Distinct blocks do not overlap. -/
  apart : ∀ b ∈ B, ∀ c ∈ B, b ≠ c → Apart b.1 b.2 c.1 c.2
  /-- The blocks cover `M` and nothing else. -/
  covers : ∀ x, x ∈ M ↔ ∃ b ∈ B, Covers b.1 b.2 x

namespace Tiles

/-- A block of the tiling lies in what is tiled. -/
theorem mem_of_covers (h : Tiles top M B) {b : ℕ × ℕ} (hb : b ∈ B)
    (hx : Covers b.1 b.2 x) : x ∈ M :=
  (h.covers x).2 ⟨b, hb, hx⟩

/-- A number is in at most one block. -/
theorem eq_of_covers (h : Tiles top M B) {b c : ℕ × ℕ} (hb : b ∈ B) (hc : c ∈ B)
    (hbx : Covers b.1 b.2 x) (hcx : Covers c.1 c.2 x) : b = c := by
  by_contra hne
  exact apart_iff.1 (h.apart b hb c hc hne) x hbx hcx

/-- No block at all tiles nothing. -/
theorem empty (top : ℕ) : Tiles top ∅ ∅ :=
  ⟨by simp, by simp, by simp, by simp⟩

/-- A block goes away, and its numbers with it. -/
theorem remove (h : Tiles top M (Insert.insert (f, o) B)) (hf : (f, o) ∉ B) :
    Tiles top {x ∈ M | ¬ Covers f o x} B := by
  have hin : ∀ b ∈ B, b ∈ Insert.insert (f, o) B := fun b hb => mem_insert_of_mem _ hb
  refine ⟨fun b hb => h.order_lt b (hin b hb), fun b hb => h.aligned b (hin b hb),
    fun b hb c hc => h.apart b (hin b hb) c (hin c hc), fun y => ⟨?_, ?_⟩⟩
  · rintro ⟨hy, hno⟩
    obtain ⟨b, rfl | hb, hby⟩ := (h.covers y).1 hy
    · exact absurd hby hno
    · exact ⟨b, hb, hby⟩
  · rintro ⟨b, hb, hby⟩
    refine ⟨h.mem_of_covers (hin b hb) hby, fun hfy => hf ?_⟩
    rwa [h.eq_of_covers (mem_insert _ _) (hin b hb) hfy hby]

/-- A block comes in, of numbers that were in none. -/
theorem add (h : Tiles top M B) (ho : o < top) (hal : Aligned f o)
    (hnew : ∀ x ∈ M, ¬ Covers f o x) :
    Tiles top {x | Covers f o x ∨ x ∈ M} (Insert.insert (f, o) B) := by
  have hapart : ∀ b ∈ B, Apart f o b.1 b.2 := fun b hb =>
    apart_iff.2 fun y hy hby => hnew y (h.mem_of_covers hb hby) hy
  refine ⟨?_, ?_, ?_, fun y => ?_⟩
  · rintro b (rfl | hb)
    · exact ho
    · exact h.order_lt b hb
  · rintro b (rfl | hb)
    · exact hal
    · exact h.aligned b hb
  · rintro b (rfl | hb) c (rfl | hc) hne
    · exact absurd rfl hne
    · exact hapart c hc
    · exact (hapart b hb).symm
    · exact h.apart b hb c hc hne
  · rw [exists_mem_insert, ← h.covers]
    rfl

/-- **A new number comes in** as a block of order zero. -/
theorem insert (h : Tiles top M B) (htop : 0 < top) (hx : x ∉ M) :
    Tiles top (insert x M) (insert (x, 0) B) := by
  have hadd := h.add htop (aligned_zero x) fun y hy hyx => hx (covers_zero.1 hyx ▸ hy)
  simp only [covers_zero] at hadd
  exact hadd

/-- **A block and its buddy become one**, of the order above. -/
theorem merge (h : Tiles top M (Insert.insert (f, o) (Insert.insert (buddyOf f o, o) B)))
    (hf : (f, o) ∉ Insert.insert (buddyOf f o, o) B) (hb : (buddyOf f o, o) ∉ B)
    (ho : o + 1 < top) : Tiles top M (Insert.insert (lowerHalf f o, o + 1) B) := by
  have hal := h.aligned _ (mem_insert _ _)
  have hcov := covers_lowerHalf hal
  have hadd := ((h.remove hf).remove hb).add ho (aligned_lowerHalf hal) (fun y hy hyl => by
    rcases (hcov y).1 hyl with hyf | hyb
    · exact hy.1.2 hyf
    · exact hy.2 hyb)
  have hM : {x | Covers (lowerHalf f o) (o + 1) x
      ∨ x ∈ {x ∈ {x ∈ M | ¬ Covers f o x} | ¬ Covers (buddyOf f o) o x}} = M := by
    ext y
    have h₁ := h.mem_of_covers (x := y) (mem_insert _ _)
    have h₂ := h.mem_of_covers (x := y) (mem_insert_of_mem _ (mem_insert _ _))
    simp only [mem_ofPred_eq, hcov]
    tauto
  rwa [hM] at hadd

/-- **A block becomes its two halves.** -/
theorem split (h : Tiles top M (Insert.insert (f, o + 1) B)) (hf : (f, o + 1) ∉ B) :
    Tiles top M (Insert.insert (f, o) (Insert.insert (f + 2 ^ o, o) B)) := by
  have hal := h.aligned _ (mem_insert _ _)
  have hlt := Nat.lt_of_succ_lt (h.order_lt _ (mem_insert _ _))
  have hcov := covers_halves f o
  have hadd := ((h.remove hf).add hlt hal.upper fun y hy hyu => hy.2 ((hcov y).2 (.inr hyu))).add
    hlt hal.of_succ (fun y hy hyf => by
      rcases hy with hyu | hy
      · exact apart_iff.1 (apart_halves f o) y hyf hyu
      · exact hy.2 ((hcov y).2 (.inl hyf)))
  have hM : {x | Covers f o x ∨ x ∈ {x | Covers (f + 2 ^ o) o x
      ∨ x ∈ {x ∈ M | ¬ Covers f (o + 1) x}}} = M := by
    ext y
    have h₁ := h.mem_of_covers (x := y) (mem_insert _ _)
    simp only [mem_ofPred_eq, hcov] at h₁ ⊢
    tauto
  rwa [hM] at hadd

end Tiles

/-- **Blocks that are apart lie side by side**: their sizes add up to the size of
the set they make up. -/
theorem sum_two_pow_eq_ncard {ι : Type*} (F : Finset ι) (b : ι → ℕ × ℕ)
    (hapart : ∀ i ∈ F, ∀ j ∈ F, i ≠ j → Apart (b i).1 (b i).2 (b j).1 (b j).2) :
    ∑ i ∈ F, 2 ^ (b i).2 = {x | ∃ i ∈ F, Covers (b i).1 (b i).2 x}.ncard := by
  classical
  have hdisj : (F : Set ι).PairwiseDisjoint
      (fun i => Finset.Ico (b i).1 ((b i).1 + 2 ^ (b i).2)) := by
    intro i hi j hj hne
    refine disjoint_left.2 (fun x hx hx' => ?_)
    exact apart_iff.1 (hapart i hi j hj hne) x (mem_Ico.1 hx) (mem_Ico.1 hx')
  have hcard := card_biUnion hdisj
  simp only [Nat.card_Ico, Nat.add_sub_cancel_left] at hcard
  rw [← hcard, ← ncard_coe_finset]
  congr 1
  ext x
  simp only [coe_biUnion, coe_Ico, Set.mem_iUnion, Set.mem_Ico, exists_prop, Set.mem_ofPred_eq,
    Covers, mem_coe]

end Makar
