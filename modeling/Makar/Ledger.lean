import Mathlib.Tactic

/-!
# Reference counts and their holders

A reference count is right when it is at least the number of those who rely on
it. The holders of a resource are of two kinds here: places of a data structure
that refer to it, given by a relation `R h f` ("holder `h` refers to resource
`f`"), and loose references, a multiset `L`, held by code that has acquired one
and not yet put it anywhere. `Covered R L rc` says that `rc` counts all of them.

It is an inequality on purpose. A reference that is forgotten leaves the count
too high, which wastes the resource and harms nobody; a count that is too low
hands one resource to two owners. So the operations that keep `Covered` are to
acquire, to release what is held loose, to move a reference between the two
kinds of holders, and to forget one. What one gets from it is uniqueness: where
the count is one, there is one holder (`Covered.unique`,
`Covered.not_mem_of_refers`).
-/

namespace Makar

open List Multiset Set

variable {H F : Type*}

section Holders

variable [DecidableEq F] {R R' : H → F → Prop} {L L' N : Multiset F}
  {rc rc' : F → ℕ} {f : F} {h h' : H}

/-- **Every reference is counted**: the holders of each resource and the loose
references to it are no more than its count. -/
def Covered (R : H → F → Prop) (L : Multiset F) (rc : F → ℕ) : Prop :=
  ∀ f, Set.encard {h | R h f} + (L.count f : ℕ∞) ≤ (rc f : ℕ∞)

namespace Covered

/-! ## One holder where the count is one -/

section

variable (hc : Covered R L rc)
include hc

/-- What a holder refers to has a positive count. -/
theorem pos_of_refers (hr : R h f) : 1 ≤ rc f := by
  have h₁ : (1 : ℕ∞) ≤ encard {h | R h f} := one_le_encard_iff_nonempty.2 ⟨h, hr⟩
  have h₂ : (1 : ℕ∞) ≤ (rc f : ℕ∞) := (h₁.trans le_self_add).trans (hc f)
  exact_mod_cast h₂

/-- What is held loose has a positive count. -/
theorem pos_of_mem (hf : f ∈ L) : 1 ≤ rc f := by
  have h₁ : 1 ≤ L.count f := one_le_count_iff_mem.2 hf
  have h₂ : (L.count f : ℕ∞) ≤ (rc f : ℕ∞) := le_add_self.trans (hc f)
  exact h₁.trans (by exact_mod_cast h₂)

/-- Loose references are counted. -/
theorem count_le (f : F) : L.count f ≤ rc f := by
  have h₂ : (L.count f : ℕ∞) ≤ (rc f : ℕ∞) := le_add_self.trans (hc f)
  exact_mod_cast h₂

/-- A resource that a holder refers to and that is held loose has a count of at
least two. -/
theorem two_le (hr : R h f) (hf : f ∈ L) : 2 ≤ rc f := by
  have h₁ : (1 : ℕ∞) ≤ encard {h | R h f} := one_le_encard_iff_nonempty.2 ⟨h, hr⟩
  have h₂ : (1 : ℕ∞) ≤ (L.count f : ℕ∞) := by
    exact_mod_cast one_le_count_iff_mem.2 hf
  have h₃ : (2 : ℕ∞) ≤ (rc f : ℕ∞) := by
    calc (2 : ℕ∞) = 1 + 1 := one_add_one_eq_two.symm
      _ ≤ _ := add_le_add h₁ h₂
      _ ≤ _ := hc f
  exact_mod_cast h₃

/-- **One count, one holder.** -/
theorem unique (hone : rc f ≤ 1) (hr : R h f) (hr' : R h' f) : h = h' := by
  have h₁ : encard {h | R h f} ≤ 1 := by
    refine (le_self_add.trans (hc f)).trans ?_
    exact_mod_cast hone
  exact encard_le_one_iff.1 h₁ h h' hr hr'

/-- What is counted once and referred to is not held loose. -/
theorem not_mem_of_refers (hone : rc f ≤ 1) (hr : R h f) : f ∉ L := by
  intro hf
  have := hc.two_le hr hf
  omega

end

/-! ## Acquiring, releasing, forgetting -/

/-- Counts may grow, and references may be forgotten. -/
theorem mono (hc : Covered R L rc) (hR : ∀ h f, R' h f → R h f) (hL : L' ≤ L)
    (hrc : ∀ f, rc f ≤ rc' f) : Covered R' L' rc' := by
  intro f
  have h₁ : encard {h | R' h f} ≤ encard {h | R h f} :=
    encard_le_encard (fun h => hR h f)
  have h₂ : (L'.count f : ℕ∞) ≤ (L.count f : ℕ∞) := by
    exact_mod_cast count_le_of_le f hL
  have h₃ : (rc f : ℕ∞) ≤ (rc' f : ℕ∞) := by exact_mod_cast hrc f
  exact (add_le_add h₁ h₂).trans ((hc f).trans h₃)

/-- One more on the count is one more loose reference. -/
theorem acquire (hc : Covered R L rc) (hf : rc f + 1 ≤ rc' f) (hg : ∀ g, g ≠ f → rc g ≤ rc' g) :
    Covered R (f ::ₘ L) rc' := by
  intro g
  by_cases hgf : g = f
  · subst hgf
    rw [Multiset.count_cons_self, Nat.cast_add, Nat.cast_one, ← add_assoc]
    have h₁ : ((rc g + 1 : ℕ) : ℕ∞) ≤ (rc' g : ℕ∞) := by exact_mod_cast hf
    rw [Nat.cast_add, Nat.cast_one] at h₁
    exact (add_le_add (hc g) le_rfl).trans h₁
  · rw [Multiset.count_cons_of_ne hgf]
    have h₁ : (rc g : ℕ∞) ≤ (rc' g : ℕ∞) := by exact_mod_cast hg g hgf
    exact (hc g).trans h₁

/-- A loose reference may be taken off the count. -/
theorem release (hc : Covered R (f ::ₘ L) rc) (hf : rc f ≤ rc' f + 1)
    (hg : ∀ g, g ≠ f → rc g ≤ rc' g) : Covered R L rc' := by
  intro g
  have h₁ := hc g
  by_cases hgf : g = f
  · subst hgf
    rw [Multiset.count_cons_self, Nat.cast_add, Nat.cast_one, ← add_assoc] at h₁
    have h₂ : (rc g : ℕ∞) ≤ (rc' g : ℕ∞) + 1 := by exact_mod_cast hf
    exact (ENat.add_le_add_iff_right ENat.one_ne_top).1 (h₁.trans h₂)
  · rw [Multiset.count_cons_of_ne hgf] at h₁
    have h₂ : (rc g : ℕ∞) ≤ (rc' g : ℕ∞) := by exact_mod_cast hg g hgf
    exact h₁.trans h₂

/-! ## Moving references between the holders and the hand -/

/-- New holders for loose references: `N` are the references that go, and the
new holders of each resource are at most as many. -/
theorem put (hc : Covered R (N + L) rc) (B : F → Set H)
    (hR : ∀ h f, R' h f → R h f ∨ h ∈ B f)
    (hB : ∀ f, (B f).encard ≤ (N.count f : ℕ∞)) : Covered R' L rc := by
  intro f
  have h₁ : encard {h | R' h f} ≤ encard {h | R h f} + (B f).encard :=
    (encard_le_encard (fun h => hR h f)).trans (encard_union_le _ _)
  refine le_trans ?_ (hc f)
  rw [count_add, Nat.cast_add, ← add_assoc]
  exact add_le_add (h₁.trans (add_le_add le_rfl (hB f))) le_rfl

/-- References taken from their holders: the holders `B` of each resource give
theirs up, and the loose references `N` they leave are at most as many. -/
theorem take (hc : Covered R L rc) (B : F → Set H)
    (hR : ∀ h f, R' h f → R h f ∧ h ∉ B f) (hBR : ∀ f, ∀ h ∈ B f, R h f)
    (hB : ∀ f, (N.count f : ℕ∞) ≤ (B f).encard) : Covered R' (N + L) rc := by
  intro f
  have hdisj : Disjoint {h | R' h f} (B f) :=
    disjoint_left.2 (fun h hr => (hR h f hr).2)
  have hsub : {h | R' h f} ∪ B f ⊆ {h | R h f} :=
    union_subset (fun h hr => (hR h f hr).1) (hBR f)
  have h₁ : encard {h | R' h f} + (B f).encard ≤ encard {h | R h f} := by
    rw [← encard_union_eq hdisj]
    exact encard_le_encard hsub
  refine le_trans ?_ (hc f)
  rw [count_add, Nat.cast_add, ← add_assoc]
  exact add_le_add ((add_le_add le_rfl (hB f)).trans h₁) le_rfl

/-- **One holder changes what it refers to.** The loose references `N'` it had
before come free and the loose references `N` it has after are used up. -/
theorem exchange (hc : Covered R (N + L) rc) (h₀ : H) (N' : Multiset F)
    (hR : ∀ h f, h ≠ h₀ → (R' h f ↔ R h f)) (hN : ∀ f, R' h₀ f → f ∈ N)
    (hN' : ∀ f, (N'.count f = 0 ∨ (N'.count f = 1 ∧ R h₀ f))) : Covered R' (N' + L) rc := by
  have htake : Covered (fun h f => R h f ∧ h ≠ h₀) (N' + (N + L)) rc := by
    refine hc.take (fun f => {h | h = h₀ ∧ R h₀ f}) (fun h f hr => ⟨hr.1, fun hb => hr.2 hb.1⟩)
      (fun f h hb => by rw [hb.1]; exact hb.2) (fun f => ?_)
    rcases hN' f with h0 | ⟨h1, hr⟩
    · rw [h0]
      exact zero_le
    · rw [h1, Nat.cast_one]
      exact one_le_encard_iff_nonempty.2 ⟨h₀, rfl, hr⟩
  rw [← add_assoc, add_comm N' N, add_assoc] at htake
  refine htake.put (fun f => {h | h = h₀ ∧ R' h₀ f}) (fun h f hr => ?_) (fun f => ?_)
  · by_cases hh : h = h₀
    · subst hh
      exact .inr ⟨rfl, hr⟩
    · exact .inl ⟨(hR h f hh).1 hr, hh⟩
  · by_cases hr : R' h₀ f
    · refine le_trans (encard_le_one_iff.2 (fun a b ha hb => ha.1.trans hb.1.symm)) ?_
      exact_mod_cast one_le_count_iff_mem.2 (hN f hr)
    · refine le_trans (le_of_eq ?_) zero_le
      rw [encard_eq_zero]
      exact eq_empty_of_forall_notMem (fun h hb => hr hb.2)

/-- A holder that goes on referring to what it referred to changes nothing. -/
theorem congr (hc : Covered R L rc) (hR : ∀ h f, R' h f → R h f) : Covered R' L rc :=
  hc.mono hR le_rfl (fun _ => le_rfl)

end Covered

end Holders

/-! ## Arrays of references -/

/-- A reference in a sum over a list is in one of the summands. -/
theorem exists_mem_of_mem_sum {A : Type*} {l : List A} {N : A → Multiset F} {f : F}
    (hf : f ∈ (l.map N).sum) : ∃ a ∈ l, f ∈ N a := by
  induction l with
  | nil => exact absurd hf (notMem_zero f)
  | cons a l ih =>
    rw [List.map_cons, List.sum_cons, mem_add] at hf
    rcases hf with hf | hf
    · exact ⟨a, mem_cons_self, hf⟩
    · obtain ⟨b, hb, hfb⟩ := ih hf
      exact ⟨b, mem_cons_of_mem a hb, hfb⟩

/-- A sum over the places of a table grows by what is put into an empty
place. -/
theorem sum_range_update {N N' : ℕ → Multiset F} {n k : ℕ} (hk : k < n) (hz : N k = 0)
    (hoff : ∀ i, i ≠ k → N' i = N i) :
    ((List.range n).map N').sum = N' k + ((List.range n).map N).sum := by
  induction n with
  | zero => exact absurd hk (Nat.not_lt_zero k)
  | succ n ih =>
    rw [List.range_succ, List.map_append, List.map_append, List.sum_append, List.sum_append,
      List.map_singleton, List.map_singleton, List.sum_singleton, List.sum_singleton]
    by_cases hkn : k = n
    · subst hkn
      have hsame : (List.range k).map N' = (List.range k).map N :=
        List.map_congr_left (fun i hi => hoff i (List.mem_range.1 hi).ne)
      rw [hsame, hz, add_zero, add_comm]
    · rw [ih (by omega), hoff n (Ne.symm hkn), add_assoc]

/-- The references in the first `n` places of an array. -/
def tally (ref : ℕ → Option F) (n : ℕ) : Multiset F := ((List.range n).filterMap ref : List F)

theorem tally_succ (ref : ℕ → Option F) (n : ℕ) :
    tally ref (n + 1) = (ref n).elim 0 (fun f => {f}) + tally ref n := by
  unfold tally
  rw [List.range_succ, List.filterMap_append, ← coe_add, add_comm]
  cases hr : ref n with
  | none => simp [List.filterMap, hr]
  | some f => simp [List.filterMap, hr]

/-- Filling an empty place of an array adds the one reference. -/
theorem tally_update {ref ref' : ℕ → Option F} {n j : ℕ} {f : F} (hj : j < n)
    (hnone : ref j = none) (hsome : ref' j = some f) (hoff : ∀ k, k ≠ j → ref' k = ref k) :
    tally ref' n = f ::ₘ tally ref n := by
  induction n with
  | zero => exact absurd hj (Nat.not_lt_zero j)
  | succ n ih =>
    rw [tally_succ, tally_succ]
    rcases Nat.lt_succ_iff_lt_or_eq.1 hj with hlt | rfl
    · rw [ih hlt, hoff n (by omega), add_cons]
    · have hsame : tally ref' j = tally ref j := by
        unfold tally
        congr 1
        refine filterMap_congr (fun k hk => hoff k ?_)
        have := List.mem_range.1 hk
        omega
      rw [hsame, hnone, hsome]
      simp

/-- The number of references to a resource in an array is the number of places
that refer to it. -/
theorem encard_places [DecidableEq F] (ref : ℕ → Option F) (n : ℕ) (f : F) :
    Set.encard {j | j < n ∧ ref j = some f} = ((tally ref n).count f : ℕ∞) := by
  induction n with
  | zero =>
    have he : {j | j < 0 ∧ ref j = some f} = (∅ : Set ℕ) :=
      eq_empty_of_forall_notMem (fun j hj => Nat.not_lt_zero j hj.1)
    rw [he, encard_empty]
    rfl
  | succ n ih =>
    rw [tally_succ, count_add, Nat.cast_add, ← ih]
    by_cases hr : ref n = some f
    · have he : {j | j < n + 1 ∧ ref j = some f} = insert n {j | j < n ∧ ref j = some f} := by
        ext j
        simp only [mem_insert_iff, mem_ofPred_eq]
        constructor
        · rintro ⟨hj, hf⟩
          rcases Nat.lt_succ_iff_lt_or_eq.1 hj with h | h
          · exact .inr ⟨h, hf⟩
          · exact .inl h
        · rintro (rfl | ⟨hj, hf⟩)
          · exact ⟨Nat.lt_succ_self _, hr⟩
          · exact ⟨Nat.lt_succ_of_lt hj, hf⟩
      rw [he, encard_insert_of_notMem (fun hn => Nat.lt_irrefl n hn.1), hr, add_comm]
      simp
    · have he : {j | j < n + 1 ∧ ref j = some f} = {j | j < n ∧ ref j = some f} := by
        ext j
        constructor
        · rintro ⟨hj, hf⟩
          refine ⟨lt_of_le_of_ne (Nat.lt_succ_iff.1 hj) ?_, hf⟩
          rintro rfl
          exact hr hf
        · rintro ⟨hj, hf⟩
          exact ⟨Nat.lt_succ_of_lt hj, hf⟩
      rw [he]
      cases hn : ref n with
      | none => simp
      | some g =>
        have hgf : f ≠ g := by
          rintro rfl
          exact hr hn
        simp [hgf]

end Makar
