import Mathlib

/-!
# Patterns of the shell

`glob_match` tries what follows a star at every place of the name but its end. It need not try
it there: what follows begins with a character that is no star, and that needs one of the name.
-/

namespace Makar

namespace Glob

open List

/-- The loop behind a star: the first place of the name, before its end, from which the rest
matches. -/
def scan (rest : List Char → Bool) : List Char → Bool
  | [] => false
  | c :: name => rest (c :: name) || scan rest name

/-- `glob_match`. -/
def globMatch : List Char → List Char → Bool
  | [], name => name.isEmpty
  | c :: pat, name =>
    if c = '*' then
      let pat' := pat.dropWhile (· = '*')
      if pat' = [] then true else scan (fun name => globMatch pat' name) name
    else match name with
      | [] => false
      | d :: name => if c = '?' ∨ c = d then globMatch pat name else false
termination_by pat => pat.length
decreasing_by
  · exact Nat.lt_succ_of_le (dropWhile_sublist _).length_le
  · exact Nat.lt_succ_self _

/-- What a character of a pattern stands for. -/
def Piece (c : Char) (p : List Char) : Prop := c = '*' ∨ ∃ d, p = [d] ∧ (c = '?' ∨ c = d)

/-- The name is made of pieces, one for each character of the pattern. -/
def Fits (pat name : List Char) : Prop := ∃ ps, Forall₂ Piece pat ps ∧ ps.flatten = name

variable {c : Char} {pat name : List Char}

theorem fits_nil : Fits [] name ↔ name = [] := by
  constructor
  · rintro ⟨_, ⟨⟩, rfl⟩
    rfl
  · rintro rfl
    exact ⟨[], .nil, rfl⟩

theorem fits_cons : Fits (c :: pat) name ↔ ∃ p n, Piece c p ∧ Fits pat n ∧ p ++ n = name := by
  constructor
  · rintro ⟨_, h, rfl⟩
    cases h with
    | cons hp hps => exact ⟨_, _, hp, ⟨_, hps, rfl⟩, rfl⟩
  · rintro ⟨p, _, hp, ⟨ps, hps, rfl⟩, rfl⟩
    exact ⟨p :: ps, .cons hp hps, rfl⟩

theorem fits_star : Fits ('*' :: pat) name ↔ ∃ n, n <:+ name ∧ Fits pat n := by
  rw [fits_cons]
  constructor
  · rintro ⟨p, n, -, hn, rfl⟩
    exact ⟨n, suffix_append p n, hn⟩
  · rintro ⟨n, ⟨p, hp⟩, hn⟩
    exact ⟨p, n, .inl rfl, hn, hp⟩

/-- Stars behind a star add nothing. -/
theorem fits_dropWhile : Fits ('*' :: pat.dropWhile (· = '*')) name ↔ Fits ('*' :: pat) name := by
  induction pat with
  | nil => rfl
  | cons c pat ih =>
    by_cases hc : c = '*'
    · subst hc
      rw [dropWhile_cons_of_pos (by simp), ih, fits_star, fits_star]
      constructor
      · rintro ⟨n, hn, h⟩
        exact ⟨n, hn, fits_star.2 ⟨n, suffix_rfl, h⟩⟩
      · rintro ⟨n, hn, h⟩
        obtain ⟨n', hn', h⟩ := fits_star.1 h
        exact ⟨n', hn'.trans hn, h⟩
    · rw [dropWhile_cons_of_neg (by simp [hc])]

/-- Any other character stands for one of the name. -/
theorem fits_cons_of_ne (hc : c ≠ '*') :
    Fits (c :: pat) name ↔ ∃ d n, name = d :: n ∧ (c = '?' ∨ c = d) ∧ Fits pat n := by
  rw [fits_cons]
  constructor
  · rintro ⟨_, n, hp, hn, rfl⟩
    obtain ⟨d, rfl, hd⟩ := hp.resolve_left hc
    exact ⟨d, n, rfl, hd, hn⟩
  · rintro ⟨d, n, rfl, hd, hn⟩
    exact ⟨[d], n, .inr ⟨d, rfl, hd⟩, hn, rfl⟩

theorem scan_iff {rest : List Char → Bool} :
    scan rest name = true ↔ ∃ n, n <:+ name ∧ n ≠ [] ∧ rest n = true := by
  induction name with
  | nil => simp +contextual [scan]
  | cons c name ih =>
    rw [scan, Bool.or_eq_true, ih]
    constructor
    · rintro (h | ⟨n, hn, h⟩)
      · exact ⟨_, suffix_rfl, cons_ne_nil _ _, h⟩
      · exact ⟨n, hn.trans (suffix_cons c name), h⟩
    · rintro ⟨n, hn, hne, h⟩
      rcases suffix_cons_iff.1 hn with rfl | hn
      · exact .inl h
      · exact .inr ⟨n, hn, hne, h⟩

/-- **`glob_match` accepts a name exactly if it can be cut into pieces** for the characters of
the pattern, from left to right. -/
theorem globMatch_iff (pat name : List Char) :
    globMatch pat name = true ↔ Fits pat name := by
  fun_induction globMatch pat name with
  | case1 name => rw [fits_nil, List.isEmpty_iff]
  | case2 pat name pat' hpat =>
    rw [← fits_dropWhile, fits_star]
    exact iff_of_true rfl ⟨[], nil_suffix, hpat ▸ fits_nil.2 rfl⟩
  | case3 pat name pat' hpat ih =>
    rw [scan_iff, ← fits_dropWhile, fits_star]
    refine exists_congr fun n => and_congr_right fun _ => ?_
    rw [ih, and_iff_right_iff_imp]
    -- what follows the stars is no star
    rintro h rfl
    obtain ⟨c, l, hcl⟩ := exists_cons_of_ne_nil hpat
    have hc : c ≠ '*' := by
      have hhead := head_dropWhile_not (· = '*') hpat
      simp only [show dropWhile (· = '*') pat = c :: l from hcl, head_cons] at hhead
      simpa using hhead
    rw [hcl, fits_cons_of_ne hc] at h
    obtain ⟨_, _, ⟨⟩, -⟩ := h
  | case4 c pat hc => simp [fits_cons_of_ne hc]
  | case5 c pat hc d name hcd ih =>
    rw [ih, fits_cons_of_ne hc]
    constructor
    · exact fun h => ⟨d, name, rfl, hcd, h⟩
    · rintro ⟨_, _, ⟨⟩, -, h⟩
      exact h
  | case6 c pat hc d name hcd =>
    rw [fits_cons_of_ne hc]
    refine iff_of_false Bool.false_ne_true ?_
    rintro ⟨_, _, ⟨⟩, h, -⟩
    exact hcd h

end Glob

end Makar
