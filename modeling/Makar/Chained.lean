import Mathlib.Tactic

/-!
# Singly linked lists

A list whose links are kept in some memory is a head and a function `nxt`, with a set of values
that end the list. `Chained fin nxt a l` says that the list from `a` on has the nodes `l`, in this
order. Since a node has one successor, the nodes are determined by the head (`Chained.unique`) and
no node is met twice (`Chained.nodup`): that the list ends is all that has to be said.

Programs follow such a list until a node they look for (`walkTo`), and they change it by giving one
node another successor (`Chained.relink`). Both are stated over any link function: what a program
writes elsewhere does not matter as long as the links of the nodes stay (`Chained.congr`).
-/

namespace Makar

open List

variable {α : Type*} {fin : α → Prop} {nxt nxt' : α → α} {a z p : α} {l l' xs ys zs : List α}

/-- **The list from a head on has these nodes.** -/
def Chained (fin : α → Prop) (nxt : α → α) : α → List α → Prop
  | a, [] => fin a
  | a, x :: l => a = x ∧ ¬fin x ∧ Chained fin nxt (nxt x) l

namespace Chained

section

variable (h : Chained fin nxt a l)
include h

/-- Only the links of the nodes matter. -/
theorem congr (hn : ∀ x ∈ l, nxt' x = nxt x) : Chained fin nxt' a l := by
  induction l generalizing a with
  | nil => exact h
  | cons x l ih =>
    refine ⟨h.1, h.2.1, ?_⟩
    rw [hn x mem_cons_self]
    exact ih h.2.2 fun y hy => hn y (mem_cons_of_mem _ hy)

theorem not_fin {x : α} (hx : x ∈ l) : ¬fin x := by
  induction l generalizing a with
  | nil => exact absurd hx not_mem_nil
  | cons y l ih =>
    obtain rfl | hx := mem_cons.1 hx
    · exact h.2.1
    · exact ih h.2.2 hx

/-- The nodes are determined by the head. -/
theorem unique (h' : Chained fin nxt a l') : l = l' := by
  induction l generalizing a l' with
  | nil =>
    cases l' with
    | nil => rfl
    | cons y l' => exact absurd (h'.1 ▸ h) h'.2.1
  | cons x l ih =>
    cases l' with
    | nil => exact absurd (h.1 ▸ h') h.2.1
    | cons y l' =>
      obtain ⟨rfl, -, h⟩ := h
      obtain ⟨rfl, -, h'⟩ := h'
      rw [ih h h']

end

/-- From a node on the list goes on with the nodes after it. -/
theorem from_node (h : Chained fin nxt a (xs ++ p :: ys)) : Chained fin nxt p (p :: ys) := by
  induction xs generalizing a with
  | nil => exact h.1 ▸ h
  | cons x xs ih => exact ih h.2.2

/-- No node is met twice: the rest of the list would be the same from both. -/
theorem nodup (h : Chained fin nxt a l) : l.Nodup := by
  induction l generalizing a with
  | nil => exact nodup_nil
  | cons x l ih =>
    refine nodup_cons.2 ⟨fun hx => ?_, ih h.2.2⟩
    obtain ⟨us, vs, rfl⟩ := append_of_mem hx
    have h1 : Chained fin nxt x (x :: vs) := from_node h.2.2
    have h2 := from_node (show Chained fin nxt a ([] ++ x :: (us ++ x :: vs)) from h) |>.unique h1
    have := congrArg length h2
    simp at this
    omega

/-- **A node gets another successor.** The nodes before it stay, and those after it are the ones of
the new list. -/
theorem relink (h : Chained fin nxt a (xs ++ p :: ys)) (hxs : ∀ x ∈ xs, nxt' x = nxt x)
    (hp : nxt' p = z) (hz : Chained fin nxt' z zs) : Chained fin nxt' a (xs ++ p :: zs) := by
  induction xs generalizing a with
  | nil => exact ⟨h.1, h.2.1, hp ▸ hz⟩
  | cons x xs ih =>
    refine ⟨h.1, h.2.1, ?_⟩
    rw [hxs x mem_cons_self]
    exact ih h.2.2 fun y hy => hxs y (mem_cons_of_mem _ hy)

/-- The nodes after a node. -/
theorem after_node (h : Chained fin nxt a (xs ++ p :: ys)) : Chained fin nxt (nxt p) ys :=
  (from_node h).2.2

/-- The head of a list is its first node, or ends it. -/
theorem head_cases (h : Chained fin nxt a l) : l = [] ∧ fin a ∨ ∃ l', l = a :: l' := by
  cases l with
  | nil => exact .inl ⟨rfl, h⟩
  | cons x l =>
    obtain ⟨rfl, -, -⟩ := h
    exact .inr ⟨l, rfl⟩

theorem fin_or_mem (h : Chained fin nxt a l) : fin a ∨ a ∈ l := by
  obtain ⟨-, hfin⟩ | ⟨l', rfl⟩ := head_cases h
  · exact .inl hfin
  · exact .inr mem_cons_self

/-- The head is in a stretch from it on. -/
theorem head_mem (h : Chained fin nxt a (xs ++ p :: ys)) : a ∈ xs ++ [p] := by
  cases xs with
  | nil => exact h.1 ▸ mem_singleton_self _
  | cons y xs => exact h.1 ▸ mem_cons_self

/-- **Looking for the last node of a stretch**, by what its successor is like. -/
theorem find?_last (h : Chained fin nxt a (xs ++ p :: ys)) {T : α → Bool}
    (hno : ∀ y ∈ xs ++ [p], T y = false) (hT : T (nxt p) = true) :
    (xs ++ p :: ys).find? (fun x => T (nxt x)) = some p := by
  induction xs generalizing a with
  | nil => exact find?_cons_of_pos hT
  | cons x xs ih =>
    have hx : T (nxt x) = false := hno _ (mem_cons_of_mem _ (head_mem h.2.2))
    rw [cons_append, find?_cons_of_neg (by simp [hx])]
    exact ih h.2.2 fun y hy => hno y (mem_cons_of_mem _ hy)

/-- A successor is a node or ends the list. -/
theorem nxt_mem (h : Chained fin nxt a l) {x : α} (hx : x ∈ l) : nxt x ∈ l ∨ fin (nxt x) := by
  obtain ⟨xs, ys, rfl⟩ := append_of_mem hx
  obtain hfin | hmem := fin_or_mem h.after_node
  · exact .inr hfin
  · exact .inl (by simp [hmem])

end Chained

/-- Follow the list until a node that is looked for, or to its end. -/
def walkTo (fin : α → Prop) [DecidablePred fin] (nxt : α → α) (stop : α → Bool) : ℕ → α → α
  | 0, a => a
  | n + 1, a => if fin a ∨ stop a then a else walkTo fin nxt stop n (nxt a)

variable [DecidablePred fin] {stop : α → Bool} {n : ℕ}

/-- **Where the walk ends**: at the first node that is looked for, or at the end. -/
theorem Chained.walkTo (h : Chained fin nxt a l) (hn : l.length < n) :
    (∃ x, l.find? stop = some x ∧ Makar.walkTo fin nxt stop n a = x)
      ∨ l.find? stop = none ∧ fin (Makar.walkTo fin nxt stop n a) := by
  induction n generalizing a l with
  | zero => omega
  | succ n ih =>
    unfold Makar.walkTo
    cases l with
    | nil =>
      rw [if_pos (.inl h)]
      exact .inr ⟨rfl, h⟩
    | cons x l =>
      obtain ⟨rfl, hfin, h⟩ := h
      by_cases hs : stop a = true
      · rw [if_pos (.inr hs), find?_cons_of_pos hs]
        exact .inl ⟨a, rfl, rfl⟩
      · rw [if_neg (not_or.2 ⟨hfin, hs⟩), find?_cons_of_neg hs]
        exact ih h (by simpa using hn)

end Makar
