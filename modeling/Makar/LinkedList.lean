import Mathlib.Tactic

/-!
# Doubly linked lists threaded through index arrays

A list whose links live in arrays is a head and two functions, `nxt` and
`prv`, with a sentinel `nil` for "no node". `Seg` is a stretch of such a
list: from the head `h`, whose back link is `p`, through the nodes `l`, to
the node `m` the last one points at. A whole list is a stretch ending at the
sentinel (`Linked`).

Two operations matter, and both are stated over any new pair of link
functions that agrees with what the operation writes: putting a node in
front (`Linked.push`) and taking a node out (`Linked.remove`). Each reads
the links of the nodes of its own list only, so two lists over disjoint
nodes never disturb each other (`Linked.congr`).
-/

namespace Makar

open List

variable {α : Type*} {nil p h m : α} {nxt prv nxt' prv' : α → α} {l a b : List α}

/-- A stretch of a doubly linked list: the nodes `l`, entered at `h` with
back link `p`, the last one pointing at `m`. -/
def Seg (nxt prv : α → α) : α → α → List α → α → Prop
  | _, h, [], m => h = m
  | p, h, x :: l, m => h = x ∧ prv x = p ∧ Seg nxt prv x (nxt x) l m

/-- **A doubly linked list**: the nodes `l` in order from the head `h`, each
with its predecessor as back link, ending at the sentinel, and no node met
twice – so following the links from the head terminates. -/
structure Linked (nil : α) (nxt prv : α → α) (h : α) (l : List α) : Prop where
  /-- The links follow the nodes in order. -/
  seg : Seg nxt prv nil h l nil
  /-- The sentinel is not a node. -/
  ne_nil : ∀ x ∈ l, x ≠ nil
  /-- The list is acyclic. -/
  nodup : l.Nodup

section

variable (hn : ∀ x ∈ l, nxt' x = nxt x) (hp : ∀ x ∈ l, prv' x = prv x)
include hn hp

/-- A stretch reads the links of its own nodes only. -/
theorem Seg.congr (hs : Seg nxt prv p h l m) : Seg nxt' prv' p h l m := by
  induction l generalizing p h with
  | nil => exact hs
  | cons x l ih =>
    obtain ⟨rfl, hpx, hs⟩ := hs
    refine ⟨rfl, (hp h mem_cons_self).trans hpx, ?_⟩
    rw [hn h mem_cons_self]
    exact ih (fun y hy => hn y (mem_cons_of_mem h hy))
      (fun y hy => hp y (mem_cons_of_mem h hy)) hs

/-- A list is left alone by whatever leaves the links of its nodes alone. -/
theorem Linked.congr (hl : Linked nil nxt prv h l) : Linked nil nxt' prv' h l :=
  ⟨hl.seg.congr hn hp, hl.ne_nil, hl.nodup⟩

end

/-- The empty list is the one whose head is the sentinel. -/
theorem Linked.empty (nil : α) (nxt prv : α → α) : Linked nil nxt prv nil [] :=
  ⟨rfl, by simp, nodup_nil⟩

section

variable (hl : Linked nil nxt prv h l)
include hl

/-- The head is the sentinel exactly when there is no node. -/
theorem Linked.head_eq_nil_iff : h = nil ↔ l = [] := by
  cases l with
  | nil => exact ⟨fun _ => rfl, fun _ => hl.seg⟩
  | cons x l =>
    refine ⟨fun hh => ?_, fun hl' => absurd hl' (by simp)⟩
    have hx : h = x := hl.seg.1
    exact absurd (hx.symm.trans hh) (hl.ne_nil x mem_cons_self)

/-- A head that is not the sentinel is the first node. -/
theorem Linked.head_mem (hh : h ≠ nil) : h ∈ l := by
  cases l with
  | nil => exact absurd hl.seg hh
  | cons x l =>
    rw [show h = x from hl.seg.1]
    exact mem_cons_self

/-- **Putting a node in front.** The new node points at the old head and has
no predecessor, the old head, if any, points back at it, and no other link
changes. -/
theorem Linked.push {f : α} (hf : f ∉ l) (hfn : f ≠ nil) (hnf : nxt' f = h) (hpf : prv' f = nil)
    (hph : h ≠ nil → prv' h = f) (hn : ∀ x, x ≠ f → nxt' x = nxt x)
    (hp : ∀ x, x ≠ f → x ≠ h → prv' x = prv x) : Linked nil nxt' prv' f (f :: l) := by
  refine ⟨⟨rfl, hpf, ?_⟩, ?_, nodup_cons.2 ⟨hf, hl.nodup⟩⟩
  · rw [hnf]
    cases l with
    | nil => exact hl.seg
    | cons x l =>
      obtain ⟨rfl, -, hs⟩ := hl.seg
      have hnd := nodup_cons.1 hl.nodup
      have hne : ∀ y ∈ l, y ≠ f := fun y hy hyf => hf (hyf ▸ mem_cons_of_mem h hy)
      have hhf : h ≠ f := fun hhf => hf (hhf ▸ mem_cons_self)
      refine ⟨rfl, hph (hl.ne_nil h mem_cons_self), ?_⟩
      rw [hn h hhf]
      exact hs.congr (fun y hy => hn y (hne y hy))
        (fun y hy => hp y (hne y hy) (fun hyh => hnd.1 (hyh ▸ hy)))
  · intro x hx
    rcases mem_cons.1 hx with rfl | hx
    · exact hfn
    · exact hl.ne_nil x hx

end

/-- A stretch through `a` and then `b` is a stretch through `a` to the node
where the stretch through `b` begins; the back link there is the last node of
`a`. -/
theorem seg_append (nxt prv : α → α) (p h m : α) (a b : List α) :
    Seg nxt prv p h (a ++ b) m
      ↔ ∃ k, Seg nxt prv p h a k ∧ Seg nxt prv (a.getLastD p) k b m := by
  induction a generalizing p h with
  | nil =>
    constructor
    · intro hs
      exact ⟨h, rfl, hs⟩
    · rintro ⟨k, rfl, hs⟩
      exact hs
  | cons x a ih =>
    rw [cons_append, getLastD_cons]
    constructor
    · rintro ⟨rfl, hpx, hs⟩
      obtain ⟨k, ha, hb⟩ := (ih _ _).1 hs
      exact ⟨k, ⟨rfl, hpx, ha⟩, hb⟩
    · rintro ⟨k, ⟨rfl, hpx, ha⟩, hb⟩
      exact ⟨rfl, hpx, (ih _ _).2 ⟨k, ha, hb⟩⟩

/-- The back link of a node is the node before it. -/
theorem Linked.prv_eq {f : α} (hl : Linked nil nxt prv h (a ++ f :: b)) :
    prv f = a.getLastD nil := by
  obtain ⟨k, -, hb⟩ := (seg_append nxt prv nil h nil a (f :: b)).1 hl.seg
  exact hb.2.1

/-- The node before another one is on the list. -/
theorem Linked.prv_mem {f : α} (hl : Linked nil nxt prv h (a ++ f :: b)) (hp : prv f ≠ nil) :
    prv f ∈ a := by
  rw [hl.prv_eq, getLastD_eq_getLast?] at hp ⊢
  cases hga : a.getLast? with
  | none => exact absurd (by rw [hga]; rfl) hp
  | some z => exact mem_of_getLast? hga

/-- The node after another one is on the list. -/
theorem Linked.nxt_mem {f : α} (hl : Linked nil nxt prv h (a ++ f :: b)) (hn : nxt f ≠ nil) :
    nxt f ∈ b := by
  obtain ⟨k, -, rfl, -, hb⟩ := (seg_append nxt prv nil h nil a (f :: b)).1 hl.seg
  cases b with
  | nil => exact absurd hb hn
  | cons y b =>
    rw [show nxt k = y from hb.1]
    exact mem_cons_self

/-- **Taking a node out.** Its successor becomes the successor of the node
before it, or the head when there is none, its predecessor becomes the back
link of the node after it, and no other link changes. -/
theorem Linked.remove {f h' : α} (hl : Linked nil nxt prv h (a ++ f :: b))
    (hh0 : prv f = nil → h' = nxt f) (hh1 : prv f ≠ nil → h' = h)
    (hnp : prv f ≠ nil → nxt' (prv f) = nxt f)
    (hpn : nxt f ≠ nil → prv' (nxt f) = prv f)
    (hn : ∀ x, x ≠ prv f → nxt' x = nxt x) (hp : ∀ x, x ≠ nxt f → prv' x = prv x) :
    Linked nil nxt' prv' h' (a ++ b) := by
  obtain ⟨k, ha, rfl, hpf, hb⟩ := (seg_append nxt prv nil h nil a (f :: b)).1 hl.seg
  have hnd := nodup_middle.1 hl.nodup
  have hndab : (a ++ b).Nodup := (nodup_cons.1 hnd).2
  have hdisj : ∀ x ∈ a, x ∉ b := fun x hx hxb => (disjoint_of_nodup_append hndab) hx hxb
  have hmem : ∀ x ∈ a ++ b, x ∈ a ++ k :: b := by
    intro x hx
    rcases mem_append.1 hx with hx | hx
    · exact mem_append_left _ hx
    · exact mem_append_right _ (mem_cons_of_mem k hx)
  -- the stretch after the node: only the back link of its first node moves
  have hb' : Seg nxt' prv' (prv k) (nxt k) b nil := by
    cases b with
    | nil => exact hb
    | cons y b =>
      obtain ⟨hky, -, hs⟩ := hb
      have hy : nxt k ≠ nil := by
        rw [hky]
        exact hl.ne_nil y (by simp)
      have hyb : y ∉ b := (nodup_cons.1 (nodup_append.1 hndab).2.1).1
      have hya : ∀ x ∈ y :: b, x ≠ prv k := by
        rintro x hx rfl
        exact hdisj _ (hl.prv_mem (hl.ne_nil _ (mem_append_right _ (mem_cons_of_mem k hx)))) hx
      refine ⟨hky, by rw [← hky]; exact hpn hy, ?_⟩
      rw [hn y (hya y mem_cons_self)]
      refine hs.congr (fun x hx => hn x (hya x (mem_cons_of_mem y hx)))
        (fun x hx => hp x (fun hxk => hyb ?_))
      rw [← hky, ← hxk]
      exact hx
  refine ⟨(seg_append nxt' prv' nil h' nil a b).2 ⟨nxt k, ?_, hpf ▸ hb'⟩,
    fun x hx => hl.ne_nil x (hmem x hx), hndab⟩
  -- the stretch before the node: only the link of its last node moves
  rcases eq_nil_or_concat' a with rfl | ⟨a, q, rfl⟩
  · exact hh0 hpf
  · have hpq : prv k = q := by simpa using hpf
    have hqn : prv k ≠ nil := by
      rw [hpq]
      exact hl.ne_nil q (by simp)
    obtain ⟨j, ha₁, ha₂⟩ := (seg_append nxt prv nil h k a [q]).1 ha
    obtain ⟨rfl, hpj, -⟩ := ha₂
    have hja : j ∉ a := by
      have hnda := (nodup_append.1 hndab).1
      exact fun hj => (disjoint_of_nodup_append hnda) hj mem_cons_self
    -- the successor of the removed node is not before it
    have hna : ∀ x ∈ a ++ [j], x ≠ nxt k := by
      rintro x hx rfl
      exact hdisj _ hx (hl.nxt_mem (hl.ne_nil _ (mem_append_left _ hx)))
    rw [hh1 hqn]
    refine (seg_append nxt' prv' nil h (nxt k) a [j]).2 ⟨j, ?_, rfl, ?_, ?_⟩
    · refine ha₁.congr (fun x hx => hn x (fun hxp => hja ?_))
        (fun x hx => hp x (hna x (mem_append_left _ hx)))
      rw [← hpq, ← hxp]
      exact hx
    · rw [hp j (hna j (by simp))]
      exact hpj
    · have := hnp hqn
      rw [hpq] at this
      exact this

end Makar
