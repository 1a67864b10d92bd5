import Makar.LinkedList
import Makar.Pmm

/-!
# The free lists of the allocator

`list_add` and `list_del` write several descriptors each, so what they do is
said once, field by field, and everything above uses these equations and
never unfolds them. From the equations comes the one fact about links the
rest needs: as long as the free lists are doubly linked lists of exactly the
free blocks of their order (`Pmm.Lists`), adding a block that is on no list
and removing one that is free keep them so.
-/

namespace Makar

open Function List

namespace Pmm

variable {s : Pmm} {f o p x : ℕ} {L : ℕ → List ℕ}

/-! ## One descriptor -/

theorem setPage_memMap (u : Page → Page) (x : ℕ) :
    (s.setPage f u).memMap x = if x = f then u (s.memMap f) else s.memMap x := by
  simp only [setPage, update_apply]

/-- A descriptor of one of two states is the one of the state chosen. -/
theorem ite_memMap (c : Prop) [Decidable c] (s t : Pmm) (x : ℕ) :
    (if c then s else t).memMap x = if c then s.memMap x else t.memMap x := by
  split_ifs <;> rfl

section

variable (u : Page → Page)

@[simp] theorem setPage_memMap_self : (s.setPage f u).memMap f = u (s.memMap f) := by
  simp [setPage]

@[simp] theorem setPage_memMap_of_ne (h : x ≠ f) : (s.setPage f u).memMap x = s.memMap x := by
  simp [setPage, h]

@[simp] theorem setPage_freeLists :
    (s.setPage f u).freeLists = s.freeLists := rfl

@[simp] theorem setPage_maxFrames :
    (s.setPage f u).maxFrames = s.maxFrames := rfl

@[simp] theorem setPage_freeFrames :
    (s.setPage f u).freeFrames = s.freeFrames := rfl

end

@[simp] theorem setHead_memMap : (s.setHead o f).memMap = s.memMap := rfl

@[simp] theorem setHead_freeLists :
    (s.setHead o f).freeLists = Function.update s.freeLists o f := rfl

@[simp] theorem setHead_maxFrames : (s.setHead o f).maxFrames = s.maxFrames := rfl

@[simp] theorem setHead_freeFrames : (s.setHead o f).freeFrames = s.freeFrames := rfl

/-! ## `list_add`, field by field -/

@[simp] theorem listAdd_maxFrames : (s.listAdd o f).maxFrames = s.maxFrames := by
  simp only [listAdd]
  split_ifs <;> rfl

@[simp] theorem listAdd_freeFrames : (s.listAdd o f).freeFrames = s.freeFrames := by
  simp only [listAdd]
  split_ifs <;> rfl

@[simp] theorem listAdd_freeLists :
    (s.listAdd o f).freeLists = Function.update s.freeLists o f := by
  simp only [listAdd]
  split_ifs <;> rfl

@[simp] theorem listAdd_refcount (x : ℕ) :
    ((s.listAdd o f).memMap x).refcount = (s.memMap x).refcount := by
  simp only [listAdd, setPage_memMap, setHead_memMap, ite_memMap]
  split_ifs <;> grind

theorem listAdd_order (x : ℕ) :
    ((s.listAdd o f).memMap x).order = if x = f then o else (s.memMap x).order := by
  simp only [listAdd, setPage_memMap, setHead_memMap, ite_memMap]
  split_ifs <;> grind

theorem listAdd_pgBuddy (x : ℕ) :
    ((s.listAdd o f).memMap x).pgBuddy = if x = f then true else (s.memMap x).pgBuddy := by
  simp only [listAdd, setPage_memMap, setHead_memMap, ite_memMap]
  split_ifs <;> grind

theorem listAdd_next (x : ℕ) :
    ((s.listAdd o f).memMap x).next
      = if x = f then s.freeLists o else (s.memMap x).next := by
  simp only [listAdd, setPage_memMap, setHead_memMap, ite_memMap]
  split_ifs <;> grind

theorem listAdd_prev (x : ℕ) :
    ((s.listAdd o f).memMap x).prev
      = if x = s.freeLists o ∧ s.freeLists o ≠ pmmNil then f
        else if x = f then pmmNil else (s.memMap x).prev := by
  simp only [listAdd, setPage_memMap, setHead_memMap, ite_memMap]
  split_ifs <;> grind

/-! ## `list_del`, field by field -/

@[simp] theorem listDel_maxFrames : (s.listDel o f).maxFrames = s.maxFrames := by
  simp only [listDel]
  split_ifs <;> rfl

@[simp] theorem listDel_freeFrames : (s.listDel o f).freeFrames = s.freeFrames := by
  simp only [listDel]
  split_ifs <;> rfl

theorem listDel_freeLists :
    (s.listDel o f).freeLists
      = if (s.memMap f).prev ≠ pmmNil then s.freeLists
        else Function.update s.freeLists o (s.memMap f).next := by
  simp only [listDel]
  split_ifs <;> rfl

@[simp] theorem listDel_refcount (x : ℕ) :
    ((s.listDel o f).memMap x).refcount = (s.memMap x).refcount := by
  simp only [listDel, setPage_memMap, setHead_memMap, ite_memMap]
  split_ifs <;> grind

@[simp] theorem listDel_order (x : ℕ) :
    ((s.listDel o f).memMap x).order = (s.memMap x).order := by
  simp only [listDel, setPage_memMap, setHead_memMap, ite_memMap]
  split_ifs <;> grind

theorem listDel_pgBuddy (x : ℕ) :
    ((s.listDel o f).memMap x).pgBuddy = if x = f then false else (s.memMap x).pgBuddy := by
  simp only [listDel, setPage_memMap, setHead_memMap, ite_memMap]
  split_ifs <;> grind

theorem listDel_next (x : ℕ) :
    ((s.listDel o f).memMap x).next
      = if x = (s.memMap f).prev ∧ (s.memMap f).prev ≠ pmmNil then (s.memMap f).next
        else (s.memMap x).next := by
  simp only [listDel, setPage_memMap, setHead_memMap, ite_memMap]
  split_ifs <;> grind

theorem listDel_prev (x : ℕ) :
    ((s.listDel o f).memMap x).prev
      = if x = (s.memMap f).next ∧ (s.memMap f).next ≠ pmmNil then (s.memMap f).prev
        else (s.memMap x).prev := by
  simp only [listDel, setPage_memMap, setHead_memMap, ite_memMap]
  split_ifs <;> grind

/-! ## The lists -/

/-- The frame heads a free block of that order. -/
def IsFree (s : Pmm) (f o : ℕ) : Prop :=
  (s.memMap f).pgBuddy = true ∧ (s.memMap f).order = o

instance : Decidable (s.IsFree f o) := inferInstanceAs (Decidable (_ ∧ _))

theorem isFree_listDel : (s.listDel o f).IsFree x p ↔ s.IsFree x p ∧ x ≠ f := by
  unfold IsFree
  rw [listDel_pgBuddy, listDel_order]
  by_cases hxf : x = f
  · simp [hxf]
  · simp [hxf]

theorem isFree_listAdd (hf : (s.memMap f).pgBuddy = false) :
    (s.listAdd o f).IsFree x p ↔ s.IsFree x p ∨ (x = f ∧ p = o) := by
  unfold IsFree
  rw [listAdd_pgBuddy, listAdd_order]
  by_cases hxf : x = f
  · subst hxf
    simp [hf, eq_comm]
  · simp [hxf]

/-- **The free lists are in order**: the list of each order is a doubly
linked list, of exactly the heads of the free blocks of that order. -/
structure Lists (s : Pmm) (L : ℕ → List ℕ) : Prop where
  /-- The links of each list follow its nodes. -/
  linked : ∀ o < pmmMaxOrder, Linked pmmNil (fun x => (s.memMap x).next)
    (fun x => (s.memMap x).prev) (s.freeLists o) (L o)
  /-- The nodes of a list are the free blocks of its order. -/
  mem_iff : ∀ o < pmmMaxOrder, ∀ f, f ∈ L o ↔ s.IsFree f o
  /-- A free block has an order the allocator has. -/
  order_lt : ∀ f, (s.memMap f).pgBuddy = true → (s.memMap f).order < pmmMaxOrder

/-- A node of a list is on no other list. -/
theorem Lists.eq_of_mem (h : s.Lists L) {p : ℕ} (ho : o < pmmMaxOrder)
    (hp : p < pmmMaxOrder) (hfo : f ∈ L o) (hfp : f ∈ L p) : o = p :=
  ((h.mem_iff o ho f).1 hfo).2.symm.trans ((h.mem_iff p hp f).1 hfp).2

/-- The head of a list that is not empty is a free block of its order. -/
theorem Lists.isFree_head (h : s.Lists L) (ho : o < pmmMaxOrder)
    (hne : s.freeLists o ≠ pmmNil) : s.IsFree (s.freeLists o) o :=
  (h.mem_iff o ho _).1 ((h.linked o ho).head_mem hne)

/-- The lists stay in order as long as the descriptors of the free blocks
keep their links and orders. -/
theorem Lists.congr {t : Pmm} (h : s.Lists L) (hfl : t.freeLists = s.freeLists)
    (hb : ∀ x, (t.memMap x).pgBuddy = (s.memMap x).pgBuddy)
    (hfree : ∀ x, (s.memMap x).pgBuddy = true → t.memMap x = s.memMap x) : t.Lists L := by
  have hmem : ∀ x p, t.IsFree x p ↔ s.IsFree x p := by
    intro x p
    unfold IsFree
    rw [hb x]
    refine and_congr_right (fun hx => ?_)
    rw [hfree x hx]
  refine ⟨fun p hp => ?_, fun p hp x => ?_, fun x hx => ?_⟩
  · rw [hfl]
    refine (h.linked p hp).congr (fun x hx => ?_) (fun x hx => ?_) <;>
      exact congrArg _ (hfree x ((h.mem_iff p hp x).1 hx).1)
  · rw [h.mem_iff p hp x, hmem]
  · rw [hb x] at hx
    rw [hfree x hx]
    exact h.order_lt x hx

/-- **`list_add` keeps the lists in order**, when the block is on none. -/
theorem Lists.listAdd (h : s.Lists L) (ho : o < pmmMaxOrder) (hf : f ≠ pmmNil)
    (hfree : (s.memMap f).pgBuddy = false) :
    (s.listAdd o f).Lists (Function.update L o (f :: L o)) := by
  have hnot : ∀ p < pmmMaxOrder, f ∉ L p := by
    intro p hp hfp
    have := ((h.mem_iff p hp f).1 hfp).1
    rw [hfree] at this
    exact Bool.false_ne_true this
  refine ⟨fun p hp => ?_, fun p hp x => ?_, fun x hx => ?_⟩
  · by_cases hpo : p = o
    · subst hpo
      rw [listAdd_freeLists, update_self, update_self]
      have hl := h.linked p hp
      have hhead : s.freeLists p ≠ pmmNil → s.freeLists p ≠ f :=
        fun hh hhf => hnot p hp (hhf ▸ hl.head_mem hh)
      refine hl.push (hnot p hp) hf ?_ ?_ ?_ ?_ ?_
      · exact (listAdd_next f).trans (if_pos rfl)
      · refine (listAdd_prev f).trans ?_
        rw [if_neg (fun hc => hhead hc.2 hc.1.symm), if_pos rfl]
      · exact fun hh => (listAdd_prev _).trans (if_pos ⟨rfl, hh⟩)
      · exact fun x hx => (listAdd_next x).trans (if_neg hx)
      · intro x hx hxh
        refine (listAdd_prev x).trans ?_
        rw [if_neg (fun hc => hxh hc.1), if_neg hx]
    · rw [listAdd_freeLists, update_of_ne hpo, update_of_ne hpo]
      have hne : ∀ x ∈ L p, x ≠ f := fun x hx hxf => hnot p hp (hxf ▸ hx)
      refine (h.linked p hp).congr (fun x hx => ?_) (fun x hx => ?_)
      · exact (listAdd_next x).trans (if_neg (hne x hx))
      · refine (listAdd_prev x).trans ?_
        rw [if_neg, if_neg (hne x hx)]
        rintro ⟨rfl, hh⟩
        exact hpo (h.eq_of_mem hp ho hx ((h.linked o ho).head_mem hh))
  · rw [isFree_listAdd hfree, ← h.mem_iff p hp x]
    by_cases hpo : p = o
    · subst hpo
      simp [or_comm]
    · simp [hpo]
  · rw [listAdd_pgBuddy] at hx
    rw [listAdd_order]
    split_ifs at hx ⊢ with hxf
    · exact ho
    · exact h.order_lt x hx

/-- **`list_del` keeps the lists in order**, when the block is free. -/
theorem Lists.listDel (h : s.Lists L) (hf : s.IsFree f o) :
    (s.listDel o f).Lists (Function.update L o ((L o).erase f)) := by
  have ho : o < pmmMaxOrder := hf.2 ▸ h.order_lt f hf.1
  have hfo : f ∈ L o := (h.mem_iff o ho f).2 hf
  have hl := h.linked o ho
  obtain ⟨a, b, hab⟩ := append_of_mem hfo
  have hfa : f ∉ a := by
    have := hl.nodup
    rw [hab] at this
    exact fun hfa => disjoint_of_nodup_append this hfa mem_cons_self
  have herase : (L o).erase f = a ++ b := by
    rw [hab, erase_append_right _ hfa, erase_cons_head]
  have hl' := hl
  rw [hab] at hl'
  -- the neighbours of `f` are on its list
  have hprev : (s.memMap f).prev ≠ pmmNil → (s.memMap f).prev ∈ L o := fun hp =>
    hab ▸ mem_append_left _ (hl'.prv_mem hp)
  have hnext : (s.memMap f).next ≠ pmmNil → (s.memMap f).next ∈ L o := fun hn =>
    hab ▸ mem_append_right _ (mem_cons_of_mem f (hl'.nxt_mem hn))
  refine ⟨fun p hp => ?_, fun p hp x => ?_, fun x hx => ?_⟩
  · by_cases hpo : p = o
    · subst hpo
      rw [update_self, herase]
      refine hl'.remove ?_ ?_ ?_ ?_ ?_ ?_
      · intro hp0
        have hp0' : (s.memMap f).prev = pmmNil := hp0
        rw [listDel_freeLists, if_neg (not_not.2 hp0'), update_self]
      · intro hp1
        have hp1' : (s.memMap f).prev ≠ pmmNil := hp1
        rw [listDel_freeLists, if_pos hp1']
      · exact fun hp1 => (listDel_next _).trans (if_pos ⟨rfl, hp1⟩)
      · exact fun hn1 => (listDel_prev _).trans (if_pos ⟨rfl, hn1⟩)
      · exact fun x hx => (listDel_next x).trans (if_neg (fun hc => hx hc.1))
      · exact fun x hx => (listDel_prev x).trans (if_neg (fun hc => hx hc.1))
    · rw [update_of_ne hpo]
      have hfl : (s.listDel o f).freeLists p = s.freeLists p := by
        rw [listDel_freeLists]
        split_ifs
        · rfl
        · exact update_of_ne hpo _ _
      rw [hfl]
      refine (h.linked p hp).congr (fun x hx => ?_) (fun x hx => ?_)
      · refine (listDel_next x).trans (if_neg ?_)
        rintro ⟨rfl, hc⟩
        exact hpo (h.eq_of_mem hp ho hx (hprev hc))
      · refine (listDel_prev x).trans (if_neg ?_)
        rintro ⟨rfl, hc⟩
        exact hpo (h.eq_of_mem hp ho hx (hnext hc))
  · rw [isFree_listDel, ← h.mem_iff p hp x]
    by_cases hpo : p = o
    · subst hpo
      rw [update_self, hl.nodup.mem_erase_iff, and_comm]
    · rw [update_of_ne hpo, iff_self_and]
      rintro hx rfl
      exact hpo (h.eq_of_mem hp ho hx hfo)
  · rw [listDel_pgBuddy] at hx
    rw [listDel_order]
    split_ifs at hx
    exact h.order_lt x hx

end Pmm

end Makar
