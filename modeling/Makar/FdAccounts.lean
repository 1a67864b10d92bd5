import Makar.Fds

/-!
# Accounts of what descriptors hold

Buffers, sockets and rings are held by slots, and the kernel keeps books on them:
which were given out, which were released, how many ends a ring has. A law that
ties the two together has one shape whatever it is about. Give each thing that can
be held a weight; the weights of what the slots of all tables hold add up to a
value that is read off the books.

`Account` collects what the weights and the value must satisfy, one line for each
thing the kernel does to its books. What closing a slot, destroying a table and
cloning one do to the books follows from it: `fdTableDestroy` takes the weight of
the table off, and `fdTableClone` adds the weight of the child's, or nothing at all
when it fails, as long as it has not counted ends of rings by then (`CloneFair`).
-/

namespace Makar

open Finset Function List

/-- What a slot can hold. -/
inductive Hold where
  /-- The buffer of a file. -/
  | buf (b : ℕ)
  /-- A socket. -/
  | sock (n : ℕ)
  /-- An end of a ring. -/
  | ring (r : ℕ) (writer : Bool)
  deriving DecidableEq

/-- What a slot holds. -/
def FdEntry.holds : FdEntry → Option Hold
  | .file f => f.data.map .buf
  | .pipe r w => some (.ring r w)
  | .socket n => some (.sock n)
  | _ => Option.none

/-- The weight of a slot. -/
def FdEntry.weight (w : Hold → ℤ) (e : FdEntry) : ℤ := (e.holds.map w).getD 0

/-- The weight of a table. -/
def FdTable.total (w : Hold → ℤ) (tbl : FdTable) : ℤ := ∑ i, (tbl i).weight w

/-- The weight of the table of a task. -/
def FdTask.total (w : Hold → ℤ) (x : FdTask) : ℤ := (x.table.map (FdTable.total w)).getD 0

/-- The weight of all tables. -/
def Fds.total (w : Hold → ℤ) (s : Fds) : ℤ := ∑ t ∈ Finset.range maxTasks, (s.tasks t).total w

/-! ## Totals -/

section Totals

variable {w : Hold → ℤ} {s : Fds} {t : ℕ} {tbl : FdTable} {i : Fin taskMaxFds}

section

variable (hw : ∀ h, 0 ≤ w h)
include hw

theorem FdEntry.weight_nonneg (e : FdEntry) : 0 ≤ e.weight w := by
  unfold FdEntry.weight
  cases e.holds with
  | none => exact le_refl 0
  | some h => exact hw h

theorem FdTable.total_nonneg (tbl : FdTable) : 0 ≤ tbl.total w :=
  sum_nonneg fun i _ => (tbl i).weight_nonneg hw

theorem FdTask.total_nonneg (x : FdTask) : 0 ≤ x.total w := by
  unfold FdTask.total
  cases x.table with
  | none => exact le_refl 0
  | some tbl => exact tbl.total_nonneg hw

theorem FdTable.weight_le_total (tbl : FdTable) (i : Fin taskMaxFds) :
    (tbl i).weight w ≤ tbl.total w :=
  single_le_sum (f := fun i => (tbl i).weight w) (fun i _ => (tbl i).weight_nonneg hw)
    (mem_univ i)

theorem Fds.task_le_total (ht : t < maxTasks) : (s.tasks t).total w ≤ s.total w :=
  Finset.single_le_sum (f := fun t => (s.tasks t).total w)
    (fun t _ => (s.tasks t).total_nonneg hw) (Finset.mem_range.2 ht)

section

variable (ht : t < maxTasks) (htbl : (s.tasks t).table = some tbl)
include ht htbl

theorem Fds.table_le_total : tbl.total w ≤ s.total w := by
  have h := s.task_le_total hw ht
  unfold FdTask.total at h
  rw [htbl] at h
  exact h

theorem Fds.weight_le_total (i : Fin taskMaxFds) : (tbl i).weight w ≤ s.total w :=
  (tbl.weight_le_total hw i).trans (Fds.table_le_total hw ht htbl)

end

end

/-- A slot is written. -/
theorem FdTable.total_update (tbl : FdTable) (i : Fin taskMaxFds) (e : FdEntry) :
    FdTable.total w (Function.update tbl i e)
      = tbl.total w - (tbl i).weight w + e.weight w := by
  unfold FdTable.total
  rw [← add_sum_erase _ _ (mem_univ i),
    ← add_sum_erase _ (fun i => (tbl i).weight w) (mem_univ i),
    update_self]
  have hrest : ∑ j ∈ univ.erase i, (update tbl i e j).weight w
      = ∑ j ∈ univ.erase i, (tbl j).weight w :=
    sum_congr rfl fun j hj => by
      rw [update_of_ne (ne_of_mem_erase hj)]
  rw [hrest]
  ring

/-- A task is written. -/
theorem Fds.total_update (ht : t < maxTasks) (x : FdTask) (o : Objs) :
    Fds.total w ⟨Function.update s.tasks t x, o⟩
      = s.total w - (s.tasks t).total w + x.total w := by
  unfold Fds.total
  rw [← add_sum_erase _ _ (mem_range.2 ht),
    ← add_sum_erase _ (fun t => (s.tasks t).total w) (mem_range.2 ht)]
  dsimp only
  rw [update_self]
  have hrest : ∑ j ∈ (Finset.range maxTasks).erase t, (update s.tasks t x j).total w
      = ∑ j ∈ (Finset.range maxTasks).erase t, (s.tasks j).total w :=
    sum_congr rfl fun j hj => by
      rw [update_of_ne (ne_of_mem_erase hj)]
  rw [hrest]
  ring

/-- A slot of a task is written. -/
theorem Fds.total_setEntry (ht : t < maxTasks) (htbl : (s.tasks t).table = some tbl)
    (i : Fin taskMaxFds) (e : FdEntry) :
    (s.setEntry t i e).total w = s.total w - (tbl i).weight w + e.weight w := by
  have hold : (s.tasks t).total w = tbl.total w := by
    unfold FdTask.total
    rw [htbl]
    rfl
  have hnew : ({ s.tasks t with
      table := (s.tasks t).table.map fun tbl => update tbl i e } : FdTask).total w
      = tbl.total w - (tbl i).weight w + e.weight w := by
    unfold FdTask.total
    rw [htbl]
    exact tbl.total_update i e
  unfold Fds.setEntry
  rw [Fds.total_update ht, hold, hnew]
  ring

/-- A default table holds nothing. -/
theorem FdTable.total_default (w : Hold → ℤ) : FdTable.default.total w = 0 :=
  sum_eq_zero fun i _ => by
    unfold FdTable.default
    split_ifs <;> rfl

end Totals

/-! ## Accounts -/

/-- The books: what is written when something is given out, released or counted. -/
def Objs.books (o : Objs) : ℕ × ℕ × ℕ × (ℕ → PipeRing) × List FdRes × List ℕ :=
  (o.nextBuf, o.nextSock, o.nextRing, o.rings, o.released, o.freed)

/-- The books in `o'` are in order and their values are those in `o` and `d` more. -/
def Posted {κ : Type} (val : κ → Objs → ℤ) (P : Objs → Prop) (o o' : Objs) (d : κ → ℤ) : Prop :=
  P o' ∧ ∀ k, val k o' = val k o + d k

/-- **Accounts**: weights for what slots hold, values read off the books that change with what is
held, and what else the books must satisfy. An end of a ring is counted or released only where the
values cover it. -/
structure Account {κ : Type} (w : κ → Hold → ℤ) (val : κ → Objs → ℤ) (P : Objs → Prop) :
    Prop where
  /-- Weights are not negative. -/
  nonneg : ∀ k h, 0 ≤ w k h
  /-- Only the books matter. -/
  same : ∀ {o o' : Objs}, o'.books = o.books → P o → Posted val P o o' fun _ => 0
  /-- A buffer is given out. -/
  newBuf : ∀ (bytes : ℕ → Byte) {o : Objs}, P o →
    Posted val P o (o.newBuf bytes) fun k => w k (.buf o.nextBuf)
  /-- A buffer is released. -/
  kfree : ∀ (b : ℕ) {o : Objs}, P o → Posted val P o (o.kfree b) fun k => -w k (.buf b)
  /-- A socket is given out. -/
  ksockOpen : ∀ {o : Objs}, P o → Posted val P o o.ksockOpen fun k => w k (.sock o.nextSock)
  /-- A socket is released. -/
  ksockClose : ∀ (n : ℕ) {o : Objs}, P o → Posted val P o (o.ksockClose n) fun k => -w k (.sock n)
  /-- A ring is made. -/
  newRing : ∀ {o : Objs}, P o → Posted val P o o.newRing fun k =>
    w k (.ring o.nextRing false) + w k (.ring o.nextRing true)
  /-- An end of a ring is counted. -/
  bump : ∀ {r : ℕ} {b : Bool} {o : Objs}, P o → (∀ k, w k (.ring r b) ≤ val k o) →
    Posted val P o (o.bump r b) fun k => w k (.ring r b)
  /-- An end of a ring is released. -/
  pipeRelease : ∀ {r : ℕ} {b : Bool} {o : Objs}, P o → (∀ k, w k (.ring r b) ≤ val k o) →
    Posted val P o (o.pipeRelease r b) fun k => -w k (.ring r b)

variable {κ : Type} {w : κ → Hold → ℤ} {val : κ → Objs → ℤ} {P : Objs → Prop}

theorem Posted.refl {o : Objs} (h : P o) : Posted val P o o fun _ => 0 :=
  ⟨h, fun _ => (add_zero _).symm⟩

variable {d d' : κ → ℤ}

theorem Posted.trans {o o₁ o' : Objs} (h : Posted val P o o₁ d)
    (h' : Posted val P o₁ o' d') : Posted val P o o' fun k => d k + d' k :=
  ⟨h'.1, fun k => by rw [h'.2, h.2, add_assoc]⟩

theorem Posted.congr {o o' : Objs} (h : Posted val P o o' d)
    (hd : ∀ k, d k = d' k) : Posted val P o o' d' :=
  ⟨h.1, fun k => by rw [h.2, hd]⟩

/-- What the turns of a loop take out of the books adds up. -/
theorem Posted.foldl {α : Type} {g : Objs → α → Objs} {D : κ → α → ℤ} (is : List α) {o : Objs}
    (h : P o) (hg : ∀ i ∈ is, ∀ o, P o → Posted val P o (g o i) fun k => -D k i) :
    Posted val P o (is.foldl g o) fun k => -(is.map (D k)).sum := by
  induction is generalizing o with
  | nil => exact (Posted.refl h).congr fun k => neg_zero.symm
  | cons i is ih =>
    have hfirst := hg i mem_cons_self o h
    have hrest := ih hfirst.1 fun j hj => hg j (mem_cons_of_mem i hj)
    exact (hfirst.trans hrest).congr fun k => by rw [List.map_cons, List.sum_cons, neg_add]

namespace Account

variable (A : Account w val P) {o : Objs} (cwd : CStr) (disk : Bytes → Option Bytes)

include A

theorem sum_nonneg (tbl : FdTable) (is : List (Fin taskMaxFds)) (k : κ) :
    0 ≤ (is.map fun j => (tbl j).weight (w k)).sum := by
  refine List.sum_nonneg fun x hx => ?_
  obtain ⟨j, -, rfl⟩ := mem_map.1 hx
  exact (tbl j).weight_nonneg (A.nonneg k)

/-- A flush is not in the books. -/
theorem fdFlushOne (f : FileFd) (h : P o) :
    Posted val P o (o.fdFlushOne cwd disk f) fun _ => 0 := by
  refine A.same ?_ h
  unfold Objs.fdFlushOne
  split
  · rfl
  · split_ifs <;> rfl

/-- **A slot is closed.** -/
theorem closeEntry (e : FdEntry) (h : P o) (hcover : ∀ k, e.weight (w k) ≤ val k o) :
    Posted val P o (o.closeEntry cwd disk e) fun k => -e.weight (w k) := by
  cases e with
  | none => exact (Posted.refl h).congr fun k => neg_zero.symm
  | plain => exact (Posted.refl h).congr fun k => neg_zero.symm
  | file f =>
    have hflush := A.fdFlushOne cwd disk f h
    unfold Objs.closeEntry FdEntry.weight FdEntry.holds
    dsimp only
    cases hdata : f.data with
    | none => exact hflush.congr fun k => neg_zero.symm
    | some b => exact (hflush.trans (A.kfree b hflush.1)).congr fun k => zero_add _
  | pipe r b => exact A.pipeRelease h hcover
  | socket n => exact A.ksockClose n h

/-- **The slots of a list are closed**, one after another. -/
theorem closeEntries (tbl : FdTable) (is : List (Fin taskMaxFds)) (h : P o)
    (hcover : ∀ k, (is.map fun i => (tbl i).weight (w k)).sum ≤ val k o) :
    Posted val P o (is.foldl (fun o i => o.closeEntry cwd disk (tbl i)) o)
      fun k => -(is.map fun i => (tbl i).weight (w k)).sum := by
  induction is generalizing o with
  | nil => exact (Posted.refl h).congr fun k => neg_zero.symm
  | cons i is ih =>
    have hrest := A.sum_nonneg tbl is
    simp only [List.map_cons, List.sum_cons] at hcover ⊢
    have hfirst := A.closeEntry cwd disk (tbl i) h
      (fun k => by have := hcover k; have := hrest k; omega)
    have hleft : ∀ k, val k (o.closeEntry cwd disk (tbl i)) = val k o + -(tbl i).weight (w k) :=
      hfirst.2
    have hnext := ih hfirst.1 (fun k => by rw [hleft]; have := hcover k; omega)
    exact (hfirst.trans hnext).congr fun k => by omega

/-- **A table is destroyed.** -/
theorem fdTableDestroy (tbl : FdTable) (h : P o) (hcover : ∀ k, tbl.total (w k) ≤ val k o) :
    Posted val P o (o.fdTableDestroy cwd disk tbl) fun k => -tbl.total (w k) := by
  have hsum : ∀ k, tbl.total (w k)
      = ((finRange taskMaxFds).map fun i => (tbl i).weight (w k)).sum :=
    fun k => Fin.sum_univ_def _
  have := A.closeEntries cwd disk tbl (finRange taskMaxFds) h
    (fun k => hsum k ▸ hcover k)
  exact this.congr fun k => by rw [hsum]

end Account

/-! ## Clones -/

/-- The slot of a child needs a buffer of its own. -/
def FdEntry.Needs (e : FdEntry) : Prop :=
  ∃ f b, e = .file f ∧ f.data = some b ∧ f.capacity ≠ 0

instance : ∀ e : FdEntry, Decidable e.Needs
  | .file f => decidable_of_iff (f.data ≠ none ∧ f.capacity ≠ 0) ⟨
      fun h => (Option.ne_none_iff_exists'.1 h.1).elim fun b hb => ⟨f, b, rfl, hb, h.2⟩,
      fun ⟨_, _, hg, hb, hcap⟩ => by cases hg; exact ⟨by rw [hb]; exact Option.some_ne_none _, hcap⟩⟩
  | .none | .plain | .pipe .. | .socket .. => isFalse fun ⟨_, _, hg, _⟩ => by cases hg

/-- A table may be cloned: before the first slot for which there is no memory there is no end of a
ring with weight. -/
def CloneFair (w : κ → Hold → ℤ) (src : FdTable) (mem : Fin taskMaxFds → Bool) : Prop :=
  ∀ i j, (src i).Needs → mem i = false → j < i → ∀ r b, src j = .pipe r b →
    (∀ k, w k (.ring r b) = 0) ∨ ∃ l, l < i ∧ (src l).Needs ∧ mem l = false

/-- The table of a child after the slots `pre`: the books have grown by what they hold. -/
structure Cloning (w : κ → Hold → ℤ) (val : κ → Objs → ℤ) (P : Objs → Prop)
    (mem : Fin taskMaxFds → Bool) (src : FdTable) (o : Objs) (pre : List (Fin taskMaxFds))
    (c : CloneState) : Prop where
  /-- The books. -/
  posted : Posted val P o c.objs fun k => (pre.map fun j => (c.tbl j).weight (w k)).sum
  /-- The other slots are still the parent's. -/
  rest : ∀ j, j ∉ pre → c.tbl j = src j
  /-- There are no sockets among the slots. -/
  socket : ∀ j ∈ pre, ∀ n, c.tbl j ≠ .socket n
  /-- Ends of rings are those of the parent. -/
  pipe : ∀ j ∈ pre, ∀ r b, c.tbl j = .pipe r b → src j = .pipe r b
  /-- There was memory. -/
  mem : ∀ j ∈ pre, (src j).Needs → mem j = true

namespace Account

variable (A : Account w val P) {o : Objs} {mem : Fin taskMaxFds → Bool} {src : FdTable}
  {pre : List (Fin taskMaxFds)} {c : CloneState} {i : Fin taskMaxFds}

include A

omit A in
/-- A slot more is done. -/
theorem cloning_snoc (h : Cloning w val P mem src o pre c) (hi : i ∉ pre) {e : FdEntry} {o' : Objs}
    (hposted : Posted val P c.objs o' fun k => e.weight (w k)) (hsocket : ∀ n, e ≠ .socket n)
    (hpipe : ∀ r b, e = .pipe r b → src i = .pipe r b) (hmem : (src i).Needs → mem i = true) :
    Cloning w val P mem src o (pre ++ [i]) ⟨Function.update c.tbl i e, o'⟩ := by
  have hold : ∀ j ∈ pre, update c.tbl i e j = c.tbl j :=
    fun j hj => update_of_ne (fun heq : j = i => hi (heq ▸ hj)) _ _
  have hcases : ∀ {Q : FdEntry → FdEntry → Prop}, (∀ j ∈ pre, Q (c.tbl j) (src j)) → Q e (src i) →
      ∀ j ∈ pre ++ [i], Q (update c.tbl i e j) (src j) := by
    intro Q hpre hlast j hj
    rcases mem_append.1 hj with hj | hj
    · rw [hold j hj]
      exact hpre j hj
    · rw [List.mem_singleton.1 hj, update_self]
      exact hlast
  refine ⟨?_, ?_, ?_, ?_, ?_⟩
  · refine (h.posted.trans hposted).congr fun k => ?_
    have hpre : (pre.map fun j => (update c.tbl i e j).weight (w k))
        = pre.map fun j => (c.tbl j).weight (w k) :=
      map_congr_left fun j hj => by rw [hold j hj]
    dsimp only
    rw [List.map_append, List.sum_append, List.map_singleton, List.sum_singleton,
      update_self, hpre]
  · intro j hj
    rw [List.mem_append, List.mem_singleton, not_or] at hj
    exact (update_of_ne hj.2 _ _).trans (h.rest j hj.1)
  · exact hcases (Q := fun e _ => ∀ n, e ≠ .socket n) h.socket hsocket
  · exact hcases (Q := fun e e' => ∀ r b, e = .pipe r b → e' = .pipe r b) h.pipe hpipe
  · intro j hj
    rcases mem_append.1 hj with hj | hj
    · exact h.mem j hj
    · rw [List.mem_singleton.1 hj]
      exact hmem

/-- **A turn of the loop of `fd_table_clone`**: the next slot is done, or there is no memory for
it. -/
theorem cloneSlot (h : Cloning w val P mem src o pre c) (hi : i ∉ pre)
    (hcover : ∀ k, (src i).weight (w k) ≤ val k o) :
    (∃ c', c.cloneSlot mem i = (true, c') ∧ Cloning w val P mem src o (pre ++ [i]) c')
      ∨ c.cloneSlot mem i = (false, { c with objs := c.unwind i }) ∧ (src i).Needs
        ∧ mem i = false := by
  have hsrc := h.rest i hi
  have hzero : ∀ e : FdEntry, e.holds = none →
      Posted val P c.objs c.objs fun k => e.weight (w k) := fun e he =>
    (Posted.refl h.posted.1).congr fun k => by rw [FdEntry.weight, he]; rfl
  -- A slot that is none of a file, and what becomes of it.
  have hother : ∀ e : FdEntry, (∀ f, c.tbl i ≠ .file f) → (∀ n, e ≠ .socket n) →
      (∀ r b, e = .pipe r b → c.tbl i = .pipe r b) → ∀ o' : Objs,
      Posted val P c.objs o' (fun k => e.weight (w k)) →
      Cloning w val P mem src o (pre ++ [i]) ⟨update c.tbl i e, o'⟩ := by
    intro e hfile hsocket hpipe o' hposted
    refine cloning_snoc h hi hposted hsocket (fun r b hb => hsrc ▸ hpipe r b hb) ?_
    rintro ⟨f, b, hf, -⟩
    exact absurd (hsrc.trans hf) (hfile f)
  have hsame : (⟨update c.tbl i (c.tbl i), c.objs⟩ : CloneState) = c := by
    rw [update_eq_self]
  unfold CloneState.cloneSlot
  cases he : c.tbl i with
  | none =>
    rw [he] at hother hsame
    exact .inl ⟨c, rfl, hsame ▸ hother .none (by simp) (by simp) (by simp) _ (hzero _ rfl)⟩
  | plain =>
    rw [he] at hother hsame
    exact .inl ⟨c, rfl, hsame ▸ hother .plain (by simp) (by simp) (by simp) _ (hzero _ rfl)⟩
  | socket n =>
    rw [he] at hother
    exact .inl ⟨_, rfl, hother .none (by simp) (by simp) (by simp) _ (hzero _ rfl)⟩
  | pipe r b =>
    rw [he] at hother hsame
    rw [← hsrc, he] at hcover
    have hval : ∀ k, w k (.ring r b) ≤ val k c.objs := fun k => by
      have hgrown := h.posted.2 k
      have hsum := A.sum_nonneg c.tbl pre k
      have hk : w k (.ring r b) ≤ val k o := hcover k
      dsimp only at hgrown
      omega
    refine .inl ⟨_, rfl, ?_⟩
    have := hother (.pipe r b) (by simp) (by simp) (fun _ _ h => h) _
      (A.bump h.posted.1 hval)
    rwa [show update c.tbl i (.pipe r b) = c.tbl from congrArg CloneState.tbl hsame] at this
  | file f =>
    rw [he] at hsrc
    dsimp only
    cases hdata : f.data with
    | none =>
      refine .inl ⟨_, rfl, cloning_snoc h hi (hzero _ rfl) (by simp) (by simp) ?_⟩
      rintro ⟨g, b, hg, hb, -⟩
      rw [← hsrc] at hg
      cases hg
      rw [hdata] at hb
      cases hb
    | some b =>
      dsimp only
      split_ifs with hcap hmem
      · refine .inl ⟨_, rfl, cloning_snoc h hi (hzero _ rfl) (by simp) (by simp) ?_⟩
        rintro ⟨g, b, hg, -, hne⟩
        rw [← hsrc] at hg
        cases hg
        exact absurd hcap hne
      · exact .inl ⟨_, rfl, cloning_snoc h hi (A.newBuf _ h.posted.1) (by simp) (by simp)
          fun _ => hmem⟩
      · exact .inr ⟨rfl, ⟨f, b, hsrc.symm, hdata, hcap⟩, by simpa using hmem⟩

/-- The buffers a child has got are given back, and nothing else was in the books. -/
theorem unwind (h : Cloning w val P mem src o pre c)
    (hpre : (List.finRange taskMaxFds).filter (· < i) = pre)
    (hfair : ∀ j ∈ pre, ∀ r b, src j = .pipe r b → ∀ k, w k (.ring r b) = 0) :
    Posted val P o (c.unwind i) fun _ => 0 := by
  unfold CloneState.unwind
  rw [hpre]
  refine (h.posted.trans (Posted.foldl (D := fun k j => (c.tbl j).weight (w k)) pre h.posted.1
    fun j hj o' ho' => ?_)).congr fun k => by omega
  cases he : c.tbl j with
  | none => exact (Posted.refl ho').congr fun k => neg_zero.symm
  | plain => exact (Posted.refl ho').congr fun k => neg_zero.symm
  | socket n => exact absurd he (h.socket j hj n)
  | pipe r b =>
    refine (Posted.refl ho').congr fun k => ?_
    show 0 = -w k (.ring r b)
    rw [hfair j hj r b (h.pipe j hj r b he) k, neg_zero]
  | file f =>
    unfold FdEntry.weight FdEntry.holds
    dsimp only
    cases f.data with
    | none => exact (Posted.refl ho').congr fun k => neg_zero.symm
    | some b => exact A.kfree b ho'

/-- **The loop of `fd_table_clone`**: the child's table is in the books, or the books are as they
were. -/
theorem cloneLoop (hcover : ∀ i k, (src i).weight (w k) ≤ val k o)
    (hfair : CloneFair w src mem) (is pre : List (Fin taskMaxFds)) (c : CloneState)
    (hsplit : List.finRange taskMaxFds = pre ++ is) (h : Cloning w val P mem src o pre c) :
    (∃ c', loop (CloneState.cloneSlot mem) is c = (true, c')
        ∧ Cloning w val P mem src o (List.finRange taskMaxFds) c')
      ∨ ∃ c', loop (CloneState.cloneSlot mem) is c = (false, c')
        ∧ Posted val P o c'.objs fun _ => 0 := by
  induction is generalizing pre c with
  | nil =>
    rw [append_nil] at hsplit
    exact .inl ⟨c, rfl, hsplit ▸ h⟩
  | cons i is ih =>
    have hsorted : (pre ++ i :: is).Pairwise (· < ·) := hsplit ▸ pairwise_lt_finRange _
    have hlt : ∀ j ∈ pre, j < i := fun j hj =>
      (pairwise_append.1 hsorted).2.2 j hj i mem_cons_self
    have hi : i ∉ pre := fun hmem => absurd (hlt i hmem) (lt_irrefl i)
    unfold loop
    rcases A.cloneSlot h hi (hcover i) with ⟨c', hturn, hc'⟩ | ⟨hturn, hneeds, hmem⟩ <;> rw [hturn]
    · exact ih (pre ++ [i]) c' (by rw [hsplit, append_assoc]; rfl) hc'
    · refine .inr ⟨_, rfl, A.unwind h ?_ fun j hj r b hjr => ?_⟩
      · -- The slots below `i` are those that are done.
        rw [hsplit, filter_append, filter_cons_of_neg (by simp),
          List.filter_eq_self.2 fun j hj => by simpa using hlt j hj, List.filter_eq_nil_iff.2,
          append_nil]
        intro j hj
        have hgt := rel_of_pairwise_cons (pairwise_append.1 hsorted).2.1 hj
        simpa using hgt.le
      · rcases hfair i j hneeds hmem (hlt j hj) r b hjr with hzero | ⟨l, hl, hln, hlm⟩
        · exact hzero
        · -- An earlier slot without memory would have ended the loop.
          exfalso
          have hlpre : l ∈ pre := by
            have hmemAll : l ∈ pre ++ i :: is := hsplit ▸ mem_finRange l
            rcases mem_append.1 hmemAll with hin | hin
            · exact hin
            · rcases mem_cons.1 hin with rfl | hin
              · exact absurd hl (lt_irrefl _)
              · exact absurd (hl.trans (rel_of_pairwise_cons
                  (pairwise_append.1 hsorted).2.1 hin)) (lt_irrefl _)
          exact absurd ((h.mem l hlpre hln).symm.trans hlm) (by decide)

/-- **`fd_table_clone`.** -/
theorem fdTableClone (room : Bool) (ho : P o) (hcover : ∀ k, src.total (w k) ≤ val k o)
    (hfair : room = true → CloneFair w src mem) :
    (∃ child o', o.fdTableClone room mem src = (some child, o')
        ∧ Posted val P o o' fun k => child.total (w k))
      ∨ ∃ o', o.fdTableClone room mem src = (none, o') ∧ Posted val P o o' fun _ => 0 := by
  unfold Objs.fdTableClone
  cases room with
  | false => exact .inr ⟨o, rfl, .refl ho⟩
  | true =>
    have hentry : ∀ i k, (src i).weight (w k) ≤ val k o := fun i k =>
      (src.weight_le_total (A.nonneg k) i).trans (hcover k)
    have hstart : Cloning w val P mem src o [] ⟨src, o⟩ :=
      ⟨.refl ho, fun _ _ => rfl, by simp, by simp, by simp⟩
    rw [if_pos rfl]
    rcases A.cloneLoop hentry (hfair rfl) (finRange taskMaxFds) [] _ rfl hstart with
      ⟨c', hloop, hc'⟩ | ⟨c', hloop, hc'⟩ <;> rw [hloop]
    · refine .inl ⟨c'.tbl, c'.objs, rfl, hc'.posted.congr fun k => ?_⟩
      exact (Fin.sum_univ_def _).symm
    · exact .inr ⟨c'.objs, rfl, hc'⟩

end Account

end Makar
