import Makar.FdAccounts

/-!
# The books of the descriptors stay balanced

The weights of what all slots hold add up to the values in the books, and every
event keeps it so, as long as no slot is copied whose weight the books do not learn
of and no clone of a table is given up after it has counted ends of rings
(`Fair`). `Balanced.step` goes through the events once, whatever the account is.
-/

namespace Makar

open Finset Function Option Fds FdTable

variable {κ : Type} {w : κ → Hold → ℤ} {val : κ → Objs → ℤ} {P : Objs → Prop}

/-- **The books agree with the tables.** -/
def Balanced (w : κ → Hold → ℤ) (val : κ → Objs → ℤ) (P : Objs → Prop) (s : Fds) : Prop :=
  P s.objs ∧ ∀ k, s.total (w k) = val k s.objs

/-- A slot may be copied: what the books do not learn of has no weight. -/
def CopyFair (w : κ → Hold → ℤ) (e : FdEntry) : Prop :=
  ∀ h, e.holds = some h → (∀ r b, h ≠ .ring r b) → ∀ k, w k h = 0

/-- **The condition on an event.** -/
def Fair (w : κ → Hold → ℤ) (s : Fds) : FdEvent → Prop
  | .dup t oldfd => s.Acts t → ∀ tbl i j, (s.tasks t).table = some tbl →
      tbl.fdGet oldfd = some i → tbl.fdAlloc = some j → CopyFair w (tbl i)
  | .dup2 t oldfd newfd _ => s.Acts t → ∀ tbl i j, (s.tasks t).table = some tbl →
      tbl.fdGet oldfd = some i → fdIndex newfd = some j → i ≠ j → CopyFair w (tbl i)
  | .fork t env => s.Acts t → ∀ tbl, (s.tasks t).table = some tbl → env.room = true →
      CloneFair w tbl env.mem
  | _ => True

/-- What holds of the state and of what a call does to it holds after the call. -/
theorem Fds.onTable_rule {Q : Fds → Prop} {s : Fds} {t : ℕ} {f : FdTable → Fds} (hs : Q s)
    (hf : ∀ tbl, t < maxTasks → (s.tasks t).alive = true → (s.tasks t).table = some tbl → Q (f tbl)) :
    Q (s.onTable t f) := by
  unfold onTable
  split_ifs with hacts
  · split
    · exact hs
    · next tbl htbl => exact hf tbl hacts.1 hacts.2 htbl
  · exact hs

namespace Balanced

variable {s : Fds} {t : ℕ} {tbl : FdTable} {i : Fin taskMaxFds}

/-- The weight of a slot is covered. -/
theorem cover (A : Account w val P) (h : Balanced w val P s) (ht : t < maxTasks)
    (htbl : (s.tasks t).table = some tbl) (i : Fin taskMaxFds) (k : κ) :
    (tbl i).weight (w k) ≤ val k s.objs :=
  h.2 k ▸ weight_le_total (A.nonneg k) ht htbl i

variable {o : Objs}

/-- **A slot is written**, with the difference in the books. -/
theorem setEntry (h : Balanced w val P s) (ht : t < maxTasks)
    (htbl : (s.tasks t).table = some tbl) (i : Fin taskMaxFds) {e : FdEntry}
    (hposted : Posted val P s.objs o fun k => e.weight (w k) - (tbl i).weight (w k)) :
    Balanced w val P (Fds.setEntry t i e ⟨s.tasks, o⟩) := by
  refine ⟨hposted.1, fun k => ?_⟩
  rw [total_setEntry (s := ⟨s.tasks, o⟩) ht htbl]
  have hval : val k o = val k s.objs + (e.weight (w k) - (tbl i).weight (w k)) := hposted.2 k
  show s.total (w k) - _ + _ = val k o
  rw [hval, h.2]
  ring

/-- A slot is written that holds the same. -/
theorem setEntry_same (A : Account w val P) (h : Balanced w val P s) (ht : t < maxTasks)
    (htbl : (s.tasks t).table = some tbl) {e : FdEntry} (hsame : e.holds = (tbl i).holds)
    (ho : o.books = s.objs.books) : Balanced w val P (Fds.setEntry t i e ⟨s.tasks, o⟩) := by
  refine h.setEntry ht htbl i ((A.same ho h.1).congr fun k => ?_)
  unfold FdEntry.weight
  rw [hsame, sub_self]

/-- The objects change, but not the books. -/
theorem same (A : Account w val P) (h : Balanced w val P s)
    (ho : o.books = s.objs.books) : Balanced w val P ⟨s.tasks, o⟩ := by
  have hposted := A.same ho h.1
  refine ⟨hposted.1, fun k => ?_⟩
  rw [hposted.2 k, add_zero]
  exact h.2 k

/-- The tables change and hold what they held. -/
theorem of_total (h : Balanced w val P s) {s' : Fds} (ho : s'.objs = s.objs)
    (htotal : ∀ k, s'.total (w k) = s.total (w k)) : Balanced w val P s' :=
  ⟨ho ▸ h.1, fun k => by rw [htotal, ho, h.2]⟩

end Balanced

variable {i : Fin taskMaxFds}

theorem FdTable.fdAlloc_eq {tbl : FdTable} (h : tbl.fdAlloc = some i) :
    tbl i = .none := by
  simpa using List.find?_some h

theorem FdTable.fdGet_eq {tbl : FdTable} {fd : ℤ} (h : tbl.fdGet fd = some i) :
    fdIndex fd = some i ∧ tbl i ≠ .none := by
  unfold fdGet at h
  rw [filter_eq_some_iff] at h
  simpa using h

/-- **The slot that `SYS_OPEN` makes** is in the books. -/
theorem Account.openEntry (A : Account w val P) {o : Objs} (ho : P o) (cwd path : CStr)
    (flags : OpenFlags) (env : OpenEnv) :
    (∃ e o', o.openEntry cwd path flags env = (some e, o')
        ∧ Posted val P o o' fun k => e.weight (w k))
      ∨ ∃ o', o.openEntry cwd path flags env = (none, o') ∧ Posted val P o o' fun _ => 0 := by
  unfold Objs.openEntry
  extract_lets slot isEmpty
  split_ifs
  · exact .inl ⟨_, _, rfl, .refl ho⟩
  · exact .inr ⟨_, rfl, .refl ho⟩
  · exact .inl ⟨_, _, rfl, A.newBuf _ ho⟩
  · exact .inr ⟨_, rfl, .refl ho⟩
  · split
    · exact .inl ⟨_, _, rfl, .refl ho⟩
    · split
      · have hnew := A.newBuf (fun _ => 0) ho
        refine .inr ⟨_, rfl, (hnew.trans (A.kfree o.nextBuf hnew.1)).congr fun k => ?_⟩
        exact add_neg_cancel _
      · exact .inl ⟨_, _, rfl, A.newBuf _ ho⟩
  · split
    · exact .inl ⟨_, _, rfl, .refl ho⟩
    · exact .inr ⟨_, rfl, .refl ho⟩

section

variable {s : Fds} {t : ℕ} {tbl : FdTable} (htbl : (s.tasks t).table = some tbl)
include htbl

/-- The table of a task after a slot was written. -/
theorem Fds.setEntry_table (i : Fin taskMaxFds) (e : FdEntry) :
    ((s.setEntry t i e).tasks t).table = some (Function.update tbl i e) := by
  unfold setEntry
  dsimp only
  rw [update_self, htbl]
  rfl

/-- The table of a task after a slot was closed. -/
theorem Fds.fdClose_table {fd : ℤ} {i : Fin taskMaxFds} (hi : fdIndex fd = some i)
    (disk : Bytes → Option Bytes) :
    ((s.fdClose t tbl fd disk).tasks t).table = some (Function.update tbl i .none) := by
  unfold fdClose
  cases hget : tbl.fdGet fd with
  | none =>
    have hnone : tbl i = .none := by
      unfold fdGet at hget
      rw [hi] at hget
      simpa using hget
    show (s.tasks t).table = _
    rw [htbl, ← hnone, update_eq_self]
  | some j =>
    have hij : i = j := some.inj (hi.symm.trans (fdGet_eq hget).1)
    subst hij
    exact setEntry_table (s := ⟨s.tasks, _⟩) htbl i .none

end

/-! ### The calls -/

namespace Balanced

variable {s : Fds} {t : ℕ} {tbl : FdTable} (A : Account w val P) (h : Balanced w val P s)
  (ht : t < maxTasks) (htbl : (s.tasks t).table = some tbl)

include A h ht htbl

theorem sysOpen (path : CStr) (flags : OpenFlags) (env : OpenEnv) :
    Balanced w val P (s.sysOpen t tbl path flags env) := by
  unfold Fds.sysOpen
  split_ifs
  · exact h
  · cases halloc : tbl.fdAlloc with
    | none => exact h
    | some i =>
      have hi := fdAlloc_eq halloc
      dsimp only
      rcases A.openEntry h.1 (s.tasks t).cwd path flags env with
        ⟨e, o', hopen, hposted⟩ | ⟨o', hopen, hposted⟩ <;> rw [hopen]
      · refine h.setEntry ht htbl i (hposted.congr fun k => ?_)
        rw [hi]
        exact (sub_zero _).symm
      · exact ⟨hposted.1, fun k => (h.2 k).trans ((hposted.2 k).trans (add_zero _)).symm⟩

theorem fdClose (fd : ℤ) (disk : Bytes → Option Bytes) :
    Balanced w val P (s.fdClose t tbl fd disk) := by
  unfold Fds.fdClose
  cases tbl.fdGet fd with
  | none => exact h
  | some i =>
    refine h.setEntry ht htbl i
      ((A.closeEntry (s.tasks t).cwd disk (tbl i) h.1 (h.cover A ht htbl i)).congr fun k => ?_)
    exact (zero_sub _).symm

theorem sysRead (fd : ℤ) (len : ℕ) : Balanced w val P (s.sysRead t tbl fd len) := by
  unfold Fds.sysRead
  cases tbl.fdGet fd with
  | none => exact h
  | some i =>
    dsimp only
    cases he : tbl i with
    | file f =>
      dsimp only
      split_ifs <;> exact h.setEntry_same A ht htbl (by rw [he]; rfl) rfl
    | _ => exact h

omit ht htbl in
theorem syscallFilePread (fd : ℤ) (off len : ℕ) :
    Balanced w val P (s.syscallFilePread t tbl fd off len) := by
  unfold Fds.syscallFilePread
  split
  · exact h
  · split
    · split_ifs
      · exact h.same A rfl
      · exact h
    · exact h

omit ht htbl in
theorem pagecacheAcquire (fd : ℤ) (pidx : ℕ) :
    Balanced w val P (s.pagecacheAcquire t tbl fd pidx) := by
  unfold Fds.pagecacheAcquire
  split
  · exact h
  · split
    · split_ifs
      · exact h.same A rfl
      · exact h
    · exact h

theorem syscallFdWrite (fd : ℤ) (seg : FileSeg) (moves : Bool) :
    Balanced w val P (s.syscallFdWrite t tbl fd seg moves) := by
  unfold Fds.syscallFdWrite
  cases tbl.fdGet fd with
  | none => exact h
  | some i =>
    dsimp only
    cases he : tbl i with
    | file f =>
      dsimp only
      cases hdata : f.data with
      | none =>
        have hold : ∀ k, (tbl i).weight (w k) = 0 := fun k => by
          rw [he, FdEntry.weight, FdEntry.holds, hdata]
          rfl
        dsimp only
        split_ifs
        · refine h.setEntry_same A ht htbl ?_ rfl
          rw [he, FdEntry.holds, FdEntry.holds, hdata]
          rfl
        · refine h.setEntry ht htbl i ((A.newBuf _ h.1).congr fun k => ?_)
          rw [hold, sub_zero]
          rfl
      | some b =>
        have hold : ∀ k, (tbl i).weight (w k) = w k (.buf b) := fun k => by
          rw [he, FdEntry.weight, FdEntry.holds, hdata]
          rfl
        dsimp only
        split_ifs
        · -- The buffer has moved: a new one is given out and the old one released.
          have hnew := A.newBuf
            ((s.objs.openFile f).syscallFdWrite seg).2.data h.1
          refine h.setEntry ht htbl i ((hnew.trans (A.kfree b hnew.1)).congr fun k => ?_)
          rw [hold]
          rfl
        · refine h.setEntry_same A ht htbl ?_ rfl
          rw [he, FdEntry.holds, FdEntry.holds, hdata]
          rfl
    | _ => exact h

theorem sysLseek (fd : ℤ) (offset : Word) (whence : ℤ) :
    Balanced w val P (s.sysLseek t tbl fd offset whence) := by
  unfold Fds.sysLseek
  cases tbl.fdGet fd with
  | none => exact h
  | some i =>
    dsimp only
    cases he : tbl i with
    | file f => exact h.setEntry_same A ht htbl (by rw [he]; rfl) rfl
    | _ => exact h

theorem sysPipe (mem : Bool) : Balanced w val P (s.sysPipe t tbl mem) := by
  unfold Fds.sysPipe
  cases halloc : tbl.fdAlloc with
  | none => exact h
  | some i =>
    dsimp only
    cases halloc' : fdAlloc (update tbl i (.pipe s.objs.nextRing false)) with
    | none => exact h
    | some j =>
      have hi := fdAlloc_eq halloc
      have hj := fdAlloc_eq halloc'
      have hnew := A.newRing h.1
      dsimp only
      split_ifs
      · refine ⟨hnew.1, fun k => ?_⟩
        rw [total_setEntry ht (setEntry_table (s := ⟨s.tasks, s.objs.newRing⟩) htbl i _),
          total_setEntry (s := ⟨s.tasks, s.objs.newRing⟩) ht htbl, hi, hj]
        show s.total (w k) - 0 + w k (.ring s.objs.nextRing false) - 0
          + w k (.ring s.objs.nextRing true) = val k s.objs.newRing
        rw [hnew.2 k, h.2 k]
        ring
      · exact h

/-- A slot is copied over a free one. -/
theorem copyEntry {i : Fin taskMaxFds} (hi : tbl i = .none) {e : FdEntry}
    (hcover : ∀ k, e.weight (w k) ≤ val k s.objs) (hfair : CopyFair w e) :
    Balanced w val P (s.copyEntry t i e) := by
  have hfree : ∀ k, (tbl i).weight (w k) = 0 := fun k => by rw [hi]; rfl
  have hzero : (∀ r b, e ≠ .pipe r b) → ∀ k, e.weight (w k) = 0 := by
    intro hpipe k
    unfold FdEntry.weight
    cases hholds : e.holds with
    | none => rfl
    | some x =>
      refine hfair x hholds (fun r b hx => ?_) k
      cases e with
      | pipe r b => exact hpipe r b rfl
      | file f =>
        obtain ⟨c, -, hc⟩ := map_eq_some_iff.1 hholds
        exact absurd (hc.trans hx) (by simp)
      | socket n => exact absurd ((some.inj hholds).trans hx) (by simp)
      | _ => cases hholds
  have hplain : (∀ r b, e ≠ .pipe r b) → Balanced w val P (s.setEntry t i e) := fun hpipe =>
    h.setEntry ht htbl i ((Posted.refl h.1).congr fun k => by rw [hzero hpipe k, hfree, sub_zero])
  unfold Fds.copyEntry
  cases e with
  | pipe r b =>
    refine h.setEntry ht htbl i ((A.bump h.1 hcover).congr fun k => ?_)
    rw [hfree, sub_zero]
    rfl
  | none => exact hplain (by simp)
  | plain => exact hplain (by simp)
  | file f => exact hplain (by simp)
  | socket n => exact hplain (by simp)

theorem sysDup (oldfd : ℤ)
    (hfair : ∀ i j, tbl.fdGet oldfd = some i → tbl.fdAlloc = some j → CopyFair w (tbl i)) :
    Balanced w val P (s.sysDup t tbl oldfd) := by
  unfold Fds.sysDup
  cases hget : tbl.fdGet oldfd with
  | none => exact h
  | some i =>
    cases halloc : tbl.fdAlloc with
    | none => exact h
    | some j =>
      exact h.copyEntry A ht htbl (fdAlloc_eq halloc) (h.cover A ht htbl i)
        (hfair i j hget halloc)

theorem sysDup2 (oldfd newfd : ℤ) (disk : Bytes → Option Bytes)
    (hfair : ∀ i j, tbl.fdGet oldfd = some i → fdIndex newfd = some j → i ≠ j →
      CopyFair w (tbl i)) : Balanced w val P (s.sysDup2 t tbl oldfd newfd disk) := by
  unfold Fds.sysDup2
  cases hget : tbl.fdGet oldfd with
  | none => exact h
  | some i =>
    cases hindex : fdIndex newfd with
    | none => exact h
    | some j =>
      dsimp only
      split_ifs with hij
      · exact h
      · have hclosed := h.fdClose A ht htbl newfd disk
        have htbl' := fdClose_table htbl hindex disk
        have hcover := hclosed.cover A ht htbl' i
        rw [update_of_ne hij] at hcover
        exact hclosed.copyEntry A ht htbl' (update_self _ _ _) hcover
          (hfair i j hget hindex hij)

theorem sysSocket (free : Bool) : Balanced w val P (s.sysSocket t tbl free) := by
  unfold Fds.sysSocket
  have hopen := A.ksockOpen h.1
  split_ifs
  · cases halloc : tbl.fdAlloc with
    | none =>
      have hclosed := hopen.trans (A.ksockClose s.objs.nextSock hopen.1)
      refine ⟨hclosed.1, fun k => ?_⟩
      have hval := hclosed.2 k
      dsimp only at hval ⊢
      rw [hval, add_neg_cancel, add_zero]
      exact h.2 k
    | some i =>
      refine h.setEntry ht htbl i (hopen.congr fun k => ?_)
      rw [fdAlloc_eq halloc]
      exact (sub_zero _).symm
  · exact h

omit A htbl in
/-- A task is written that has the same table. -/
theorem sameTable {x : FdTask} (hx : x.table = (s.tasks t).table) :
    Balanced w val P { s with tasks := update s.tasks t x } := by
  refine h.of_total rfl fun k => ?_
  rw [total_update ht]
  unfold FdTask.total
  rw [hx]
  ring

end Balanced

namespace Balanced

variable {s : Fds} {t : ℕ} (A : Account w val P)

include A

/-- **A new task** gets a table that is in the books already, and the table of the one before it is
destroyed. -/
theorem install (hP : P s.objs) {tbl : FdTable}
    (hval : ∀ k, s.total (w k) + tbl.total (w k) = val k s.objs) {c : ℕ} (hc : c < maxTasks)
    (disk : Bytes → Option Bytes) : Balanced w val P (s.install t c disk tbl) := by
  have htotal : ∀ (k : κ) (o : Objs),
      total (w k) ⟨update s.tasks c ⟨true, (s.tasks t).cwd, some tbl⟩, o⟩
        = s.total (w k) - (s.tasks c).total (w k) + tbl.total (w k) :=
    fun k o => total_update hc _ _
  unfold Fds.install
  cases hold : (s.tasks c).table with
  | none =>
    have hzero : ∀ k, (s.tasks c).total (w k) = 0 := fun k => by
      unfold FdTask.total
      rw [hold]
      rfl
    refine ⟨hP, fun k => ?_⟩
    dsimp only
    rw [htotal, hzero, sub_zero]
    exact hval k
  | some old =>
    have hsame : ∀ k, (s.tasks c).total (w k) = old.total (w k) := fun k => by
      unfold FdTask.total
      rw [hold]
      rfl
    have hcover : ∀ k, old.total (w k) ≤ val k s.objs := fun k => by
      have := table_le_total (A.nonneg k) hc hold
      have := tbl.total_nonneg (A.nonneg k)
      have := hval k
      omega
    have hposted := A.fdTableDestroy (s.tasks t).cwd disk old hP hcover
    refine ⟨hposted.1, fun k => ?_⟩
    have hk := hposted.2 k
    have := hval k
    dsimp only at hk ⊢
    rw [htotal, hsame, hk]
    omega

omit A in
/-- The slot of a new task is one of the pool. -/
theorem newSlot_lt {env : ForkEnv} {c : ℕ} (hc : s.newSlot env = some c) : c < maxTasks := by
  unfold newSlot at hc
  rw [filter_eq_some_iff] at hc
  have := hc.2
  simp only [decide_eq_true_eq] at this
  exact this.2.1

section

variable (h : Balanced w val P s)
include h

theorem taskFork (ht : t < maxTasks) {tbl : FdTable} (htbl : (s.tasks t).table = some tbl)
    (env : ForkEnv) (hfair : env.room = true → CloneFair w tbl env.mem) :
    Balanced w val P (s.taskFork t tbl env) := by
  have hcover : ∀ k, tbl.total (w k) ≤ val k s.objs := fun k =>
    h.2 k ▸ table_le_total (A.nonneg k) ht htbl
  unfold Fds.taskFork
  rcases A.fdTableClone env.room h.1 hcover hfair with
    ⟨child, o', hclone, hposted⟩ | ⟨o', hclone, hposted⟩ <;> rw [hclone]
  · have hval : ∀ k, s.total (w k) + child.total (w k) = val k o' := fun k => by
      rw [hposted.2 k, h.2 k]
    dsimp only
    cases hslot : (if env.pd = true then newSlot env { s with objs := o' } else none) with
    | none =>
      have hnonneg : ∀ k, 0 ≤ s.total (w k) := fun k =>
        sum_nonneg fun t _ => (s.tasks t).total_nonneg (A.nonneg k)
      have hdestroyed := A.fdTableDestroy (s.tasks t).cwd env.disk child hposted.1
        (fun k => by have := hval k; have := hnonneg k; omega)
      refine ⟨hdestroyed.1, fun k => ?_⟩
      have hk := hdestroyed.2 k
      have := hval k
      dsimp only at hk ⊢
      rw [hk]
      show s.total (w k) = _
      omega
    | some c =>
      have hc : c < maxTasks := by
        split_ifs at hslot
        exact newSlot_lt hslot
      exact install A hposted.1 hval hc env.disk
  · exact ⟨hposted.1, fun k => (h.2 k).trans ((hposted.2 k).trans (add_zero _)).symm⟩

theorem taskCreate (env : ForkEnv) : Balanced w val P (s.taskCreate t env) := by
  unfold Fds.taskCreate
  split_ifs
  · cases hslot : s.newSlot env with
    | none => exact h
    | some c =>
      exact install A h.1 (fun k => by rw [total_default, add_zero, h.2 k]) (newSlot_lt hslot) env.disk
  · exact h

/-- **Every event keeps the balance** that is fair. -/
theorem step (ev : FdEvent) (hfair : Fair w s ev) : Balanced w val P (s.step ev) := by
  cases ev with
  | «open» t path flags env =>
    exact onTable_rule h fun tbl ht _ htbl => h.sysOpen A ht htbl path flags env
  | close t fd disk => exact onTable_rule h fun tbl ht _ htbl => h.fdClose A ht htbl fd disk
  | read t fd len => exact onTable_rule h fun tbl ht _ htbl => h.sysRead A ht htbl fd len
  | pread t fd off len => exact onTable_rule h fun tbl _ _ _ => h.syscallFilePread A fd off len
  | acquire t fd pidx => exact onTable_rule h fun tbl _ _ _ => h.pagecacheAcquire A fd pidx
  | write t fd seg moves =>
    exact onTable_rule h fun tbl ht _ htbl => h.syscallFdWrite A ht htbl fd seg moves
  | lseek t fd offset whence =>
    exact onTable_rule h fun tbl ht _ htbl => h.sysLseek A ht htbl fd offset whence
  | pipe t mem => exact onTable_rule h fun tbl ht _ htbl => h.sysPipe A ht htbl mem
  | dup t oldfd =>
    exact onTable_rule h fun tbl ht halive htbl =>
      h.sysDup A ht htbl oldfd fun i j => hfair ⟨ht, halive⟩ tbl i j htbl
  | dup2 t oldfd newfd disk =>
    exact onTable_rule h fun tbl ht halive htbl =>
      h.sysDup2 A ht htbl oldfd newfd disk fun i j => hfair ⟨ht, halive⟩ tbl i j htbl
  | socket t free => exact onTable_rule h fun tbl ht _ htbl => h.sysSocket A ht htbl free
  | chdir t path found =>
    refine onTable_rule h fun tbl ht _ htbl => ?_
    unfold sysChdir
    split_ifs
    · exact h.sameTable ht rfl
    · exact h
  | fork t env =>
    exact onTable_rule h fun tbl ht halive htbl =>
      taskFork A h ht htbl env (hfair ⟨ht, halive⟩ tbl htbl)
  | create t env => exact onTable_rule h fun tbl _ _ _ => taskCreate A h env
  | exit t => exact onTable_rule h fun tbl ht _ htbl => h.sameTable ht rfl
  | change call =>
    cases call with
    | read => exact h
    | _ => exact h.same A rfl

/-- **A run of fair events keeps the balance.** -/
theorem run {evs : List FdEvent} (hfair : Meets (Fair w) Fds.step s evs) :
    Balanced w val P (s.run evs) :=
  Meets.invariant (P := Balanced w val P) (fun _ ev hs hok => step A hs ev hok) h hfair

end

end Balanced

/-! ### Slots -/

/-- A slot of the table of a task. -/
def Fds.entry (s : Fds) (p : ℕ × Fin taskMaxFds) : FdEntry :=
  ((s.tasks p.1).table.map fun tbl => tbl p.2).getD .none

/-- The slots, over all tables, that hold `x`. -/
def Fds.slots (x : Hold) (s : Fds) : Finset (ℕ × Fin taskMaxFds) :=
  (Finset.range maxTasks ×ˢ Finset.univ).filter fun p => (s.entry p).holds = some x

/-- With weight one for `x` alone, the total is the number of slots that hold it. -/
theorem Fds.total_slots (x : Hold) (s : Fds) :
    s.total (fun h => if h = x then 1 else 0) = (s.slots x).card := by
  have hslot : ∀ e : FdEntry, e.weight (fun h => if h = x then 1 else 0)
      = if e.holds = some x then 1 else 0 := by
    intro e
    unfold FdEntry.weight
    cases e.holds with
    | none => rfl
    | some y => simp
  have htask : ∀ t, (s.tasks t).total (fun h => if h = x then 1 else 0)
      = ∑ i, if (s.entry (t, i)).holds = some x then 1 else 0 := by
    intro t
    unfold FdTask.total
    cases htbl : (s.tasks t).table with
    | none =>
      have hentry : ∀ i, (s.entry (t, i)).holds = none := fun i => by
        unfold entry
        rw [htbl]
        rfl
      simp [hentry]
    | some tbl =>
      have hentry : ∀ i, s.entry (t, i) = tbl i := fun i => by
        unfold entry
        rw [htbl]
        rfl
      rw [map_some, getD_some, FdTable.total]
      exact sum_congr rfl fun i _ => by rw [hslot, hentry]
  unfold total slots
  rw [sum_congr rfl fun t _ => htask t, card_filter, sum_product]
  push_cast
  rfl

/-- Nothing is held after the boot. -/
theorem Fds.total_boot (w : Hold → ℤ) (fs : FileSys) (cwd : CStr) : (boot fs cwd).total w = 0 := by
  refine sum_eq_zero fun t _ => ?_
  unfold boot
  dsimp only
  split_ifs
  · exact total_default w
  · rfl

end Makar
