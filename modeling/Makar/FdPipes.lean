import Makar.FdBuffers

/-!
# Ends of pipes

A ring counts its ends, and is freed with the last of them. The counts are kept by
`SYS_PIPE`, by the copies that `SYS_DUP`, `SYS_DUP2` and `fd_table_clone` make, and
by every close. In one place they are not: when `fd_table_clone` finds no memory for
the buffer of a file it gives the buffers back that it has copied, but not the ends
of rings that it has counted (`ends_leaked`). In runs without such a fork the counts
are the numbers of the slots over all tables, and a ring is freed when both are zero,
and then once (`ends_counted`).
-/

namespace Makar

open Function List

/-- The number of ends of one kind. -/
def PipeRing.ends (ring : PipeRing) (writer : Bool) : ℤ :=
  if writer then ring.refcountW else ring.refcountR

/-- The ring has no ends left. -/
def PipeRing.Unused (ring : PipeRing) : Prop := ring.refcountR = 0 ∧ ring.refcountW = 0

instance (ring : PipeRing) : Decidable ring.Unused := inferInstanceAs (Decidable (_ ∧ _))

variable {ring : PipeRing}

theorem PipeRing.unused_iff : ring.Unused ↔ ∀ b, ring.ends b = 0 :=
  (Bool.forall_bool (p := fun b => ring.ends b = 0)).symm

/-- The weight of a slot that is an end of a ring. -/
def endWeight (k : ℕ × Bool) (h : Hold) : ℤ := if h = .ring k.1 k.2 then 1 else 0

/-- The number of ends in the books. -/
def endCount (k : ℕ × Bool) (o : Objs) : ℤ :=
  if k.1 < o.nextRing then (o.rings k.1).ends k.2 else 0

/-- The rings in the books: no count is negative, and a ring without ends has been freed once. -/
def Objs.RingsOk (o : Objs) : Prop :=
  (∀ r < o.nextRing, ∀ b, 0 ≤ (o.rings r).ends b)
    ∧ ∀ r, o.freed.count r = if r < o.nextRing ∧ (o.rings r).Unused then 1 else 0

theorem endWeight_ring (k : ℕ × Bool) (r : ℕ) (b : Bool) :
    endWeight k (.ring r b) = if k = (r, b) then 1 else 0 := by
  unfold endWeight
  simp only [Hold.ring.injEq, Prod.ext_iff, eq_comm]

/-- Neither the rings nor what was freed is touched. -/
theorem posted_same {o o' : Objs} (hnext : o'.nextRing = o.nextRing) (hrings : o'.rings = o.rings)
    (hfreed : o'.freed = o.freed) (h : o.RingsOk) :
    Posted endCount Objs.RingsOk o o' fun _ => 0 := by
  refine ⟨?_, fun k => ?_⟩
  · unfold Objs.RingsOk
    rw [hnext, hrings, hfreed]
    exact h
  · unfold endCount
    rw [hnext, hrings, add_zero]

variable {b : Bool}

/-- **The ends of one ring are counted anew**, and the ring is freed if none are left. -/
theorem posted_ring {o o' : Objs} {r : ℕ} {d : ℤ} (h : o.RingsOk) (hr : r < o.nextRing)
    (hnext : o'.nextRing = o.nextRing) (hothers : ∀ q ≠ r, o'.rings q = o.rings q)
    (hend : (o'.rings r).ends b = (o.rings r).ends b + d)
    (hother : (o'.rings r).ends (!b) = (o.rings r).ends (!b)) (hnonneg : 0 ≤ (o'.rings r).ends b)
    (hused : ¬ (o.rings r).Unused)
    (hfreed : o'.freed = if (o'.rings r).Unused then o.freed ++ [r] else o.freed) :
    Posted endCount Objs.RingsOk o o' fun k => if k = (r, b) then d else 0 := by
  have hcases : ∀ c, c = b ∨ c = !b := by
    intro c
    cases b <;> cases c <;> decide
  refine ⟨⟨fun q hq c => ?_, fun q => ?_⟩, fun k => ?_⟩
  · by_cases hqr : q = r
    · subst hqr
      rcases hcases c with rfl | rfl
      · exact hnonneg
      · exact hother ▸ h.1 q hr _
    · rw [hothers q hqr]
      exact h.1 q (hnext ▸ hq) c
  · have hbefore := h.2 q
    rw [hfreed, hnext]
    by_cases hqr : q = r
    · subst hqr
      rw [if_neg fun hand => hused hand.2] at hbefore
      by_cases hunused : (o'.rings q).Unused
      · rw [if_pos hunused, if_pos ⟨hr, hunused⟩, count_append, hbefore]
        simp
      · rw [if_neg hunused, if_neg fun hand => hunused hand.2, hbefore]
    · have hcount : count q (if (o'.rings r).Unused then o.freed ++ [r] else o.freed)
          = o.freed.count q := by
        split_ifs
        · rw [count_append, count_singleton, if_neg (by simpa using Ne.symm hqr), add_zero]
        · rfl
      rw [hcount, hothers q hqr, hbefore]
  · obtain ⟨q, c⟩ := k
    unfold endCount
    dsimp only
    rw [hnext]
    by_cases hqr : q = r
    · subst hqr
      rw [if_pos hr, if_pos hr]
      rcases hcases c with rfl | rfl
      · rw [if_pos rfl, hend]
      · rw [if_neg (by simp), hother, add_zero]
    · rw [hothers q hqr, if_neg (fun heq => hqr (congrArg Prod.fst heq)), add_zero]

/-- An end that is covered is there. -/
theorem covered {o : Objs} {r : ℕ} (hcover : ∀ k, endWeight k (.ring r b) ≤ endCount k o) :
    r < o.nextRing ∧ 0 < (o.rings r).ends b := by
  have hk := hcover (r, b)
  rw [endWeight_ring, if_pos rfl] at hk
  unfold endCount at hk
  dsimp only at hk
  split_ifs at hk with hr
  · exact ⟨hr, by omega⟩
  · omega

theorem not_unused (h : 0 < ring.ends b) : ¬ ring.Unused :=
  fun hunused => absurd (PipeRing.unused_iff.1 hunused b) h.ne'

/-- An end less, where there is one. -/
theorem lessEnd_ends (h : 0 < ring.ends b) :
    (Objs.lessEnd b ring).ends b = ring.ends b + -1
      ∧ (Objs.lessEnd b ring).ends (!b) = ring.ends (!b) := by
  unfold Objs.lessEnd
  cases b with
  | false =>
    rw [if_neg (by decide), if_pos (show 0 < ring.refcountR from h)]
    exact ⟨rfl, rfl⟩
  | true =>
    rw [if_pos rfl, if_pos (show 0 < ring.refcountW from h)]
    exact ⟨rfl, rfl⟩

/-- **The account of the ends of rings.** -/
theorem endAccount : Account endWeight endCount Objs.RingsOk where
  nonneg k h := by
    unfold endWeight
    split_ifs <;> decide
  same {o o'} hbooks h := by
    obtain ⟨-, -, hnext, hrings, -, hfreed⟩ :
        o'.nextBuf = o.nextBuf ∧ o'.nextSock = o.nextSock ∧ o'.nextRing = o.nextRing
          ∧ o'.rings = o.rings ∧ o'.released = o.released ∧ o'.freed = o.freed := by
      simpa [Objs.books] using hbooks
    exact posted_same hnext hrings hfreed h
  newBuf bytes {o} h := posted_same rfl rfl rfl h
  kfree b {o} h := posted_same rfl rfl rfl h
  ksockOpen {o} h := posted_same rfl rfl rfl h
  ksockClose n {o} h := posted_same rfl rfl rfl h
  newRing {o} h := by
    have hnew : o.newRing.rings o.nextRing = ⟨(o.rings o.nextRing).buf, 0, 0, 1, 1⟩ :=
      update_self _ _ _
    have hold : ∀ q ≠ o.nextRing, o.newRing.rings q = o.rings q :=
      fun q hq => update_of_ne hq _ _
    have hlt : ∀ q, q < o.newRing.nextRing ↔ q < o.nextRing ∨ q = o.nextRing :=
      fun q => Nat.lt_succ_iff_lt_or_eq
    refine ⟨⟨fun q hq b => ?_, fun q => ?_⟩, fun k => ?_⟩
    · by_cases hqn : q = o.nextRing
      · rw [hqn, hnew]
        cases b <;> exact zero_le_one
      · rw [hold q hqn]
        exact h.1 q (((hlt q).1 hq).resolve_right hqn) b
    · show o.freed.count q = _
      rw [h.2 q]
      by_cases hqn : q = o.nextRing
      · have hused : ¬ (o.newRing.rings q).Unused := by
          rw [hqn, hnew]
          exact fun hunused => absurd hunused.1 one_ne_zero
        rw [if_neg fun hand => lt_irrefl _ (hqn ▸ hand.1), if_neg fun hand => hused hand.2]
      · simp only [hlt, hold q hqn, hqn, or_false]
    · obtain ⟨q, b⟩ := k
      simp only [endWeight_ring, endCount, hlt]
      by_cases hqn : q = o.nextRing
      · subst hqn
        rw [hnew]
        cases b <;> simp [PipeRing.ends]
      · simp [hqn, hold q hqn]
  bump {r b o} h hcover := by
    obtain ⟨hr, hpos⟩ := covered hcover
    have hring : (o.bump r b).rings r
        = if b then { o.rings r with refcountW := (o.rings r).refcountW + 1 }
          else { o.rings r with refcountR := (o.rings r).refcountR + 1 } := update_self _ _ _
    have hend : ((o.bump r b).rings r).ends b = (o.rings r).ends b + 1 := by
      rw [hring]
      cases b <;> rfl
    have hused : ¬ ((o.bump r b).rings r).Unused := not_unused (b := b) (by rw [hend]; omega)
    have hother : ((o.bump r b).rings r).ends (!b) = (o.rings r).ends (!b) := by
      rw [hring]
      cases b <;> rfl
    have hposted : Posted endCount Objs.RingsOk o (o.bump r b) fun k => if k = (r, b) then 1 else 0 :=
      posted_ring h hr rfl (fun q hq => update_of_ne hq _ _) hend hother
        (by rw [hend]; omega) (not_unused hpos) (if_neg hused).symm
    exact hposted.congr fun k => (endWeight_ring k r b).symm
  pipeRelease {r b o} h hcover := by
    obtain ⟨hr, hpos⟩ := covered hcover
    have hring : (o.pipeRelease r b).rings r = Objs.lessEnd b (o.rings r) :=
      update_self _ _ _
    have hends := lessEnd_ends hpos
    rw [← hring] at hends
    have hfreed : (o.pipeRelease r b).freed
        = if ((o.pipeRelease r b).rings r).Unused then o.freed ++ [r] else o.freed := by
      rw [hring]
      rfl
    have hposted : Posted endCount Objs.RingsOk o (o.pipeRelease r b)
        fun k => if k = (r, b) then -1 else 0 :=
      posted_ring h hr rfl (fun q hq => update_of_ne hq _ _) hends.1 hends.2
        (by rw [hends.1]; omega) (not_unused hpos) hfreed
    refine hposted.congr fun k => ?_
    rw [endWeight_ring]
    split_ifs <;> rfl

/-- The slot is an end of a ring. -/
def FdEntry.isEnd : FdEntry → Bool
  | .pipe .. => true
  | _ => false

/-- The clone of a table breaks off for lack of memory, behind an end of a ring. -/
def FdTable.BreaksOff (mem : Fin taskMaxFds → Bool) (tbl : FdTable) : Prop :=
  ∃ i j, j < i ∧ (tbl i).Needs ∧ mem i = false ∧ (∀ l < i, (tbl l).Needs → mem l = true)
    ∧ (tbl j).isEnd = true

namespace Fds

/-- **The condition.** No fork finds no memory for a buffer after it has copied an end of a
ring. -/
def ForksWhole (s : Fds) : FdEvent → Prop
  | .fork t env => s.Acts t → ∀ tbl ∈ (s.tasks t).table, env.room = true → ¬ tbl.BreaksOff env.mem
  | _ => True

instance (mem : Fin taskMaxFds → Bool) (tbl : FdTable) : Decidable (tbl.BreaksOff mem) :=
  inferInstanceAs (Decidable (∃ _ _, _))

instance (s : Fds) (ev : FdEvent) : Decidable (s.ForksWhole ev) :=
  match ev with
  | .fork .. => by unfold ForksWhole; infer_instance
  | .close .. | .read .. | .pread .. | .acquire .. | .write .. | .lseek .. | .pipe .. | .dup ..
  | .open .. | .dup2 .. | .socket .. | .chdir .. | .create .. | .exit _ | .change _ =>
    .isTrue trivial

/-- Buffers and sockets have no weight here. -/
theorem copyFair_ends (e : FdEntry) : CopyFair endWeight e :=
  fun _ _ hring k => if_neg (hring k.1 k.2)

theorem ForksWhole.fair {s : Fds} {ev : FdEvent} (h : s.ForksWhole ev) : Fair endWeight s ev := by
  cases ev with
  | dup t oldfd => exact fun _ tbl i _ _ _ _ => copyFair_ends (tbl i)
  | dup2 t oldfd newfd disk => exact fun _ tbl i _ _ _ _ _ => copyFair_ends (tbl i)
  | fork t env =>
    intro hacts tbl htbl hroom i j hneeds hmem hji r b hend
    refine .inr ?_
    by_contra hfirst
    push Not at hfirst
    refine h hacts tbl htbl hroom ⟨i, j, hji, hneeds, hmem, fun l hl hln => ?_, by rw [hend]; rfl⟩
    exact Bool.eq_true_of_not_eq_false (hfirst l hl hln)
  | _ => trivial

/-- **The ends of a ring are counted**: the counts are the numbers of slots over all tables, and the
ring has been freed once if both are zero and not otherwise; a ring that was never made has no
slots. -/
def Counted (s : Fds) (r : ℕ) : Prop :=
  if r < s.objs.nextRing then
    (s.objs.rings r).refcountR = (s.slots (.ring r false)).card
      ∧ (s.objs.rings r).refcountW = (s.slots (.ring r true)).card
      ∧ s.objs.freed.count r = if (s.objs.rings r).Unused then 1 else 0
  else s.slots (.ring r false) = ∅ ∧ s.slots (.ring r true) = ∅ ∧ r ∉ s.objs.freed

instance (s : Fds) (r : ℕ) : Decidable (s.Counted r) := inferInstanceAs (Decidable (ite _ _ _))

theorem counted_of_balanced {s : Fds} (h : Balanced endWeight endCount Objs.RingsOk s) (r : ℕ) :
    s.Counted r := by
  have hcard : ∀ b, ((s.slots (.ring r b)).card : ℤ)
      = if r < s.objs.nextRing then (s.objs.rings r).ends b else 0 :=
    fun b => (s.total_slots (.ring r b)).symm.trans (h.2 (r, b))
  have hfreed := h.1.2 r
  unfold Counted
  by_cases hr : r < s.objs.nextRing
  · rw [if_pos hr]
    simp only [hr, if_true] at hcard
    simp only [hr, true_and] at hfreed
    exact ⟨(hcard false).symm, (hcard true).symm, hfreed⟩
  · rw [if_neg hr]
    simp only [hr, if_false, Nat.cast_eq_zero, Finset.card_eq_zero] at hcard
    simp only [hr, false_and, if_false] at hfreed
    exact ⟨hcard false, hcard true, count_eq_zero.1 hfreed⟩

/-- There are no rings at the boot. -/
theorem balanced_boot_ends (fs : FileSys) (cwd : CStr) :
    Balanced endWeight endCount Objs.RingsOk (boot fs cwd) := by
  refine ⟨⟨fun r hr => absurd hr (Nat.not_lt_zero r), fun r => ?_⟩, fun k => ?_⟩
  · exact (if_neg fun hand => absurd hand.1 (Nat.not_lt_zero r)).symm
  · rw [Fds.total_boot]
    exact (if_neg (Nat.not_lt_zero k.1)).symm

/-- **The counts of a ring are the numbers of its slots**, and it is freed when both are zero, after
every run in which no fork breaks off behind an end of a ring. -/
theorem ends_counted (fs : FileSys) (cwd : CStr) (evs : List FdEvent)
    (hok : Meets ForksWhole step (boot fs cwd) evs) (r : ℕ) : ((boot fs cwd).run evs).Counted r :=
  counted_of_balanced
    (Balanced.run endAccount (balanced_boot_ends fs cwd) (hok.mono fun _ _ => ForksWhole.fair)) r

/-- A pipe whose ends are inherited, copied and closed, next to a new file. -/
def inheritedEnds : List FdEvent :=
  [.pipe 0 true, create "/g".toList, .fork 0 ⟨true, fun _ => true, true, some 1, some⟩,
    .dup 1 4, .close 0 4 some, .exit 1]

/-- The theorem at a pipe whose ends are inherited. -/
theorem ends_counted_inherited :
    Meets ForksWhole step (boot FileSys.oneFile "/".toList) inheritedEnds
      ∧ ((boot FileSys.oneFile "/".toList).run inheritedEnds).Counted 0 := by
  have hok : Meets ForksWhole step (boot FileSys.oneFile "/".toList) inheritedEnds := by
    decide +kernel
  exact ⟨hok, ends_counted _ _ _ hok 0⟩

/-- **Ends that nobody has**: a task with a pipe and a new file forks, and there is no memory for the
buffer of the file. -/
theorem ends_leaked :
    ¬ ((boot FileSys.oneFile "/".toList).run
      [.pipe 0 true, create "/g".toList,
        .fork 0 ⟨true, fun _ => false, true, some 1, some⟩]).Counted 0 := by
  decide +kernel

end Fds

end Makar
