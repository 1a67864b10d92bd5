import Makar.FdBalance

/-!
# Buffers and sockets of descriptors

A slot owns the buffer of its file and its socket: closing the slot releases them,
and nothing else does. `SYS_DUP` and `SYS_DUP2` copy the slot and leave the owner
out of account, so that two slots own one buffer (`released_twice`). As long as only
slots are copied that own nothing (`Fds.Unshared`), each buffer and each socket is
held by one slot until it is released, is released once, and no slot refers to it
afterwards (`released_once`).
-/

namespace Makar

/-- As something that a slot holds. -/
def FdRes.hold : FdRes → Hold
  | .buf b => .buf b
  | .sock n => .sock n

theorem FdRes.hold_injective : Function.Injective FdRes.hold := by
  rintro (a | a) (b | b) h <;> cases h <;> rfl

/-- The buffer or socket has been given out. -/
def Objs.Given (o : Objs) : FdRes → Prop
  | .buf b => b < o.nextBuf
  | .sock n => n < o.nextSock

instance (o : Objs) (r : FdRes) : Decidable (o.Given r) := by
  cases r <;> unfold Objs.Given <;> infer_instance

/-- The slot owns a buffer or a socket. -/
def FdEntry.Owns (e : FdEntry) : Prop :=
  (match e.holds with
    | some (.buf _) => true
    | some (.sock _) => true
    | _ => false) = true

instance (e : FdEntry) : Decidable e.Owns := inferInstanceAs (Decidable (_ = true))

/-- The weight of a slot that owns `r`. -/
def FdRes.weight (r : FdRes) (h : Hold) : ℤ := if h = r.hold then 1 else 0

/-- The value of `r`: given out, and not yet released. -/
def FdRes.value (r : FdRes) (o : Objs) : ℤ := (if o.Given r then 1 else 0) - o.released.count r

namespace FdRes

theorem weight_hold (r q : FdRes) : r.weight q.hold = if q = r then 1 else 0 := by
  unfold weight
  simp only [FdRes.hold_injective.eq_iff]

theorem weight_ring (r : FdRes) (n : ℕ) (b : Bool) : r.weight (.ring n b) = 0 := by
  cases r <;> rfl

/-- What is given out next. -/
theorem value_given {r q : FdRes} {o o' : Objs} (hreleased : o'.released = o.released)
    (hnew : ¬ o.Given q) (hgiven : ∀ r, o'.Given r ↔ o.Given r ∨ r = q) :
    r.value o' = r.value o + r.weight q.hold := by
  unfold value
  rw [hreleased, weight_hold]
  by_cases hr : r = q
  · subst hr
    rw [if_pos ((hgiven r).2 (.inr rfl)), if_neg hnew, if_pos rfl]
    ring
  · have hsame : o'.Given r ↔ o.Given r := (hgiven r).trans (or_iff_left hr)
    rw [if_neg (Ne.symm hr), add_zero]
    simp only [hsame]

/-- What is released. -/
theorem value_released (r q : FdRes) (o : Objs) :
    r.value { o with released := o.released ++ [q] } = r.value o + -r.weight q.hold := by
  unfold value
  have hgiven : Objs.Given { o with released := o.released ++ [q] } r ↔ o.Given r := by
    cases r <;> rfl
  rw [weight_hold, List.count_append, List.count_singleton, beq_eq_decide]
  simp only [hgiven, decide_eq_true_eq]
  push_cast
  ring

/-- **The account of buffers and sockets.** -/
theorem account : Account weight value fun _ => True where
  nonneg r h := by
    unfold weight
    split_ifs <;> decide
  same {o o'} hbooks _ := by
    refine ⟨trivial, fun r => ?_⟩
    obtain ⟨hbuf, hsock, -, -, hreleased, -⟩ :
        o'.nextBuf = o.nextBuf ∧ o'.nextSock = o.nextSock ∧ o'.nextRing = o.nextRing
          ∧ o'.rings = o.rings ∧ o'.released = o.released ∧ o'.freed = o.freed := by
      simpa [Objs.books] using hbooks
    have hgiven : o'.Given r ↔ o.Given r := by
      cases r with
      | buf b => exact iff_of_eq (congrArg (b < ·) hbuf)
      | sock n => exact iff_of_eq (congrArg (n < ·) hsock)
    unfold value
    rw [hreleased, add_zero]
    simp only [hgiven]
  newBuf bytes {o} _ := by
    refine ⟨trivial, fun r => value_given (q := .buf o.nextBuf) rfl (lt_irrefl _) fun r => ?_⟩
    cases r with
    | buf b =>
      rw [FdRes.buf.injEq]
      exact Nat.lt_succ_iff_lt_or_eq
    | sock n => simp [Objs.Given, Objs.newBuf]
  kfree b {o} _ := ⟨trivial, fun r => value_released r (.buf b) o⟩
  ksockOpen {o} _ := by
    refine ⟨trivial, fun r => value_given (q := .sock o.nextSock) rfl (lt_irrefl _) fun r => ?_⟩
    cases r with
    | buf b => simp [Objs.Given, Objs.ksockOpen]
    | sock n =>
      rw [FdRes.sock.injEq]
      exact Nat.lt_succ_iff_lt_or_eq
  ksockClose n {o} _ := ⟨trivial, fun r => value_released r (.sock n) o⟩
  newRing {o} _ := ⟨trivial, fun r => by
    simp only [weight_ring, add_zero]
    cases r <;> rfl⟩
  bump {n b o} _ _ := ⟨trivial, fun r => by
    simp only [weight_ring, add_zero]
    cases r <;> rfl⟩
  pipeRelease {n b o} _ _ := ⟨trivial, fun r => by
    simp only [weight_ring, neg_zero, add_zero]
    cases r <;> rfl⟩

end FdRes

namespace Fds

/-- **The condition.** `SYS_DUP` and `SYS_DUP2` copy no slot that owns a buffer or a socket. -/
def Unshared (s : Fds) : FdEvent → Prop
  | .dup t oldfd => s.Acts t → ∀ tbl ∈ (s.tasks t).table, ∀ i ∈ tbl.fdGet oldfd,
      tbl.fdAlloc ≠ none → ¬ (tbl i).Owns
  | .dup2 t oldfd newfd _ => s.Acts t → ∀ tbl ∈ (s.tasks t).table, ∀ i ∈ tbl.fdGet oldfd,
      ∀ j ∈ fdIndex newfd, i ≠ j → ¬ (tbl i).Owns
  | _ => True

instance (s : Fds) (ev : FdEvent) : Decidable (s.Unshared ev) := by
  cases ev <;> dsimp only [Unshared] <;> infer_instance

/-- A slot that owns nothing may be copied. -/
theorem copyFair {e : FdEntry} (he : ¬ e.Owns) : CopyFair FdRes.weight e := by
  intro h hholds _ r
  refine if_neg fun heq => he ?_
  unfold FdEntry.Owns
  rw [hholds, heq]
  cases r <;> rfl

theorem Unshared.fair {s : Fds} {ev : FdEvent} (h : s.Unshared ev) : Fair FdRes.weight s ev := by
  cases ev with
  | dup t oldfd =>
    exact fun hacts tbl i j htbl hget halloc =>
      copyFair (h hacts tbl htbl i hget (by rw [halloc]; exact Option.some_ne_none j))
  | dup2 t oldfd newfd disk =>
    exact fun hacts tbl i j htbl hget hindex hij =>
      copyFair (h hacts tbl htbl i hget j hindex hij)
  | fork t env =>
    exact fun _ tbl _ _ i j _ _ _ n b _ => .inl fun r => r.weight_ring n b
  | _ => trivial

/-- **A buffer or a socket is accounted for**: once it was given out and no slot refers to it, it
has been released once, and before that not at all; none that was released has a slot that refers
to it, and no two slots refer to the same. -/
def Settled (s : Fds) (r : FdRes) : Prop :=
  s.objs.released.count r = (if s.objs.Given r ∧ s.slots r.hold = ∅ then 1 else 0)
    ∧ (r ∈ s.objs.released → s.slots r.hold = ∅)
    ∧ (s.slots r.hold).card ≤ 1

instance (s : Fds) (r : FdRes) : Decidable (s.Settled r) := inferInstanceAs (Decidable (_ ∧ _ ∧ _))

/-- In the balance every buffer and every socket is accounted for. -/
theorem settled_of_balanced {s : Fds} (h : Balanced FdRes.weight FdRes.value (fun _ => True) s)
    (r : FdRes) : s.Settled r := by
  have hsum : ((s.slots r.hold).card : ℤ)
      = (if s.objs.Given r then 1 else 0) - s.objs.released.count r :=
    (s.total_slots r.hold).symm.trans (h.2 r)
  have hempty : s.slots r.hold = ∅ ↔ (s.slots r.hold).card = 0 := Finset.card_eq_zero.symm
  have hmem : r ∈ s.objs.released ↔ 0 < s.objs.released.count r := List.count_pos_iff.symm
  unfold Settled
  simp only [hmem, hempty]
  by_cases hgiven : s.objs.Given r
  · rw [if_pos hgiven] at hsum
    simp only [hgiven, true_and]
    split_ifs <;> omega
  · rw [if_neg hgiven] at hsum
    simp only [hgiven, false_and, if_false]
    omega

/-- Nothing is given out before the boot. -/
theorem balanced_boot (fs : FileSys) (cwd : CStr) :
    Balanced FdRes.weight FdRes.value (fun _ => True) (boot fs cwd) := by
  refine ⟨trivial, fun r => ?_⟩
  rw [Fds.total_boot]
  cases r <;> rfl

/-- **Buffers and sockets are released once.** After every run in which `SYS_DUP` and `SYS_DUP2`
copy no slot that owns one, each is accounted for. -/
theorem released_once (fs : FileSys) (cwd : CStr) (evs : List FdEvent)
    (hok : Meets Unshared step (boot fs cwd) evs) (r : FdRes) :
    ((boot fs cwd).run evs).Settled r :=
  settled_of_balanced
    (Balanced.run FdRes.account (balanced_boot fs cwd) (hok.mono fun _ _ => Unshared.fair)) r

/-- A new file is opened for writing. -/
def create (path : CStr) : FdEvent :=
  .open 0 path ⟨true, true, false, false⟩ ⟨false, false, none, true, true, none⟩

/-- The theorem at a file that is created and closed, next to a pipe with a copied end. -/
theorem released_once_file :
    Meets Unshared step (boot FileSys.oneFile "/".toList)
        [create "/g".toList, .pipe 0 true, .dup 0 4, .close 0 3 some]
      ∧ ((boot FileSys.oneFile "/".toList).run
        [create "/g".toList, .pipe 0 true, .dup 0 4, .close 0 3 some]).Settled (.buf 0) := by
  refine ⟨?ok, released_once _ _ _ ?ok _⟩
  decide +kernel

/-- **A buffer is released twice**: a new file is opened, its slot is copied, and both are
closed. -/
theorem released_twice :
    ¬ ((boot FileSys.oneFile "/".toList).run
      [create "/g".toList, .dup 0 3, .close 0 3 some, .close 0 4 some]).Settled (.buf 0) := by
  decide +kernel

end Fds

end Makar
