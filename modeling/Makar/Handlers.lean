import Makar.ProcTurn

/-!
# Signal handlers belong to tasks

The handlers of all tasks are in one table, `s_handlers`, with a row for each
slot of the pool. What a program expects is that the handler of a signal is
the one it installed itself last, or the default if it installed none since it
was created, forked or replaced its program. `dispose` says this of pids, with
no table: an event changes the handlers of the task that takes it and of the
task it creates, and of no other.

The table has eight rows, the pool has thirty-two slots. The two agree as long
as the pool has not grown past the table (`Fits`); after that the rows lie in
whatever the kernel keeps behind the table.

The last section is about `SIGKILL`, which no handler may catch.
-/

namespace Makar

open Function

namespace Procs

variable {k k' : Procs} {D : ℕ → ℕ → UInt32} {e : Event} {c t sig : ℕ}

/-! ## Rows -/

/-- The words of a row are those of its signals. -/
theorem handlerAt_row_iff (hs : sig < nsig) :
    handlerAt c 0 ≤ handlerAt t sig ∧ handlerAt t sig < handlerAt c nsig ↔ t = c := by
  simp only [handlerAt, nsig, sigMax] at hs ⊢
  omega

theorem handlerAt_inj {sig' : ℕ} (hs : sig < nsig) (hs' : sig' < nsig) :
    handlerAt t sig = handlerAt c sig' ↔ t = c ∧ sig = sig' := by
  simp only [handlerAt, nsig, sigMax] at hs hs' ⊢
  omega

theorem handlerFor_eq (ht : t < k.count) (sig : ℕ) :
    k.handlerFor t sig = k.handlers (handlerAt t sig) := by
  unfold handlerFor
  rw [slotOf_eq, if_pos ht]

/-! ## What tasks expect -/

/-- The running task can take an event of its own. -/
def Acts (k : Procs) : Prop :=
  k.hung = false ∧ (k.pool k.current).state = .running ∧ (k.pool k.current).call = .none

instance (k : Procs) : Decidable k.Acts := inferInstanceAs (Decidable (_ ∧ _))

/-- `sig_set_handler` takes the signal. -/
def Settable (signo : ℤ) : Prop :=
  ¬ (signo < 1 ∨ sigMax < signo) ∧ ¬ (signo = sigkill ∨ signo = sigstop)

instance (signo : ℤ) : Decidable (Settable signo) := inferInstanceAs (Decidable (_ ∧ _))

/-- **The handlers of each pid after an event**: a new task has the default ones, a
new program is set back to them, and a task installs its own. -/
def dispose (k : Procs) (D : ℕ → ℕ → UInt32) : Event → ℕ → ℕ → UInt32
  | .taskCreate _ _ => update D k.nextPid fun _ => sigDfl
  | .taskFork _ _ => update D k.nextPid fun _ => sigDfl
  | .execve _ =>
    if k.Acts then update D (k.pool k.current).pid fun _ => sigDfl else D
  | .signal signo handler =>
    if k.Acts ∧ Settable signo
    then update D (k.pool k.current).pid
      (update (D (k.pool k.current).pid) signo.toNat handler)
    else D
  | _ => D

/-- The handlers of each pid after a run. -/
def disposed (k : Procs) (D : ℕ → ℕ → UInt32) : List Event → ℕ → ℕ → UInt32
  | [] => D
  | e :: es => disposed (k.step e) (k.dispose D e) es

/-- **The pool does not grow past the table.** -/
def Fits (k : Procs) : Event → Prop
  | .taskCreate _ _ => k.deadSlot ≠ none ∨ k.count < sigTableMaxTasks
  | .taskFork _ _ => k.deadSlot ≠ none ∨ k.count < sigTableMaxTasks
  | _ => True

/-! ## The table keeps what tasks expect -/

/-- **The table agrees with what the tasks expect**, and has a row for each. -/
structure Owned (k : Procs) (D : ℕ → ℕ → UInt32) : Prop where
  /-- Every slot has a row. -/
  fits : k.count ≤ sigTableMaxTasks
  /-- The row holds the handlers of the task. -/
  own : ∀ t, t < k.count → ∀ sig, sig < nsig →
    k.handlers (handlerAt t sig) = D (k.pool t).pid sig

variable {D' : ℕ → ℕ → UInt32}

/-- A pool whose slots have the same pids, with the same table. -/
theorem Owned.congr (h : Owned k D) (hcount : k'.count = k.count)
    (hhandlers : k'.handlers = k.handlers) (hpid : ∀ t, (k'.pool t).pid = (k.pool t).pid)
    (hD : ∀ t, t < k.count → D' (k.pool t).pid = D (k.pool t).pid) : Owned k' D' := by
  refine ⟨hcount ▸ h.fits, fun t ht sig hs => ?_⟩
  rw [hcount] at ht
  rw [hhandlers, hpid, hD t ht, h.own t ht sig hs]

/-- An event that does not write to the table. -/
theorem Owned.moved (h : Owned k D) (hm : Moved k e k')
    (hborn : (∃ a b, e = .taskCreate a b ∨ e = .taskFork a b) →
      ∀ t userPd, Born k k' t userPd → Owned k' D') (hexec : ∀ ok, e ≠ .execve ok)
    (hsignal : ∀ s f, e ≠ .signal s f) (hstore : ∀ w v, e ≠ .store w v)
    (hD : ∀ t, t < k.count → D' (k.pool t).pid = D (k.pool t).pid) : Owned k' D' := by
  cases hm with
  | turn hturn => exact h.congr hturn.count hturn.handlers hturn.pid hD
  | pending t w => exact h.congr rfl rfl (same_setPending t w k).pid hD
  | born hc hb _ => exact hborn hc _ _ hb
  | execve ok he => exact absurd he (hexec ok)
  | signal s f he => exact absurd he (hsignal s f)
  | store w v he _ => exact absurd he (hstore w v)

/-- A new task has the default handlers, and the others keep theirs. -/
theorem Owned.born (h : Owned k D) (hp : Pids k) {userPd : Bool} (hb : Born k k' t userPd)
    (hfits : k.deadSlot ≠ none ∨ k.count < sigTableMaxTasks) :
    Owned k' (update D k.nextPid fun _ => sigDfl) := by
  refine ⟨?_, fun i hi sig hs => ?_⟩
  · cases hb.slot with
    | again _ _ _ _ hsame =>
      rw [hsame]
      exact h.fits
    | grown _ hnone _ hmore =>
      have := hfits.resolve_left (fun hne => hne hnone)
      omega
  · rw [hb.handlers]
    dsimp only
    by_cases hit : i = t
    · rw [if_pos ((handlerAt_row_iff hs).2 hit), hit, hb.pid, update_self]
    · have hlt := (hb.slot.lt_iff.1 hi).resolve_right hit
      rw [if_neg (fun hrow => hit ((handlerAt_row_iff hs).1 hrow)), h.own i hlt sig hs,
        hb.pid_of_ne hit, update_of_ne (hp.range i hlt).2.ne]

/-- A new program has the default handlers. -/
theorem Owned.execve (h : Owned k D) (hp : Pids k) (hcur : k.current < k.count) (ok : Bool) :
    Owned (k.execve ok) (update D (k.pool k.current).pid fun _ => sigDfl) := by
  have hsame := same_execve ok k
  have hhandlers : (k.execve ok).handlers = (k.sigTaskInit k.current).handlers := by
    simp only [Procs.execve]
    split_ifs <;> rfl
  refine ⟨hsame.count ▸ h.fits, fun i hi sig hs => ?_⟩
  rw [hsame.count] at hi
  rw [hhandlers, sigTaskInit_handlers hcur, hsame.pid]
  dsimp only
  by_cases hic : i = k.current
  · rw [if_pos ((handlerAt_row_iff hs).2 hic), hic, update_self]
  · rw [if_neg (fun hrow => hic ((handlerAt_row_iff hs).1 hrow)), h.own i hi sig hs,
      update_of_ne (fun heq => hic (hp.apart i k.current hi hcur heq))]

/-- What `sig_set_handler` writes. -/
theorem sigSetHandler_eq (ht : t < k.count) (signo : ℤ) (handler : UInt32) :
    (k.sigSetHandler t signo handler).2 = if Settable signo
      then { k with handlers := update k.handlers (handlerAt t signo.toNat) handler }
      else k := by
  unfold Procs.sigSetHandler
  by_cases hrange : signo < 1 ∨ sigMax < signo
  · rw [if_pos hrange, if_neg (fun hset => hset.1 hrange)]
  by_cases hkill : signo = sigkill ∨ signo = sigstop
  · rw [if_neg hrange, if_pos hkill, if_neg (fun hset => hset.2 hkill)]
  · rw [if_neg hrange, if_neg hkill, if_pos ⟨hrange, hkill⟩, slotOf_eq, if_pos ht]

/-- A task installs a handler of its own. -/
theorem Owned.install (h : Owned k D) (hp : Pids k) (hcur : k.current < k.count) {signo : ℤ}
    (hset : Settable signo) (handler : UInt32) :
    Owned { k with handlers := update k.handlers (handlerAt k.current signo.toNat) handler }
      (update D (k.pool k.current).pid
        (update (D (k.pool k.current).pid) signo.toNat handler)) := by
  have hsigno : signo.toNat < nsig := by
    have := hset.1
    simp only [nsig, sigMax] at this ⊢
    omega
  refine ⟨h.fits, fun i hi sig hs => ?_⟩
  show update k.handlers _ _ _ = _
  by_cases hic : i = k.current
  · rw [hic, update_self]
    by_cases hsig : sig = signo.toNat
    · rw [hsig, update_self, update_self]
    · have hne : handlerAt k.current sig ≠ handlerAt k.current signo.toNat := fun heq =>
        hsig ((handlerAt_inj hs hsigno).1 heq).2
      rw [update_of_ne hsig, update_of_ne hne]
      exact h.own k.current hcur sig hs
  · have hne : handlerAt i sig ≠ handlerAt k.current signo.toNat := fun heq =>
      hic ((handlerAt_inj hs hsigno).1 heq).1
    rw [update_of_ne hne, h.own i hi sig hs,
      update_of_ne (fun heq => hic (hp.apart i k.current hi hcur heq))]

/-- What the kernel keeps behind the table is in no row. -/
theorem Owned.store (h : Owned k D) {word : ℕ} (hword : sigTableMaxTasks * nsig ≤ word)
    (value : UInt32) : Owned { k with handlers := update k.handlers word value } D := by
  refine ⟨h.fits, fun i hi sig hs => ?_⟩
  have hi : i < k.count := hi
  have hrow : handlerAt i sig ≠ word := by
    have := h.fits
    simp only [handlerAt, nsig, sigMax, sigTableMaxTasks] at this hs hword ⊢
    omega
  show update k.handlers _ _ _ = _
  rw [update_of_ne hrow]
  exact h.own i hi sig hs

/-- The two tests of `step` for an event of the running task. -/
theorem acts_ite (k k' : Procs) :
    (if k.hung = true then k
      else if (k.pool k.current).state = .running ∧ (k.pool k.current).call = .none then k' else k)
      = if k.Acts then k' else k := by
  by_cases hhung : k.hung = true
  · rw [if_pos hhung, if_neg (fun hacts => by rw [hacts.1] at hhung; cases hhung)]
  · rw [if_neg hhung]
    rw [Bool.not_eq_true] at hhung
    exact if_congr ⟨fun h => ⟨hhung, h⟩, fun h => h.2⟩ rfl rfl

theorem step_execve (ok : Bool) (k : Procs) :
    k.step (.execve ok) = if k.Acts then k.execve ok else k := acts_ite k (k.execve ok)

theorem step_signal (signo : ℤ) (handler : UInt32) (k : Procs) :
    k.step (.signal signo handler)
      = if k.Acts then (k.sigSetHandler k.current signo handler).2 else k := acts_ite k _

/-- **Every event keeps the table and what tasks expect in agreement**, as long as
the pool does not grow past the table. -/
theorem Owned.step (h : Owned k D) (hr : k.Ring) (hp : Pids k) (hfits : Fits k e) :
    Owned (k.step e) (k.dispose D e) := by
  have hcur := hr.current_lt
  have hfresh : ∀ t, t < k.count →
      update D k.nextPid (fun _ => sigDfl) (k.pool t).pid = D (k.pool t).pid :=
    fun t ht => update_of_ne (hp.range t ht).2.ne _ _
  cases e with
  | taskCreate fds stack =>
    exact h.moved (hr.moved _) (fun _ t userPd hb => h.born hp hb hfits) nofun nofun nofun hfresh
  | taskFork clones stack =>
    exact h.moved (hr.moved _) (fun _ t userPd hb => h.born hp hb hfits) nofun nofun nofun hfresh
  | execve ok =>
    rw [step_execve]
    simp only [dispose]
    split_ifs
    · exact h.execve hp hcur ok
    · exact h
  | signal signo handler =>
    rw [step_signal, sigSetHandler_eq hcur]
    simp only [dispose]
    by_cases hacts : k.Acts <;> by_cases hset : Settable signo
    · rw [if_pos hacts, if_pos hset, if_pos ⟨hacts, hset⟩]
      exact h.install hp hcur hset handler
    · rw [if_pos hacts, if_neg hset, if_neg (fun h => hset h.2)]
      exact h
    · rw [if_neg hacts, if_neg (fun h => hacts h.1)]
      exact h
    · rw [if_neg hacts, if_neg (fun h => hacts h.1)]
      exact h
  | store word value =>
    unfold step
    dsimp only [dispose]
    split_ifs with hhung hword
    · exact h
    · exact h.store hword value
    · exact h
  | _ =>
    refine h.moved (hr.moved _) (fun hc => ?_) nofun nofun nofun (fun _ _ => rfl)
    obtain ⟨a, b, hab | hab⟩ := hc <;> cases hab

/-- The same over a run. -/
theorem Owned.run {es : List Event} (h : Owned k D) (hr : k.Ring) (hp : Pids k)
    (hes : Meets Fits Procs.step k es) : Owned (k.run es) (k.disposed D es) := by
  induction es generalizing k D with
  | nil => exact h
  | cons e es ih =>
    exact ih (h.step hr hp hes.1) (hr.step e) (hp.moved (hr.moved e) hr) hes.2

/-- **Handlers are per task**: in every run in which the pool does not grow past the
table, every slot has a row of it, and the handler that `sig_deliver` uses is the
one that the task expects. -/
theorem handlers_per_task (es : List Event) (hes : Meets Fits step taskingInit es) :
    ∀ t, t < (taskingInit.run es).count → t < sigTableMaxTasks
      ∧ ∀ sig, sig < nsig → (taskingInit.run es).handlerFor t sig
        = taskingInit.disposed (fun _ _ => sigDfl) es ((taskingInit.run es).pool t).pid sig := by
  have hinit : Owned taskingInit fun _ _ => sigDfl :=
    ⟨show 1 ≤ 8 by decide, fun _ _ _ _ => rfl⟩
  have howned := hinit.run ring_taskingInit pids_taskingInit hes
  intro t ht
  refine ⟨ht.trans_le howned.fits, fun sig hs => ?_⟩
  rw [handlerFor_eq ht]
  exact howned.own t ht sig hs

/-- Two tasks, each of which installs a handler for `SIGTERM`. -/
def twoHandlers : List Event :=
  [.taskCreate true true, .taskCreate true true, .dispatch 1, .signal sigterm 0x40001000,
    .dispatch 2, .signal sigterm 0x40002000]

theorem handlers_per_task_twoHandlers :
    Meets Fits step taskingInit twoHandlers
      ∧ (taskingInit.run twoHandlers).handlerFor 1 sigterm = 0x40001000
      ∧ (taskingInit.run twoHandlers).handlerFor 2 sigterm = 0x40002000
      ∧ (taskingInit.run twoHandlers).handlerFor 1 sigterm
        = taskingInit.disposed (fun _ _ => sigDfl) twoHandlers
          ((taskingInit.run twoHandlers).pool 1).pid sigterm := by
  have hmeets : Meets Fits step taskingInit twoHandlers :=
    ⟨.inr (by decide), .inr (by decide), trivial, trivial, trivial, trivial, trivial⟩
  exact ⟨hmeets, by decide, by decide,
    (handlers_per_task twoHandlers hmeets 1 (by decide)).2 sigterm (by decide)⟩

/-- Nine tasks, the ninth of which installs a handler for `SIGTERM`, which the
kernel then writes over. -/
def nineTasks : List Event :=
  List.replicate 8 (.taskCreate true true)
    ++ [.dispatch 8, .signal sigterm 0x40001000, .store (sigTableMaxTasks * nsig + sigterm) 0]

/-- The ninth task has no row, and its handler is lost. -/
theorem ninth_task_has_no_row :
    ∃ k, k = taskingInit.run nineTasks ∧ k.count ≤ maxTasks ∧ k.Live 8 ∧ ¬ 8 < sigTableMaxTasks
      ∧ taskingInit.disposed (fun _ _ => sigDfl) nineTasks (k.pool 8).pid sigterm = 0x40001000
      ∧ k.handlerFor 8 sigterm = sigDfl :=
  ⟨_, rfl, by decide +kernel⟩

/-! ## `SIGKILL`

`sig_deliver` takes the signals in the order of their numbers and stops at the
first one that has a handler of the program, so that a pending `SIGKILL` waits
behind it; and it looks only at signals that are not masked, `SIGKILL` among
them. -/

/-- **The signal ends the task**: it is pending and not masked, and is `SIGKILL` or
has the default disposition, which is to terminate. -/
def fatalTo (t : ℕ) (k : Procs) (sig : ℕ) : Bool :=
  k.deliverable t &&& sigBit sig ≠ 0
    ∧ (sig = sigkill ∨ k.handlerFor t sig = sigDfl ∧ sigDefaultTerminates sig)

/-- The task is dead or a zombie. -/
def Ended (k : Procs) (t : ℕ) : Prop := ¬ (k.pool t).state.Live

instance (s : ProcState) : Decidable s.Live := inferInstanceAs (Decidable (_ ∧ _))

instance (k : Procs) (t : ℕ) : Decidable (k.Ended t) := inferInstanceAs (Decidable ¬ _)

theorem ended_taskTerminate (t : ℕ) (status : ℤ) (k : Procs) :
    (k.taskTerminate t status).Ended t := by
  unfold Ended
  rw [taskTerminate_self]
  split_ifs
  · exact fun h => h.2 rfl
  · exact fun h => h.1 rfl

theorem sigClear_state (t : ℕ) (k : Procs) :
    ((k.sigClear t sig).pool t).state = (k.pool t).state := by
  unfold sigClear
  rw [upd_pool_self]

theorem sigClear_unkillable (t : ℕ) (k : Procs) :
    ((k.sigClear t sig).pool t).unkillable = (k.pool t).unkillable := by
  unfold sigClear
  rw [upd_pool_self]

/-- **What the loop of `sig_deliver` comes to** for a task that can be killed, over
the signals from `n` on: it ends the task if a fatal signal comes before the first
one with a handler. -/
theorem sigDeliverLoop_ended {K : Procs} (m n : ℕ) (hlive : (k.pool t).state.Live)
    (hkill : (k.pool t).unkillable = false) (hh : ∀ s, k.handlerFor t s = K.handlerFor t s) :
    (sigDeliverLoop t (K.deliverable t) (List.range' n m) k).Ended t
      ↔ ∃ s, n ≤ s ∧ s < n + m ∧ K.fatalTo t s ∧ ∀ j, n ≤ j → j < s → ¬ K.caughtBy t j := by
  induction m generalizing n k with
  | zero => exact ⟨fun h => absurd hlive h, fun ⟨s, hn, hs, _⟩ => by omega⟩
  | succ m ih =>
    -- A signal that is neither fatal nor caught leaves the matter to those after it.
    have hskip (k' : Procs) (hlive : (k'.pool t).state.Live)
        (hkill : (k'.pool t).unkillable = false) (hh : ∀ s, k'.handlerFor t s = K.handlerFor t s)
        (hf : ¬ K.fatalTo t n) (hc : ¬ K.caughtBy t n) :
        (sigDeliverLoop t (K.deliverable t) (List.range' (n + 1) m) k').Ended t
          ↔ ∃ s, n ≤ s ∧ s < n + (m + 1) ∧ K.fatalTo t s
            ∧ ∀ j, n ≤ j → j < s → ¬ K.caughtBy t j := by
      rw [ih (n + 1) hlive hkill hh]
      constructor
      · rintro ⟨s, hn, hs, hfs, hj⟩
        refine ⟨s, by omega, by omega, hfs, fun j hnj hjs => ?_⟩
        rcases eq_or_lt_of_le hnj with rfl | hlt
        · exact hc
        · exact hj j hlt hjs
      · rintro ⟨s, hn, hs, hfs, hj⟩
        have hne : n ≠ s := fun h => hf (h ▸ hfs)
        exact ⟨s, by omega, by omega, hfs, fun j hnj hjs => hj j (by omega) hjs⟩
    have hclear := hskip (k.sigClear t n) (sigClear_state t k ▸ hlive)
      (sigClear_unkillable t k ▸ hkill) hh
    have hends (status : ℤ) (hf : K.fatalTo t n) :
        ((k.sigClear t n).taskTerminate t status).Ended t
          ↔ ∃ s, n ≤ s ∧ s < n + (m + 1) ∧ K.fatalTo t s
            ∧ ∀ j, n ≤ j → j < s → ¬ K.caughtBy t j :=
      iff_of_true (ended_taskTerminate t status _)
        ⟨n, Nat.le_refl n, by omega, hf, fun j hnj hjn => by omega⟩
    rw [List.range'_succ, sigDeliverLoop]
    simp only [hh, hkill, Bool.false_eq_true, if_false, Bool.not_false, Bool.and_true]
    split_ifs with hdue hsig hign hdfl hterm
    · exact hskip k hlive hkill hh (by simp [fatalTo, hdue]) (by simp [caughtBy, hdue])
    · exact hends _ (by simp [fatalTo, hdue, ← hsig])
    · exact hclear (by simp [fatalTo, hsig, hign, sigIgn, sigDfl]) (by simp [caughtBy, hign])
    · exact hends _ (by simp [fatalTo, hdue, hdfl, hterm])
    · exact hclear (by simp [fatalTo, hsig, hterm]) (by simp [caughtBy, hdfl])
    · -- The loop stops at a signal with a handler.
      refine iff_of_false (fun h => h hlive) ?_
      rintro ⟨s, hn, -, hfs, hj⟩
      have hcaught : K.caughtBy t n := by simp [caughtBy, hdue, hsig, hign, hdfl]
      have hnf : ¬ K.fatalTo t n := by simp [fatalTo, hsig, hdfl]
      rcases eq_or_lt_of_le hn with rfl | hlt
      · exact hnf hfs
      · exact hj n (Nat.le_refl n) hlt hcaught

/-- **When a delivery ends a task that can be killed**, whether `SIGKILL` is pending
or not: exactly if some signal that is pending and not masked is fatal, and no such
signal of a smaller number has a handler of the program. -/
theorem sigkill_ends_iff (k : Procs) (t : ℕ) (hlive : (k.pool t).state.Live)
    (hkill : (k.pool t).unkillable = false) :
    (k.sigDeliver t).Ended t
      ↔ ∃ s, 1 ≤ s ∧ s ≤ sigMax ∧ k.fatalTo t s ∧ ∀ j, 1 ≤ j → j < s → ¬ k.caughtBy t j := by
  unfold sigDeliver
  rw [if_neg hlive.1]
  split_ifs with hdue
  · refine iff_of_false (fun h => h hlive) ?_
    rintro ⟨s, -, -, hfs, -⟩
    simp [fatalTo, hdue] at hfs
  · rw [sigDeliverLoop_ended sigMax 1 hlive hkill fun _ => rfl]
    exact exists_congr fun s => and_congr_right fun _ => and_congr_left fun _ => by omega

/-- A task with a handler for one signal, to which two signals are sent. -/
def sentTwo (handled first second : ℤ) : Procs :=
  ((taskingInit.run [.taskCreate true true, .dispatch 1, .signal handled 0x40001000]).sigSend 1
    first).sigSend 1 second

/-- With a handler for `SIGTERM`, which comes after `SIGKILL`, the task ends. -/
theorem sigkill_ends_sigterm :
    (sentTwo sigterm sigterm sigkill).fatalTo 1 sigkill
      ∧ ((sentTwo sigterm sigterm sigkill).sigDeliver 1).Ended 1 := by
  refine ⟨by decide +kernel, ?_⟩
  refine (sigkill_ends_iff _ 1 (by decide +kernel) (by decide +kernel)).2 ?_
  exact ⟨sigkill, by decide, by decide, by decide +kernel, by decide +kernel⟩

/-- **With a handler for `SIGINT` the task outlives the call**: `SIGKILL` waits behind
the signal that is pending for the handler. -/
theorem sigkill_waits_behind_sigint :
    ∃ k, k = sentTwo sigint sigint sigkill ∧ (k.pool 1).state.Live
      ∧ (k.pool 1).unkillable = false ∧ (k.pool 1).sigPending &&& sigBit sigkill ≠ 0
      ∧ ¬ (k.sigDeliver 1).Ended 1 :=
  ⟨_, rfl, by decide +kernel⟩

end Procs

end Makar
