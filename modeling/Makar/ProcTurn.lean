import Makar.ProcBirth

/-!
# What an event comes to

The laws of the processes that follow are laws of runs, and each of them is
an invariant that every event has to keep. This module goes through the
events once, so that the laws need not.

Apart from a creation and from writes to the handler table an event is a
`Turn`: something calm happens, and then perhaps a switch to a task that was
ready. `Waits` names the tasks that come to wait for a sender in an event,
with the sender they name, and `Ends` the tasks that may end in it; both are
read off the state before. `Ring.moved` is the one case split.

The pids are an example of such an invariant: no two slots have the same one
(`Pids`).
-/

namespace Makar

namespace Procs

variable {k k' k₁ : Procs} {W W' : ℕ → ℤ → Prop} {E E' : ℕ → Prop} {e : Event} {i j t : ℕ}
  {userPd : Bool}

/-! ## Turns -/

/-- **A turn**: something calm, and then perhaps a switch to a task that was
ready. -/
def Turn (W : ℕ → ℤ → Prop) (E : ℕ → Prop) (k k' : Procs) : Prop :=
  ∃ k₁, Calm W E k k₁
    ∧ (k' = k₁ ∨ ∃ t, t < k₁.count ∧ (k₁.pool t).state = .ready ∧ k' = k₁.switchTo t)

theorem Calm.turn (h : Calm W E k k') : Turn W E k k' := ⟨k', h, .inl rfl⟩

theorem Turn.mono (h : Turn W E k k') (hW : ∀ i n, W i n → W' i n) (hE : ∀ i, E i → E' i) :
    Turn W' E' k k' := by
  obtain ⟨k₁, hk₁, hk'⟩ := h
  exact ⟨k₁, hk₁.mono hW hE, hk'⟩

/-- A turn after something calm. -/
theorem Calm.then_turn (h : Calm W E k k₁) (h' : Turn W E k₁ k') : Turn W E k k' := by
  obtain ⟨k₂, hk₂, hk'⟩ := h'
  exact ⟨k₂, h.trans hk₂, hk'⟩

/-- The scheduler takes a turn, in which tasks may end for which a signal is
due. -/
theorem Ring.turn_schedule (hr : k.Ring) : Turn W (fun i => k.deliverable i ≠ 0) k k.schedule := by
  have hs : Calm W (fun i => k.deliverable i ≠ 0) k (k.serve .running k.current) :=
    (calm_serve .running (by decide) k.current k).mono (fun _ _ => id) (fun i hi => hi.1 ▸ hi.2)
  have hp : ∀ n c, Calm W (fun i => k.deliverable i ≠ 0) k
      (pick n c (k.serve .running k.current)).2 := by
    refine fun n c => hs.trans ((calm_pick n c _).mono (fun _ _ => id) (fun i hi hnot => hi ?_))
    rw [hs.deliverable (i := i) (by simpa using hnot), hnot]
  rcases hr.schedule_cases with
    ⟨-, heq⟩ | ⟨cand, -, -, r, rfl, hlt, ⟨heq, -⟩ | ⟨heq, -, hready⟩⟩ <;> rw [heq]
  · exact (Calm.refl k).turn
  · exact (hp _ _).turn
  · refine ⟨_, hp _ _, .inr ⟨_, ?_, hready, rfl⟩⟩
    rw [(hp k.count cand).count]
    exact hlt

/-- The scheduler after something calm. -/
theorem Ring.turn_then (hr : k.Ring) (h : Calm W E k k₁) :
    Turn W (fun i => E i ∨ k.deliverable i ≠ 0) k k₁.schedule := by
  refine (h.mono (fun _ _ => id) (fun _ => .inl)).then_turn
    ((h.kept.ring hr).turn_schedule.mono (fun _ _ => id) (fun i hi => ?_))
  by_cases hE : E i
  · exact .inl hE
  · rw [h.deliverable hE] at hi
    exact .inr hi

/-- A call makes no task end; the scheduler may, when the call has blocked. -/
theorem Ring.turn_afterCall (hr : k.Ring) {r : Option ℤ × Procs} (h : Calm W NoEnd k r.2) :
    Turn W (fun i => k.deliverable i ≠ 0) k (Procs.afterCall r) := by
  unfold Procs.afterCall
  split
  · exact (hr.turn_then h).mono (fun _ _ => id) (fun i hi => hi.resolve_left id)
  · exact (h.mono (fun _ _ => id) (fun _ => False.elim)).turn

/-! ## The events -/

/-- The tasks that come to wait for a sender in an event, and the sender. -/
def Waits (k : Procs) : Event → ℕ → ℤ → Prop
  | .ipcRecv src _, i, n => i = k.current ∧ n = src
  | .ipcSendrec dst _, i, n => i = k.current ∧ n = dst
  | .resume, i, n => i = k.current ∧ (k.pool i).call = .sendrec n ∧ (k.pool i).ipcRc = 0
  | _, _, _ => False

/-- The task is a zombie and a child of the task that runs. -/
def Awaiting (k : Procs) (i : ℕ) : Prop :=
  (k.pool i).state = .zombie ∧ (k.pool i).parentPid = (k.pool k.current).pid

/-- The tasks that may end in an event, or be reaped. The scheduler delivers
signals, so wherever it runs the tasks may end for which one is due. -/
def Ends (k : Procs) : Event → ℕ → Prop
  | .schedule, i => k.deliverable i ≠ 0
  | .ipcSend _ _, i => k.deliverable i ≠ 0
  | .ipcRecv _ _, i => k.deliverable i ≠ 0
  | .ipcSendrec _ _, i => k.deliverable i ≠ 0
  | .resume, i => k.deliverable i ≠ 0
  | .taskExit _, i => (k.Awaiting i ∨ i = k.current) ∨ k.deliverable i ≠ 0
  | .sigreturn, i => i = k.current ∨ k.deliverable i ≠ 0
  | .logout t, i => i = t
  | .wait4 _, i => k.Awaiting i
  | _, _ => False

/-- **What an event comes to.** -/
inductive Moved (k : Procs) (e : Event) : Procs → Prop
  /-- A turn. -/
  | turn {k' : Procs} (is_turn : Turn (k.Waits e) (k.Ends e) k k') : Moved k e k'
  /-- The pending signals of a task are written. -/
  | pending (t : ℕ) (w : UInt32) : Moved k e (k.setPending t w)
  /-- A task is made by the task that runs. Its message fields are clear, or they
  are those of a dead task. -/
  | born {k' : Procs} {t : ℕ} {userPd : Bool}
      (is_creation : ∃ a b, e = .taskCreate a b ∨ e = .taskFork a b)
      (is_born : Born k k' t userPd)
      (has_fields : (k'.pool t).ipcState = .idle
        ∨ (k.pool t).state = .dead ∧ (k'.pool t).ipcState = (k.pool t).ipcState) : Moved k e k'
  /-- The running task replaces its program. -/
  | execve (ok : Bool) (is_execve : e = .execve ok) : Moved k e (k.execve ok)
  /-- The running task sets a handler. -/
  | signal (signo : ℤ) (handler : UInt32) (is_signal : e = .signal signo handler) :
      Moved k e (k.sigSetHandler k.current signo handler).2
  /-- The kernel writes behind the handler table. -/
  | store (word : ℕ) (value : UInt32) (is_store : e = .store word value)
      (is_behind : sigTableMaxTasks * nsig ≤ word) :
      Moved k e { k with handlers := Function.update k.handlers word value }

theorem Moved.of_calm (h : Calm (k.Waits e) (k.Ends e) k k') : Moved k e k' := .turn h.turn

theorem Moved.refl (k : Procs) (e : Event) : Moved k e k := .of_calm (.refl k)

/-- The running task reaps its children and ends. -/
theorem calm_taskEnds (hr : k.Ring) (hcur : (k.pool k.current).state.Live) (status : ℤ) :
    Calm W (fun i => k.Awaiting i ∨ i = k.current) k
      ((k.reapChildren k.current).taskTerminate k.current status) := by
  have hreap : ∀ {W : ℕ → ℤ → Prop}, Calm W k.Awaiting k (k.reapChildren k.current) :=
    calm_reapChildren k.current k
  have hlive : ((k.reapChildren k.current).pool k.current).state.Live := by
    have hl := (hreap (W := NoWait)).live_iff (i := k.current) (fun hz => hcur.2 hz.1)
    exact (hl.2 ⟨hr.current_lt, hcur⟩).2
  exact (hreap.mono (fun _ _ => id) (fun _ => .inl)).trans
    ((calm_taskTerminate hlive status).mono (fun _ _ => id) (fun _ => .inr))

/-- A task is marked dead, and nothing else is done. -/
theorem calm_dies (ht : (k.pool t).state ≠ .blocked) :
    Calm W (fun i => i = t) k (k.upd t fun p => { p with state := .dead }) :=
  calm_ends ⟨rfl, fun _ => rfl, fun _ => .inr rfl, fun hr => (by cases hr), fun hn => absurd rfl hn,
    fun hn => absurd rfl hn, fun hr => .inl ⟨hr, rfl⟩, fun hp hr => absurd (hp hr) ht⟩
    (fun h => (by cases h))

/-- What the running task does. -/
theorem Ring.moved_act (hr : k.Ring) (hrun : (k.pool k.current).state = .running) (e : Event) :
    Moved k e (k.act e) := by
  have hcur := live_of_running hrun
  cases e with
  | taskCreate fds stack =>
    rcases taskCreate_cases hr hcur.1 fds stack with heq | ⟨t, hborn, hidle, -⟩
    · simp only [Procs.act, heq]
      exact .refl k _
    · exact .born ⟨fds, stack, .inl rfl⟩ hborn (.inl hidle)
  | taskFork clones stack =>
    rcases taskFork_cases hr hcur.1 clones stack with
      heq | ⟨t, hborn, ⟨hidle, -⟩ | ⟨-, hdead, -, hsame, -⟩⟩
    · simp only [Procs.act, heq]
      exact .refl k _
    · exact .born ⟨clones, stack, .inr rfl⟩ hborn (.inl hidle)
    · exact .born ⟨clones, stack, .inr rfl⟩ hborn (.inr ⟨hdead, hsame⟩)
  | execve ok => exact .execve ok rfl
  | taskExit status => exact .turn (hr.turn_then (calm_taskEnds hr hcur status))
  | sigreturn =>
    exact .turn (hr.turn_then (calm_dies (by rw [hrun]; decide)))
  | logout t =>
    simp only [Procs.act]
    split_ifs with h
    · exact .of_calm (calm_taskTerminate h.1.2 0)
    · exact .refl k _
  | wait4 want => exact .of_calm (calm_sysWait4 want k)
  | kill pid signo =>
    show Moved k _ (k.sigSendPid pid signo)
    unfold sigSendPid
    split
    · exact .refl k _
    · next t _ =>
      obtain ⟨w, hw⟩ := sigSend_eq t signo k
      exact hw.symm ▸ .pending t w
  | signal signo handler => exact .signal signo handler rfl
  | checkUser =>
    obtain ⟨w, hw⟩ := signalCheckUser_eq k.current k
    simp only [Procs.act, hw]
    exact .pending k.current w
  | ipcSend dst msg => exact .turn (hr.turn_afterCall (calm_ipcSend hcur dst msg))
  | ipcRecv src out =>
    have hwaits : k.Waits (.ipcRecv src out) k.current src := ⟨rfl, rfl⟩
    exact .turn (hr.turn_afterCall (calm_ipcRecv hcur hwaits out))
  | ipcSendrec dst msg =>
    have hwaits : k.Waits (.ipcSendrec dst msg) k.current dst := ⟨rfl, rfl⟩
    exact .turn (hr.turn_afterCall (calm_ipcSendrec hcur hwaits msg))
  | ipcNbrecv src out => exact .of_calm (calm_ipcNbrecv k.current src out k)
  | _ => exact .refl k _

/-- **What an event comes to**, in any state whose run list is a ring. -/
theorem Ring.moved (hr : k.Ring) (e : Event) : Moved k e (k.step e) := by
  refine step_rule (.refl k e) ?_ ?_ ?_ ?_ ?_ (fun _ hrun _ => hr.moved_act hrun e)
  · rintro rfl
    exact .turn hr.turn_schedule
  · rintro t rfl ht hready
    exact .turn ⟨k, .refl k, .inr ⟨t, ht, hready, rfl⟩⟩
  · rintro t rfl -
    obtain ⟨w, hw⟩ := sigSend_eq t sigint k
    exact hw.symm ▸ .pending t w
  · rintro word value rfl hword
    exact .store word value rfl hword
  · rintro rfl - hrun -
    have hlive := live_of_running hrun
    have hwaits : ∀ dst, (k.pool k.current).call = .sendrec dst → (k.pool k.current).ipcRc = 0 →
        k.Waits .resume k.current dst := fun dst hcall hrc => ⟨rfl, hcall, hrc⟩
    exact .turn (hr.turn_afterCall (calm_resume hlive hwaits))

/-! ## Events that leave the tasks alone -/

/-- The fields of a slot that signals and a new program leave alone. -/
def Proc.face (p : Proc) : ProcState × IpcState × ℤ × ℕ × ℕ :=
  (p.state, p.ipcState, p.ipcPartner, p.pid, p.parentPid)

/-- **Nothing happens to the tasks**, as far as their faces show. -/
structure Same (k k' : Procs) : Prop where
  /-- The pool has the same size. -/
  count : k'.count = k.count
  /-- The same task runs. -/
  current : k'.current = k.current
  /-- No pid is handed out. -/
  nextPid : k'.nextPid = k.nextPid
  /-- The slots show the same face. -/
  face : ∀ i, Proc.face (k'.pool i) = Proc.face (k.pool i)

theorem Same.state (h : Same k k') (i : ℕ) : (k'.pool i).state = (k.pool i).state :=
  congrArg Prod.fst (h.face i)

theorem Same.ipcState (h : Same k k') (i : ℕ) : (k'.pool i).ipcState = (k.pool i).ipcState :=
  congrArg (fun f => f.2.1) (h.face i)

theorem Same.ipcPartner (h : Same k k') (i : ℕ) :
    (k'.pool i).ipcPartner = (k.pool i).ipcPartner :=
  congrArg (fun f => f.2.2.1) (h.face i)

theorem Same.pid (h : Same k k') (i : ℕ) : (k'.pool i).pid = (k.pool i).pid :=
  congrArg (fun f => f.2.2.2.1) (h.face i)

theorem Same.parentPid (h : Same k k') (i : ℕ) : (k'.pool i).parentPid = (k.pool i).parentPid :=
  congrArg (fun f => f.2.2.2.2) (h.face i)

/-- A task is as alive as it was. -/
theorem Same.live_iff (h : Same k k') : k'.Live i ↔ k.Live i := by
  unfold Live
  rw [h.count, h.state]

/-- What a new program changes in the slots. -/
theorem execve_pool (ok : Bool) (k : Procs) (i : ℕ) : ∃ u w m,
    (k.execve ok).pool i = { k.pool i with userPd := u, sigPending := w, sigMask := m } := by
  have hs : ∃ w m,
      (k.sigTaskInit k.current).pool i = { k.pool i with sigPending := w, sigMask := m } := by
    rw [sigTaskInit_pool]
    split_ifs with hi
    · rw [hi]
      exact ⟨0, 0, rfl⟩
    · exact ⟨(k.pool i).sigPending, (k.pool i).sigMask, rfl⟩
  obtain ⟨w, m, h⟩ := hs
  simp only [Procs.execve]
  split_ifs
  · rw [upd_pool]
    split_ifs with hi
    · rw [← hi, h]
      exact ⟨true, w, m, rfl⟩
    · exact ⟨(k.pool i).userPd, w, m, h⟩
  · exact ⟨(k.pool i).userPd, w, m, h⟩

theorem same_setPending (t : ℕ) (w : UInt32) (k : Procs) : Same k (k.setPending t w) :=
  ⟨rfl, rfl, rfl, fun i => upd_field Proc.face (by intro p; rfl) k t i⟩

theorem same_execve (ok : Bool) (k : Procs) : Same k (k.execve ok) := by
  have hs := kept_sigTaskInit k.current k
  have hrest : (k.execve ok).count = k.count ∧ (k.execve ok).current = k.current
      ∧ (k.execve ok).nextPid = k.nextPid := by
    simp only [Procs.execve]
    split_ifs <;> exact ⟨hs.count, hs.current, hs.nextPid⟩
  refine ⟨hrest.1, hrest.2.1, hrest.2.2, fun i => ?_⟩
  obtain ⟨u, w, m, h⟩ := execve_pool ok k i
  rw [h]
  rfl

theorem same_sigSetHandler (t : ℕ) (signo : ℤ) (handler : UInt32) (k : Procs) :
    Same k (k.sigSetHandler t signo handler).2 := by
  unfold sigSetHandler
  split_ifs
  · exact ⟨rfl, rfl, rfl, fun _ => rfl⟩
  · exact ⟨rfl, rfl, rfl, fun _ => rfl⟩
  · split <;> exact ⟨rfl, rfl, rfl, fun _ => rfl⟩

/-- **An event is a turn, a creation, or leaves the tasks alone.** -/
theorem Moved.cases (h : Moved k e k') :
    Turn (k.Waits e) (k.Ends e) k k'
      ∨ (∃ t userPd, Born k k' t userPd ∧ ((k'.pool t).ipcState = .idle
        ∨ (k.pool t).state = .dead ∧ (k'.pool t).ipcState = (k.pool t).ipcState))
      ∨ Same k k' := by
  cases h with
  | turn h => exact .inl h
  | born _ h hipc => exact .inr (.inl ⟨_, _, h, hipc⟩)
  | pending t w =>
    exact .inr (.inr (same_setPending t w k))
  | execve ok _ => exact .inr (.inr (same_execve ok k))
  | signal signo handler _ => exact .inr (.inr (same_sigSetHandler ..))
  | store word value _ _ => exact .inr (.inr ⟨rfl, rfl, rfl, fun _ => rfl⟩)

section

variable (h : Born k k' t userPd)
include h

theorem Born.face (hi : i ≠ t) : Proc.face (k'.pool i) = Proc.face (k.pool i) := by
  obtain ⟨n, hn⟩ := h.other i hi
  rw [hn]
  rfl

theorem Born.state_of_ne (hi : i ≠ t) :
    (k'.pool i).state = (k.pool i).state := congrArg Prod.fst (h.face hi)

theorem Born.pid_of_ne (hi : i ≠ t) :
    (k'.pool i).pid = (k.pool i).pid := congrArg (fun f => f.2.2.2.1) (h.face hi)

theorem Born.parentPid_of_ne (hi : i ≠ t) :
    (k'.pool i).parentPid = (k.pool i).parentPid := congrArg (fun f => f.2.2.2.2) (h.face hi)

/-- The slot that is taken had no live task. -/
theorem Born.not_live : ¬ k.Live t := by
  intro hl
  cases h.slot with
  | again _ _ _ hdead _ => exact hl.2.1 hdead
  | grown hnext _ _ _ => exact absurd hl.1 (by omega)

/-- The tasks that were alive are. -/
theorem Born.live (hl : k.Live i) : k'.Live i := by
  have hi : i ≠ t := fun he => h.not_live (he ▸ hl)
  refine ⟨h.slot.lt_iff.2 (.inl hl.1), ?_⟩
  rw [h.state_of_ne hi]
  exact hl.2

end

/-! ## The switch -/

theorem switchTo_pid (t : ℕ) (k : Procs) (i : ℕ) :
    ((k.switchTo t).pool i).pid = (k.pool i).pid := by
  rw [switchTo_pool]

theorem switchTo_parentPid (t : ℕ) (k : Procs) (i : ℕ) :
    ((k.switchTo t).pool i).parentPid = (k.pool i).parentPid := by
  rw [switchTo_pool]

theorem switchTo_state (t : ℕ) (k : Procs) (i : ℕ) : ((k.switchTo t).pool i).state
    = if i = t then .running
      else if i = k.current ∧ (k.pool i).state = .running then .ready else (k.pool i).state := by
  rw [switchTo_pool]

theorem switchTo_rest (t : ℕ) (k : Procs) :
    (k.switchTo t).nextPid = k.nextPid ∧ (k.switchTo t).handlers = k.handlers := by
  simp only [switchTo]
  split_ifs <;> exact ⟨rfl, rfl⟩

/-- A switch to a task that was ready ends and blocks nobody. -/
theorem switchTo_idle_iff {s : ProcState} (hs : s ≠ .running ∧ s ≠ .ready)
    (ht : (k.pool t).state = .ready) : ((k.switchTo t).pool i).state = s ↔ (k.pool i).state = s := by
  rw [switchTo_state]
  split_ifs with hi hc
  · rw [hi, ht]
    exact iff_of_false hs.1.symm hs.2.symm
  · rw [hc.2]
    exact iff_of_false hs.2.symm hs.1.symm
  · exact Iff.rfl

theorem switchTo_live_iff (ht : (k.pool t).state = .ready) :
    (k.switchTo t).Live i ↔ k.Live i := by
  unfold Live
  rw [switchTo_count, ne_eq, ne_eq, switchTo_idle_iff (by decide) ht,
    switchTo_idle_iff (by decide) ht]

section

variable (h : Turn W E k k')
include h

/-- What a turn does not end is alive after it. -/
theorem Turn.live (hi : ¬ E i) (hl : k.Live i) : k'.Live i := by
  obtain ⟨k₁, hk₁, rfl | ⟨t, -, hready, rfl⟩⟩ := h
  · exact (hk₁.live_iff hi).2 hl
  · exact (switchTo_live_iff hready).2 ((hk₁.live_iff hi).2 hl)

/-- A zombie after a turn was one before, or had a parent then. -/
theorem Turn.heir (hz : (k'.pool i).state = .zombie) :
    (k.pool i).state = .zombie ∨ k.HasParent i := by
  obtain ⟨k₁, hk₁, rfl | ⟨t, -, hready, rfl⟩⟩ := h
  · exact hk₁.heir i hz
  · exact hk₁.heir i ((switchTo_idle_iff (by decide) hready).1 hz)

/-- A dead task stays dead. -/
theorem Turn.dead (hd : (k.pool i).state = .dead) : (k'.pool i).state = .dead := by
  obtain ⟨k₁, hk₁, rfl | ⟨t, -, hready, rfl⟩⟩ := h
  · exact (hk₁.slot i).dead hd
  · exact (switchTo_idle_iff (by decide) hready).2 ((hk₁.slot i).dead hd)

theorem Turn.count : k'.count = k.count := by
  obtain ⟨k₁, hk₁, rfl | ⟨t, -, -, rfl⟩⟩ := h
  · exact hk₁.count
  · rw [switchTo_count, hk₁.count]

theorem Turn.pid (i : ℕ) : (k'.pool i).pid = (k.pool i).pid := by
  obtain ⟨k₁, hk₁, rfl | ⟨t, -, -, rfl⟩⟩ := h
  · exact hk₁.kept.pid i
  · rw [switchTo_pid, hk₁.kept.pid]

theorem Turn.parentPid (i : ℕ) : (k'.pool i).parentPid = (k.pool i).parentPid := by
  obtain ⟨k₁, hk₁, rfl | ⟨t, -, -, rfl⟩⟩ := h
  · exact hk₁.kept.parentPid i
  · rw [switchTo_parentPid, hk₁.kept.parentPid]

theorem Turn.nextPid : k'.nextPid = k.nextPid := by
  obtain ⟨k₁, hk₁, rfl | ⟨t, -, -, rfl⟩⟩ := h
  · exact hk₁.nextPid
  · exact (switchTo_rest t k₁).1.trans hk₁.nextPid

theorem Turn.handlers : k'.handlers = k.handlers := by
  obtain ⟨k₁, hk₁, rfl | ⟨t, -, -, rfl⟩⟩ := h
  · exact hk₁.handlers
  · exact (switchTo_rest t k₁).2.trans hk₁.handlers

end

/-! ## Pids -/

/-- **The pids**: they are positive and below the next one, and no two slots have
the same. -/
structure Pids (k : Procs) : Prop where
  /-- Positive and handed out. -/
  range : ∀ i, i < k.count → 0 < (k.pool i).pid ∧ (k.pool i).pid < k.nextPid
  /-- No two slots have the same. -/
  apart : ∀ i j, i < k.count → j < k.count → (k.pool i).pid = (k.pool j).pid → i = j

theorem Pids.congr (h : Pids k) (hcount : k'.count = k.count) (hnext : k'.nextPid = k.nextPid)
    (hpid : ∀ i, (k'.pool i).pid = (k.pool i).pid) : Pids k' := by
  refine ⟨fun i hi => ?_, fun i j hi hj heq => ?_⟩
  · rw [hpid, hnext]
    exact h.range i (hcount ▸ hi)
  · rw [hpid, hpid] at heq
    exact h.apart i j (hcount ▸ hi) (hcount ▸ hj) heq

/-- A new task has the next pid, which nobody has. -/
theorem Pids.born (h : Pids k) (hb : Born k k' t userPd) (hpos : 0 < k.nextPid) : Pids k' := by
  have hold : ∀ i, i < k'.count → i ≠ t →
      0 < (k'.pool i).pid ∧ (k'.pool i).pid < k.nextPid ∧ i < k.count := by
    intro i hi hne
    have hlt := (hb.slot.lt_iff.1 hi).resolve_right hne
    rw [hb.pid_of_ne hne]
    exact ⟨(h.range i hlt).1, (h.range i hlt).2, hlt⟩
  refine ⟨fun i hi => ?_, fun i j hi hj heq => ?_⟩
  · rw [hb.nextPid]
    by_cases hit : i = t
    · rw [hit, hb.pid]
      omega
    · have := hold i hi hit
      omega
  · by_cases hit : i = t <;> by_cases hjt : j = t
    · rw [hit, hjt]
    · have := hold j hj hjt
      rw [hit, hb.pid] at heq
      omega
    · have := hold i hi hit
      rw [hjt, hb.pid] at heq
      omega
    · have hi' := hold i hi hit
      have hj' := hold j hj hjt
      rw [hb.pid_of_ne hit, hb.pid_of_ne hjt] at heq
      exact h.apart i j hi'.2.2 hj'.2.2 heq

/-- Every event keeps the pids apart. -/
theorem Pids.moved (h : Pids k) (hm : Moved k e k') (hr : k.Ring) : Pids k' := by
  rcases hm.cases with hturn | ⟨t, userPd, hborn, -⟩ | hsame
  · exact h.congr hturn.count hturn.nextPid hturn.pid
  · have := h.range k.current hr.current_lt
    exact h.born hborn (by omega)
  · exact h.congr hsame.count hsame.nextPid hsame.pid

theorem pids_taskingInit : Pids taskingInit := by
  refine ⟨fun i hi => ?_, fun i j hi hj _ => ?_⟩
  · have hi : i < 1 := hi
    obtain rfl : i = 0 := by omega
    exact ⟨Nat.one_pos, Nat.lt_succ_self 1⟩
  · have hi : i < 1 := hi
    have hj : j < 1 := hj
    omega

end Procs

end Makar
