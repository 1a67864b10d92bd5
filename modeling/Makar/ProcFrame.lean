import Makar.Proc

/-!
# What the operations on processes leave alone

Most operations touch a few fields of a few slots. `Calm` says once and for
all what the operations leave alone that neither create a task nor switch to
one: messages, signals and the end of a task never change the size of the
pool, the run list, or what a task was born with, a task that has ended stays
ended, and no task starts to run. Its two parameters are the tasks that may
come to wait for a sender and the tasks that may end.

The scheduler delivers signals on its way, and a signal may end a task.
`sigDeliver_cases` says what a delivery comes to, and `step_rule` what a step
can be.
-/

namespace Makar

open Function List

/-- The state is not that of a task that has ended. -/
def ProcState.Live (s : ProcState) : Prop := s ≠ .dead ∧ s ≠ .zombie

theorem live_of_running {s : ProcState} (h : s = .running) : s.Live := h ▸ ⟨by decide, by decide⟩

namespace Procs

variable {k k' k'' : Procs} {i j t : ℕ} {f : Proc → Proc}

/-! ## Slots -/

@[simp] theorem upd_pool_self (i : ℕ) (f : Proc → Proc) (k : Procs) :
    (k.upd i f).pool i = f (k.pool i) := update_self ..

@[simp] theorem upd_pool_of_ne (h : j ≠ i) (f : Proc → Proc) (k : Procs) :
    (k.upd i f).pool j = k.pool j := update_of_ne h ..

theorem upd_pool (i : ℕ) (f : Proc → Proc) (k : Procs) (j : ℕ) :
    (k.upd i f).pool j = if j = i then f (k.pool i) else k.pool j := update_apply ..

@[simp] theorem upd_count (i : ℕ) (f : Proc → Proc) (k : Procs) : (k.upd i f).count = k.count := rfl

@[simp] theorem upd_current (i : ℕ) (f : Proc → Proc) (k : Procs) :
    (k.upd i f).current = k.current := rfl

theorem upd_upd (i : ℕ) (f g : Proc → Proc) (k : Procs) :
    (k.upd i f).upd i g = k.upd i fun p => g (f p) := by
  simp [upd]

/-- A field that the change leaves alone is the same in every slot. -/
theorem upd_field {β : Type*} (g : Proc → β) (h : ∀ p, g (f p) = g p) (k : Procs) (i j : ℕ) :
    g ((k.upd i f).pool j) = g (k.pool j) := by
  rw [upd_pool]
  split_ifs with hj
  · rw [h, hj]
  · rfl

/-- The task of a pid. -/
theorem taskByPid_eq_some {pid : ℤ} (h : k.taskByPid pid = some t) :
    t < k.count ∧ ((k.pool t).pid : ℤ) = pid ∧ (k.pool t).state ≠ .dead := by
  have hp := find?_some h
  have hm := mem_of_find?_eq_some h
  rw [decide_eq_true_eq] at hp
  exact ⟨mem_range.1 hm, hp⟩

@[simp] theorem slotOf_eq (t : ℕ) (k : Procs) :
    k.slotOf t = if t < k.count then some t else none := by
  unfold slotOf
  split_ifs with h
  · cases hf : (range k.count).find? (fun i => i = t) with
    | none => simpa using find?_eq_none.1 hf t (mem_range.2 h)
    | some j => simpa using find?_some hf
  · refine find?_eq_none.2 (fun j hj => ?_)
    have := mem_range.1 hj
    simp only [decide_eq_true_eq]
    omega

/-- **What a claim of a slot does**: nothing, or it takes the first dead slot off
the run list, or it adds a slot to the pool. -/
theorem claimSlot_cases (stack : Bool) (k : Procs) :
    k.claimSlot stack = (none, k)
      ∨ (∃ t, k.claimSlot stack = (some t, k.unlinkTask t) ∧ t < k.count
        ∧ (k.pool t).state = .dead ∧ k.deadSlot = some t)
      ∨ k.claimSlot stack
          = (some k.count, ({ k with count := k.count + 1 }).upd k.count fun _ => Proc.zero)
        ∧ k.deadSlot = none ∧ k.count < maxTasks := by
  unfold claimSlot
  cases hdead : k.deadSlot with
  | some t =>
    have ht := find?_some hdead
    rw [decide_eq_true_eq] at ht
    have hlt := mem_range.1 (mem_of_find?_eq_some hdead)
    exact .inr (.inl ⟨t, rfl, hlt, ht.2, rfl⟩)
  | none =>
    dsimp only
    split_ifs with hfull hstack
    · exact .inl rfl
    · exact .inl rfl
    · exact .inr (.inr ⟨rfl, rfl, by omega⟩)

/-- **What a switch does to a slot**: it writes the states of the two tasks. -/
theorem switchTo_pool (t : ℕ) (k : Procs) (i : ℕ) :
    (k.switchTo t).pool i
      = { k.pool i with
          state := if i = t then .running
            else if i = k.current ∧ (k.pool i).state = .running then .ready
            else (k.pool i).state } := by
  simp only [switchTo, upd_pool]
  by_cases hrun : (k.pool k.current).state = .running
  · rw [if_pos hrun]
    by_cases hit : i = t
    · subst hit
      simp only [if_true]
      rw [upd_pool]
      split_ifs with hc
      · rw [hc]
      · rfl
    · rw [if_neg hit, if_neg hit, upd_pool]
      split_ifs with hc hc' hc'
      · rw [hc]
      · exact absurd ⟨hc, hc ▸ hrun⟩ hc'
      · exact absurd hc'.1 hc
      · rfl
  · rw [if_neg hrun]
    by_cases hit : i = t
    · subst hit
      rw [if_pos rfl, if_pos rfl]
    · have hc : ¬ (i = k.current ∧ (k.pool i).state = .running) := fun h => hrun (h.1 ▸ h.2)
      rw [if_neg hit, if_neg hit, if_neg hc]

@[simp] theorem switchTo_count (t : ℕ) (k : Procs) : (k.switchTo t).count = k.count := by
  simp only [switchTo]
  split_ifs <;> rfl

@[simp] theorem switchTo_current (t : ℕ) (k : Procs) : (k.switchTo t).current = t := rfl

/-! ## What messages, signals and ends leave alone -/

/-- What no message, signal or end of a task changes in a slot. -/
def Proc.born (p : Proc) : Option ℕ × ℕ × ℕ × Bool × Bool :=
  (p.next, p.pid, p.parentPid, p.userPd, p.unkillable)

/-- **The pool, the run list and what tasks are born with stay.** -/
structure Kept (k k' : Procs) : Prop where
  /-- The pool has the same size. -/
  count : k'.count = k.count
  /-- The same task runs. -/
  current : k'.current = k.current
  /-- No pid is handed out. -/
  nextPid : k'.nextPid = k.nextPid
  /-- Each slot keeps its link and what it was born with. -/
  born : ∀ i, Proc.born (k'.pool i) = Proc.born (k.pool i)

theorem Kept.refl (k : Procs) : Kept k k := ⟨rfl, rfl, rfl, fun _ => rfl⟩

theorem Kept.trans (h : Kept k k') (h' : Kept k' k'') : Kept k k'' :=
  ⟨h'.count.trans h.count, h'.current.trans h.current, h'.nextPid.trans h.nextPid,
    fun i => (h'.born i).trans (h.born i)⟩

theorem Kept.next (h : Kept k k') : k'.next = k.next :=
  funext fun i => congrArg Prod.fst (h.born i)

theorem Kept.pid (h : Kept k k') (i : ℕ) : (k'.pool i).pid = (k.pool i).pid :=
  congrArg (fun b => b.2.1) (h.born i)

theorem Kept.parentPid (h : Kept k k') (i : ℕ) : (k'.pool i).parentPid = (k.pool i).parentPid :=
  congrArg (fun b => b.2.2.1) (h.born i)

/-- A change of a slot that leaves its birth alone. -/
theorem kept_upd (h : ∀ p, Proc.born (f p) = Proc.born p) (i : ℕ) (k : Procs) :
    Kept k (k.upd i f) :=
  ⟨rfl, rfl, rfl, fun j => upd_field Proc.born h k i j⟩

theorem kept_ipcTaskInit (t : ℕ) (k : Procs) : Kept k (k.ipcTaskInit t) :=
  kept_upd (by intro p; rfl) t k

theorem kept_sigTaskInit (t : ℕ) (k : Procs) : Kept k (k.sigTaskInit t) := by
  have hs : Kept k (k.upd t fun p => { p with sigPending := 0, sigMask := 0 }) :=
    kept_upd (by intro p; rfl) t k
  simp only [sigTaskInit]
  split
  · exact hs
  · exact ⟨rfl, rfl, rfl, hs.born⟩

theorem kept_sigSetHandler (t : ℕ) (signo : ℤ) (handler : UInt32) (k : Procs) :
    Kept k (k.sigSetHandler t signo handler).2 := by
  unfold sigSetHandler
  split_ifs
  · exact Kept.refl k
  · exact Kept.refl k
  · split
    · exact Kept.refl k
    · exact ⟨rfl, rfl, rfl, fun _ => rfl⟩

/-- **What may happen to a slot.** It keeps what it was born with; a task that has
ended stays ended and none starts to run; signals come and the task ends only if
`ends` allows for it; and it comes to wait for a sender only if `waits` does. -/
structure Proc.Calm (waits : ℤ → Prop) (ends : Prop) (p p' : Proc) : Prop where
  /-- What it was born with stays. -/
  born : Proc.born p' = Proc.born p
  /-- A dead task stays dead. -/
  dead : p.state = .dead → p'.state = .dead
  /-- A zombie stays one or is reaped. -/
  zombie : p.state = .zombie → p'.state = .zombie ∨ p'.state = .dead
  /-- A task that runs ran before. -/
  running : p'.state = .running → p.state = .running
  /-- Its signals stay. -/
  due : ¬ ends → p'.sigPending = p.sigPending ∧ p'.sigMask = p.sigMask
  /-- It does not end. -/
  fate : ¬ ends → (p'.state = .dead → p.state = .dead) ∧ (p'.state = .zombie → p.state = .zombie)
  /-- It does not start to wait for a sender. -/
  recving : p'.ipcState = .recving →
    p.ipcState = .recving ∧ p'.ipcPartner = p.ipcPartner ∨ waits p'.ipcPartner
  /-- A task that waits for a sender is blocked. -/
  parked : (p.ipcState = .recving → p.state = .blocked) →
    p'.ipcState = .recving → p'.state = .blocked

section Slot

variable {p p' p'' : Proc} {waits waits' : ℤ → Prop} {ends ends' : Prop}

theorem Proc.Calm.trans (h : Proc.Calm waits ends p p') (h' : Proc.Calm waits ends p' p'') :
    Proc.Calm waits ends p p'' where
  born := h'.born.trans h.born
  dead hd := h'.dead (h.dead hd)
  zombie hz := (h.zombie hz).elim h'.zombie (fun hd => .inr (h'.dead hd))
  running hr := h.running (h'.running hr)
  due he := ⟨(h'.due he).1.trans (h.due he).1, (h'.due he).2.trans (h.due he).2⟩
  fate he := ⟨fun hd => (h.fate he).1 ((h'.fate he).1 hd), fun hz => (h.fate he).2 ((h'.fate he).2 hz)⟩
  recving hr := by
    rcases h'.recving hr with ⟨hr', hp⟩ | hw
    · rw [hp]
      exact h.recving hr'
    · exact .inr hw
  parked hp := h'.parked (h.parked hp)

theorem Proc.Calm.mono (h : Proc.Calm waits ends p p') (hw : ∀ n, waits n → waits' n)
    (he : ends → ends') : Proc.Calm waits' ends' p p' :=
  ⟨h.born, h.dead, h.zombie, h.running, fun hn => h.due (fun h => hn (he h)),
    fun hn => h.fate (fun h => hn (he h)), fun hr => (h.recving hr).imp_right (hw _), h.parked⟩

/-- A change that touches neither the state nor the signals, nor makes the task
wait for a sender. -/
theorem Proc.calm_of_state (hborn : Proc.born p' = Proc.born p) (hstate : p'.state = p.state)
    (hsig : p'.sigPending = p.sigPending ∧ p'.sigMask = p.sigMask)
    (hipc : p'.ipcState = .recving → p.ipcState = .recving ∧ p'.ipcPartner = p.ipcPartner) :
    Proc.Calm waits ends p p' := by
  refine ⟨hborn, ?_, ?_, ?_, fun _ => hsig, ?_, fun hr => .inl (hipc hr), ?_⟩ <;> rw [hstate]
  · exact id
  · exact Or.inl
  · exact id
  · exact fun _ => ⟨id, id⟩
  · exact fun hp hr => hp (hipc hr).1

theorem Proc.Calm.refl (p : Proc) : Proc.Calm waits ends p p :=
  Proc.calm_of_state rfl rfl ⟨rfl, rfl⟩ (fun h => ⟨h, rfl⟩)

/-- A task that does not wait for a sender may be woken. -/
theorem Proc.calm_wake (q : Proc) (hborn : Proc.born q = Proc.born p) (hstate : q.state = p.state)
    (hsig : q.sigPending = p.sigPending ∧ q.sigMask = p.sigMask) (hipc : q.ipcState ≠ .recving) :
    Proc.Calm waits ends p q.wake := by
  have hq : Proc.Calm waits ends p q :=
    Proc.calm_of_state hborn hstate hsig (fun h => absurd h hipc)
  have hwoken : q.wake.state = q.state ∨ q.state = .blocked ∧ q.wake.state = .ready := by
    unfold Proc.wake
    dsimp only
    split_ifs with hb
    · exact .inr ⟨hb, rfl⟩
    · exact .inl rfl
  rcases hwoken with hs | ⟨hb, hs⟩
  · exact hq.trans (Proc.calm_of_state rfl hs ⟨rfl, rfl⟩ (fun h => ⟨h, rfl⟩))
  · refine hq.trans ⟨rfl, ?_, ?_, ?_, fun _ => ⟨rfl, rfl⟩, ?_, fun hr => .inl ⟨hr, rfl⟩,
      fun _ hr => absurd hr hipc⟩ <;> rw [hs, hb]
    · exact fun h => (by cases h)
    · exact fun h => (by cases h)
    · exact fun h => (by cases h)
    · exact fun _ => ⟨fun h => (by cases h), fun h => (by cases h)⟩

/-- A task that has not ended may block. -/
theorem Proc.calm_block (hp : p.state.Live) (call : IpcCall) :
    Proc.Calm waits ends p { p with state := .blocked, call := call } :=
  ⟨rfl, fun h => absurd h hp.1, fun h => absurd h hp.2, fun h => (by cases h), fun _ => ⟨rfl, rfl⟩,
    fun _ => ⟨fun h => (by cases h), fun h => (by cases h)⟩, fun hr => .inl ⟨hr, rfl⟩,
    fun _ _ => rfl⟩

end Slot

/-- Nobody starts to wait for a sender. -/
abbrev NoWait : ℕ → ℤ → Prop := fun _ _ => False

/-- Nobody ends. -/
abbrev NoEnd : ℕ → Prop := fun _ => False

/-- The task has a parent that is not dead, so that it may leave a zombie. -/
def HasParent (k : Procs) (i : ℕ) : Prop :=
  0 < (k.pool i).parentPid
    ∧ ∃ p, p < k.count ∧ (k.pool p).state ≠ .dead ∧ (k.pool p).pid = (k.pool i).parentPid

/-- **What messages, signals and ends of tasks leave alone.** -/
structure Calm (W : ℕ → ℤ → Prop) (E : ℕ → Prop) (k k' : Procs) : Prop where
  /-- The pool has the same size. -/
  count : k'.count = k.count
  /-- The same task runs. -/
  current : k'.current = k.current
  /-- No pid is handed out. -/
  nextPid : k'.nextPid = k.nextPid
  /-- The handlers are the same. -/
  handlers : k'.handlers = k.handlers
  /-- What may happen to each slot. -/
  slot : ∀ i, Proc.Calm (W i) (E i) (k.pool i) (k'.pool i)
  /-- A task that leaves a zombie has a parent. -/
  heir : ∀ i, (k'.pool i).state = .zombie → (k.pool i).state = .zombie ∨ k.HasParent i

variable {W W' : ℕ → ℤ → Prop} {E E' : ℕ → Prop}

theorem Calm.kept (h : Calm W E k k') : Kept k k' :=
  ⟨h.count, h.current, h.nextPid, fun i => (h.slot i).born⟩

theorem Calm.refl (k : Procs) : Calm W E k k :=
  ⟨rfl, rfl, rfl, rfl, fun _ => .refl _, fun _ => .inl⟩

section

variable (h : Calm W E k k')
include h

/-- A parent that is not dead was not. -/
theorem Calm.hasParent (hp : k'.HasParent i) : k.HasParent i := by
  obtain ⟨hpos, p, hlt, hdead, hpid⟩ := hp
  rw [h.kept.parentPid] at hpos hpid
  rw [h.kept.pid] at hpid
  exact ⟨hpos, p, h.count ▸ hlt, fun hd => hdead ((h.slot p).dead hd), hpid⟩

theorem Calm.trans (h' : Calm W E k' k'') : Calm W E k k'' :=
  ⟨h'.count.trans h.count, h'.current.trans h.current, h'.nextPid.trans h.nextPid,
    h'.handlers.trans h.handlers, fun i => (h.slot i).trans (h'.slot i),
    fun i hz => (h'.heir i hz).elim (h.heir i) (fun hp => .inr (h.hasParent hp))⟩

theorem Calm.mono (hW : ∀ i n, W i n → W' i n) (hE : ∀ i, E i → E' i) : Calm W' E' k k' :=
  ⟨h.count, h.current, h.nextPid, h.handlers, fun i => (h.slot i).mono (hW i) (hE i), h.heir⟩

/-- Where nobody ends a task is as alive as it was. -/
theorem Calm.live_iff (hi : ¬ E i) : k'.Live i ↔ k.Live i := by
  have hs := h.slot i
  unfold Live
  rw [h.count]
  refine and_congr_right fun _ => ⟨fun hl => ⟨fun hd => hl.1 (hs.dead hd), fun hz => ?_⟩,
    fun hl => ⟨fun hd => hl.1 ((hs.fate hi).1 hd), fun hz => hl.2 ((hs.fate hi).2 hz)⟩⟩
  exact (hs.zombie hz).elim hl.2 hl.1

theorem Calm.deliverable (hi : ¬ E i) : k'.deliverable i = k.deliverable i := by
  unfold Procs.deliverable
  rw [((h.slot i).due hi).1, ((h.slot i).due hi).2]

end

/-- A change of a slot that may end its task. -/
theorem calm_ends (h : Proc.Calm (W i) (E i) (k.pool i) (f (k.pool i)))
    (hz : (f (k.pool i)).state = .zombie → (k.pool i).state = .zombie ∨ k.HasParent i) :
    Calm W E k (k.upd i f) := by
  refine ⟨rfl, rfl, rfl, rfl, fun j => ?_, fun j => ?_⟩ <;> rw [upd_pool] <;> split_ifs with hj
  · rw [hj]
    exact h
  · exact .refl _
  · rw [hj]
    exact hz
  · exact .inl

/-- A change of a slot. -/
theorem calm_upd (h : Proc.Calm (W i) False (k.pool i) (f (k.pool i))) : Calm W E k (k.upd i f) :=
  calm_ends (h.mono (fun _ => id) False.elim) (fun hz => .inl ((h.fate id).2 hz))

theorem calm_hung (b : Bool) (k : Procs) : Calm W E k { k with hung := b } :=
  ⟨rfl, rfl, rfl, rfl, fun _ => .refl _, fun _ => .inl⟩

/-! ### Messages -/

theorem calm_wakeSenders (n : ℕ) (p : Option ℕ) (k : Procs) : Calm W E k (wakeSenders n p k) := by
  induction n generalizing p k with
  | zero =>
    cases p with
    | none => exact .refl k
    | some s => exact calm_hung true k
  | succ n ih =>
    cases p with
    | none => exact .refl k
    | some s =>
      refine Calm.trans (calm_upd (i := s) (f := Proc.refused) ?_) (ih _ _)
      exact Proc.calm_wake _ rfl rfl ⟨rfl, rfl⟩ (by simp)

theorem calm_unqueue (d : ℕ) (prev : Option ℕ) (s : ℕ) (k : Procs) :
    Calm W E k (k.unqueue d prev s) := by
  unfold unqueue
  split <;> exact calm_upd (Proc.calm_of_state rfl rfl ⟨rfl, rfl⟩ (fun h => ⟨h, rfl⟩))

theorem calm_leaveQueue (t : ℕ) (k : Procs) : Calm W E k (k.leaveQueue t) := by
  unfold leaveQueue
  split
  · exact .refl k
  · split
    · exact calm_hung true k
    · exact .refl k
    · exact calm_unqueue ..

theorem calm_ipcTaskCleanup (t : ℕ) (k : Procs) : Calm W E k (k.ipcTaskCleanup t) := by
  simp only [ipcTaskCleanup]
  refine Calm.trans ?_ (calm_upd (Proc.calm_of_state rfl rfl ⟨rfl, rfl⟩ (fun h => (by cases h))))
  have hwoken : Calm W E k ((wakeSenders k.count (k.pool t).ipcSenderQ k).upd t fun p =>
      { p with ipcSenderQ := none }) :=
    (calm_wakeSenders _ _ k).trans
      (calm_upd (Proc.calm_of_state rfl rfl ⟨rfl, rfl⟩ (fun h => ⟨h, rfl⟩)))
  split_ifs
  · exact hwoken.trans (calm_leaveQueue t _)
  · exact hwoken

theorem calm_appendSender (t d : ℕ) (k : Procs) : Calm W E k (k.appendSender t d) := by
  unfold appendSender
  split
  · exact calm_upd (Proc.calm_of_state rfl rfl ⟨rfl, rfl⟩ (fun h => ⟨h, rfl⟩))
  · split
    · exact calm_hung true k
    · exact calm_upd (Proc.calm_of_state rfl rfl ⟨rfl, rfl⟩ (fun h => ⟨h, rfl⟩))

theorem calm_enqueue (t d : ℕ) (dst : ℤ) (k : Procs) : Calm W E k (k.enqueue t d dst) :=
  Calm.trans (calm_upd (Proc.calm_of_state rfl rfl ⟨rfl, rfl⟩ (fun h => (by cases h))))
    (calm_appendSender t d _)

theorem calm_deliver (t d : ℕ) (k : Procs) : Calm W E k (k.deliver t d) := by
  unfold deliver
  exact calm_upd (Proc.calm_wake _ rfl rfl ⟨rfl, rfl⟩ (by simp))

theorem calm_ipcBlock (ht : (k.pool t).state.Live) (call : IpcCall) :
    Calm W E k (k.ipcBlock t call) := calm_upd (Proc.calm_block ht call)

/-- Where nobody ends a task that is there stays. -/
theorem Calm.state_live (h : Calm W NoEnd k k') (ht : (k.pool t).state.Live) :
    (k'.pool t).state.Live :=
  ⟨fun hd => ht.1 (((h.slot t).fate id).1 hd), fun hz => ht.2 (((h.slot t).fate id).2 hz)⟩

theorem calm_rendezvous (ht : (k.pool t).state.Live) (dst : ℤ) :
    Calm W E k (k.rendezvous t dst).2 := by
  unfold rendezvous
  split
  · exact .refl k
  · split_ifs
    · exact .refl k
    · exact calm_deliver ..
    · refine Calm.trans (calm_enqueue ..) (calm_ipcBlock ?_ _)
      exact Calm.state_live (W := NoWait) (calm_enqueue ..) ht

/-- A send makes nobody wait for a sender. -/
theorem calm_ipcSend (ht : (k.pool t).state.Live) (dst : ℤ) (msg : Option IpcMsg) :
    Calm W E k (k.ipcSend t dst msg).2 := by
  cases msg with
  | none => exact .refl k
  | some msg =>
    simp only [ipcSend]
    split_ifs
    · exact .refl k
    · have hstage : ∀ {W : ℕ → ℤ → Prop} {E : ℕ → Prop}, Calm W E k (k.upd t fun p =>
          { p with ipcBuf := { msg with src := p.pid } }) :=
        calm_upd (Proc.calm_of_state rfl rfl ⟨rfl, rfl⟩ (fun h => ⟨h, rfl⟩))
      exact hstage.trans (calm_rendezvous (Calm.state_live (W := NoWait) hstage ht) dst)

theorem calm_collect (t : ℕ) (prev : Option ℕ) (s : ℕ) (k : Procs) :
    Calm W E k (k.collect t prev s) := by
  simp only [collect]
  refine Calm.trans ?_ (calm_upd (Proc.calm_wake _ rfl rfl ⟨rfl, rfl⟩ (by simp)))
  refine Calm.trans ?_ (calm_upd (Proc.calm_of_state rfl rfl ⟨rfl, rfl⟩ (fun h => ⟨h, rfl⟩)))
  exact (calm_unqueue t prev s k).trans
    (calm_upd (Proc.calm_of_state rfl rfl ⟨rfl, rfl⟩ (fun h => ⟨h, rfl⟩)))

theorem calm_takeQueued (t : ℕ) (src : ℤ) (k : Procs) : Calm W E k (k.takeQueued t src).2 := by
  unfold takeQueued
  split
  · exact calm_hung true k
  · exact .refl k
  · exact calm_collect ..

section

variable (ht : (k.pool t).state.Live)
include ht

/-- The last act of a receive that blocks. -/
theorem calm_park {src : ℤ} (hW : W t src) :
    Calm W E k ((k.upd t fun p =>
      { p with ipcState := .recving, ipcPartner := src, ipcRc := 0 }).ipcBlock t .recv) := by
  unfold ipcBlock
  rw [upd_upd]
  exact calm_upd ⟨rfl, fun hd => absurd hd ht.1, fun hz => absurd hz ht.2,
    fun hr => (by cases hr), fun _ => ⟨rfl, rfl⟩,
    fun _ => ⟨fun hd => (by cases hd), fun hz => (by cases hz)⟩, fun _ => .inr hW, fun _ _ => rfl⟩

/-- A receive makes its caller wait for the source. -/
theorem calm_ipcRecv {src : ℤ} (hW : W t src) (out : Bool) :
    Calm W E k (k.ipcRecv t src out).2 := by
  have htaken : Calm W E k (k.takeQueued t src).2 := calm_takeQueued t src k
  have hlive : ((k.takeQueued t src).2.pool t).state.Live :=
    Calm.state_live (W := NoWait) (calm_takeQueued t src k) ht
  unfold ipcRecv
  split_ifs
  · exact .refl k
  · revert htaken hlive
    split <;> rename_i heq <;> rw [heq] <;> intro htaken hlive
    · exact htaken
    · split_ifs
      · exact htaken
      · exact Calm.trans htaken (calm_park hlive hW)

theorem calm_ipcSendrec {dst : ℤ} (hW : W t dst) (msg : Option IpcMsg) :
    Calm W E k (k.ipcSendrec t dst msg).2 := by
  have hsent : Calm W E k (k.ipcSend t dst msg).2 := calm_ipcSend ht dst msg
  have hlive : ((k.ipcSend t dst msg).2.pool t).state.Live :=
    Calm.state_live (W := NoWait) (calm_ipcSend ht dst msg) ht
  unfold ipcSendrec
  revert hsent hlive
  split <;> rename_i heq <;> rw [heq] <;> intro hsent hlive
  · exact Calm.trans hsent (calm_ipcBlock hlive _)
  · split_ifs
    · exact hsent
    · exact Calm.trans hsent (calm_ipcRecv hlive hW true)

end

theorem calm_ipcNbrecv (t : ℕ) (src : ℤ) (out : Bool) (k : Procs) :
    Calm W E k (k.ipcNbrecv t src out).2 := by
  unfold ipcNbrecv
  have hk : Calm W E k (k.takeQueued t src).2 := calm_takeQueued t src k
  split_ifs
  · exact .refl k
  · revert hk
    split <;> rename_i heq <;> rw [heq] <;> exact id

/-- The second half of `ipc_sendrec` makes its caller wait. -/
theorem calm_resume (ht : (k.pool t).state.Live)
    (hW : ∀ dst, (k.pool t).call = .sendrec dst → (k.pool t).ipcRc = 0 → W t dst) :
    Calm W E k (k.resume t).2 := by
  have hw : ∀ {W : ℕ → ℤ → Prop} {E : ℕ → Prop},
      Calm W E k (k.upd t fun p => { p with ipcState := .idle, call := .none }) :=
    calm_upd (Proc.calm_of_state rfl rfl ⟨rfl, rfl⟩ (fun h => (by cases h)))
  simp only [resume]
  split
  · exact .refl k
  · exact hw
  · exact hw
  · next dst hc =>
    split_ifs with hrc
    · exact hw
    · refine hw.trans (calm_ipcRecv ?_ ?_ true)
      · exact Calm.state_live (W := NoWait) hw ht
      · exact hW dst hc (by simpa using hrc)

/-! ### Ends of tasks and signals -/

theorem ipcTaskCleanup_ipcState (t : ℕ) (k : Procs) :
    ((k.ipcTaskCleanup t).pool t).ipcState = .idle := by
  simp only [ipcTaskCleanup, upd_pool_self]

/-- A zombie is left for a parent that is not dead. -/
theorem leavesZombie_hasParent (h : k.leavesZombie t = true) : k.HasParent t := by
  unfold leavesZombie at h
  rw [Bool.and_eq_true, decide_eq_true_eq] at h
  refine ⟨h.1, ?_⟩
  have hfound := h.2
  split at hfound
  · next p hp =>
    obtain ⟨hlt, hpid, hdead⟩ := taskByPid_eq_some hp
    exact ⟨p, hlt, hdead, by exact_mod_cast hpid⟩
  · cases hfound

/-- **The end of a task**: it is a zombie or dead, and the others go on. -/
theorem calm_taskTerminate (ht : (k.pool t).state.Live) (status : ℤ) :
    Calm W (fun i => i = t) k (k.taskTerminate t status) := by
  simp only [taskTerminate]
  have hlive : ((k.ipcTaskCleanup t).pool t).state.Live :=
    Calm.state_live (W := NoWait) (calm_ipcTaskCleanup t k) ht
  refine (calm_ipcTaskCleanup t k).trans (calm_ends ?_ (fun hz => .inr ?_))
  swap
  · refine leavesZombie_hasParent ?_
    by_contra hnot
    dsimp only at hz
    rw [if_neg hnot] at hz
    cases hz
  refine ⟨rfl, fun hd => absurd hd hlive.1, fun hz => absurd hz hlive.2, fun hr => ?_,
    fun h => absurd rfl h, fun h => absurd rfl h, fun hr => .inl ⟨hr, rfl⟩, fun _ hr => ?_⟩
  · dsimp only at hr
    split_ifs at hr
  · dsimp only at hr
    rw [ipcTaskCleanup_ipcState] at hr
    cases hr

theorem taskTerminate_self (t : ℕ) (status : ℤ) (k : Procs) :
    ((k.taskTerminate t status).pool t).state
      = if (k.ipcTaskCleanup t).leavesZombie t then .zombie else .dead := by
  simp only [taskTerminate, upd_pool_self]

/-- The pending signals of a task are written. -/
def setPending (t : ℕ) (w : UInt32) : Procs → Procs := upd t fun p => { p with sigPending := w }

theorem setPending_self (t : ℕ) (k : Procs) : k.setPending t (k.pool t).sigPending = k := by
  unfold setPending upd
  rw [update_eq_self]

theorem setPending_setPending (t : ℕ) (w w' : UInt32) (k : Procs) :
    (k.setPending t w).setPending t w' = k.setPending t w' := by
  simp [setPending, upd]

theorem calm_setPending (t : ℕ) (w : UInt32) (k : Procs) :
    Calm W (fun i => i = t) k (k.setPending t w) :=
  calm_ends ⟨rfl, id, .inl, id, fun h => absurd rfl h, fun h => absurd rfl h,
    fun hr => .inl ⟨hr, rfl⟩, id⟩ .inl

/-- Sending a signal writes the pending ones. -/
theorem sigSend_eq (t : ℕ) (signo : ℤ) (k : Procs) : ∃ w, k.sigSend t signo = k.setPending t w := by
  unfold sigSend
  split_ifs
  · exact ⟨_, (setPending_self t k).symm⟩
  · exact ⟨_, (setPending_self t k).symm⟩
  · exact ⟨(k.pool t).sigPending ||| sigBit signo.toNat, rfl⟩

theorem calm_sigSend (t : ℕ) (signo : ℤ) (k : Procs) :
    Calm W (fun i => i = t) k (k.sigSend t signo) := by
  obtain ⟨w, h⟩ := sigSend_eq t signo k
  rw [h]
  exact calm_setPending t w k

theorem calm_sigSendPid (pid signo : ℤ) (k : Procs) :
    Calm W (fun i => k.taskByPid pid = some i) k (k.sigSendPid pid signo) := by
  unfold sigSendPid
  split
  · exact .refl k
  · next t ht => exact (calm_sigSend t signo k).mono (fun _ _ => id) (fun i hi => hi ▸ ht)

/-- A signal for a handler is taken back. -/
theorem signalCheckUser_eq (t : ℕ) (k : Procs) :
    ∃ w, (k.signalCheckUser t).2 = k.setPending t w := by
  unfold signalCheckUser
  split
  · exact ⟨_, (setPending_self t k).symm⟩
  · next sig _ => exact ⟨(k.pool t).sigPending &&& ~~~sigBit sig, rfl⟩

theorem calm_signalCheckUser (t : ℕ) (k : Procs) :
    Calm W (fun i => i = t) k (k.signalCheckUser t).2 := by
  obtain ⟨w, h⟩ := signalCheckUser_eq t k
  rw [h]
  exact calm_setPending t w k

/-- The loop of `sig_deliver` writes the pending signals of the task, and ends it
at most once, as its last act. -/
theorem sigDeliverLoop_cases (t : ℕ) (d : UInt32) (sigs : List ℕ) (k : Procs) :
    ∃ w, sigDeliverLoop t d sigs k = k.setPending t w
      ∨ (k.pool t).unkillable = false
        ∧ ∃ status, sigDeliverLoop t d sigs k = (k.setPending t w).taskTerminate t status := by
  induction sigs generalizing k with
  | nil => exact ⟨_, .inl (setPending_self t k).symm⟩
  | cons sig sigs ih =>
    have hclear : ∃ w, k.sigClear t sig = k.setPending t w := by
      refine ⟨(k.pool t).sigPending &&& ~~~sigBit sig, ?_⟩
      simp [sigClear, setPending, upd]
    obtain ⟨w, hw⟩ := hclear
    -- The rest of the loop after the signal is taken back.
    have hrest : ∃ w, sigDeliverLoop t d sigs (k.sigClear t sig) = k.setPending t w
        ∨ (k.pool t).unkillable = false ∧ ∃ status,
          sigDeliverLoop t d sigs (k.sigClear t sig) = (k.setPending t w).taskTerminate t status := by
      obtain ⟨w', h⟩ := ih (k.sigClear t sig)
      rw [hw, setPending_setPending] at h
      refine ⟨w', ?_⟩
      rw [hw]
      simpa [setPending] using h
    unfold sigDeliverLoop
    split_ifs with _ hkill hun hign hdfl hterm
    · exact ih k
    · exact hrest
    · refine ⟨w, .inr ⟨by simpa using hun, 128 + sigkill, ?_⟩⟩
      rw [hw]
    · exact hrest
    · rw [Bool.and_eq_true, Bool.not_eq_true'] at hterm
      refine ⟨w, .inr ⟨hterm.2, 128 + sig, ?_⟩⟩
      rw [hw]
    · exact hrest
    · exact ⟨_, .inl (setPending_self t k).symm⟩

/-- **What a delivery does**: nothing when no signal is due; otherwise it writes the
pending signals of the task, and may end it if it can be killed. -/
theorem sigDeliver_cases (t : ℕ) (k : Procs) :
    k.sigDeliver t = k ∨ k.deliverable t ≠ 0 ∧ ∃ w, k.sigDeliver t = k.setPending t w
      ∨ (k.pool t).unkillable = false ∧ (k.pool t).state ≠ .dead
        ∧ ∃ status, k.sigDeliver t = (k.setPending t w).taskTerminate t status := by
  unfold sigDeliver
  split_ifs with hdead hdue
  · exact .inl rfl
  · exact .inl rfl
  · obtain ⟨w, h | ⟨hun, hst⟩⟩ :=
      sigDeliverLoop_cases t (k.deliverable t) (range' 1 sigMax) k
    · exact .inr ⟨hdue, w, .inl h⟩
    · exact .inr ⟨hdue, w, .inr ⟨hun, hdead, hst⟩⟩

/-- A delivery touches a task for which a signal is due. -/
theorem calm_sigDeliver (hz : (k.pool t).state ≠ .zombie) :
    Calm W (fun i => i = t ∧ k.deliverable t ≠ 0) k (k.sigDeliver t) := by
  rcases sigDeliver_cases t k with h | ⟨hdue, w, h | ⟨-, hdead, status, h⟩⟩ <;> rw [h]
  · exact .refl k
  · exact (calm_setPending t w k).mono (fun _ _ => id) (fun i hi => ⟨hi, hdue⟩)
  · have hlive : ((k.setPending t w).pool t).state.Live := by
      unfold setPending
      rw [upd_pool_self]
      exact ⟨hdead, hz⟩
    exact ((calm_setPending t w k).trans (calm_taskTerminate hlive status)).mono
      (fun _ _ => id) (fun i hi => ⟨hi, hdue⟩)

theorem calm_serve (state : ProcState) (hstate : state ≠ .zombie) (t : ℕ) (k : Procs) :
    Calm W (fun i => i = t ∧ k.deliverable t ≠ 0) k (k.serve state t) := by
  unfold serve
  split_ifs with h
  · exact calm_sigDeliver (by rw [h]; exact hstate)
  · exact .refl k

/-- **The search of the scheduler** touches tasks for which signals are due. -/
theorem calm_pick (n cand : ℕ) (k : Procs) :
    Calm W (fun i => k.deliverable i ≠ 0) k (pick n cand k).2 := by
  induction n generalizing cand k with
  | zero => exact .refl k
  | succ n ih =>
    have hs : Calm W (fun i => k.deliverable i ≠ 0) k (k.serve .ready cand) :=
      (calm_serve .ready (by decide) cand k).mono (fun _ _ => id) (fun i hi => hi.1 ▸ hi.2)
    have hrest : ∀ j, Calm W (fun i => k.deliverable i ≠ 0) (k.serve .ready cand)
        (pick n j (k.serve .ready cand)).2 := by
      refine fun j => (ih j _).mono (fun _ _ => id) (fun i hi hnot => hi ?_)
      rw [hs.deliverable (i := i) (by simpa using hnot), hnot]
    unfold pick
    dsimp only
    split_ifs
    · exact hs
    · split
      · exact hs.trans (calm_hung true _)
      · exact hs.trans (hrest _)

/-- Reaping ends zombies for good. -/
theorem calm_reapChildren (t : ℕ) (k : Procs) :
    Calm W (fun i => (k.pool i).state = .zombie ∧ (k.pool i).parentPid = (k.pool t).pid) k
      (k.reapChildren t) := by
  refine ⟨rfl, rfl, rfl, rfl, fun i => ?_, fun i hz => .inl ?_⟩
  swap
  · dsimp only [reapChildren] at hz
    split_ifs at hz with h
    exact hz
  show Proc.Calm _ _ _ (if _ then _ else _)
  split_ifs with h
  · have hends := h.2.2
    exact ⟨rfl, fun _ => rfl, fun _ => .inr rfl, fun hr => (by cases hr), fun hn => absurd hends hn,
      fun hn => absurd hends hn, fun hr => .inl ⟨hr, rfl⟩,
      fun hp hr => absurd ((hp hr).symm.trans hends.1) (by decide)⟩
  · exact .refl _

/-- The zombie that `SYS_WAIT4` finds. -/
theorem sysWait4_cases (want : ℤ) (k : Procs) : k.sysWait4 want = k
    ∨ ∃ c, c < k.count ∧ (k.pool c).parentPid = (k.pool k.current).pid ∧ (k.pool c).state = .zombie
      ∧ (want < 0 ∨ (k.pool c).pid = want)
      ∧ k.sysWait4 want = k.upd c fun p => { p with state := .dead } := by
  unfold sysWait4
  split
  · exact .inl rfl
  · next c hc =>
    have hp := find?_some hc
    have hm := mem_of_find?_eq_some hc
    rw [decide_eq_true_eq] at hp
    exact .inr ⟨c, mem_range.1 hm, hp.1, hp.2.1, hp.2.2, rfl⟩

theorem calm_sysWait4 (want : ℤ) (k : Procs) :
    Calm W (fun i => (k.pool i).state = .zombie ∧ (k.pool i).parentPid = (k.pool k.current).pid) k
      (k.sysWait4 want) := by
  rcases sysWait4_cases want k with h | ⟨c, -, hparent, hz, -, h⟩ <;> rw [h]
  · exact .refl k
  · exact calm_ends ⟨rfl, fun _ => rfl, fun _ => .inr rfl, fun hr => (by cases hr),
      fun hn => absurd ⟨hz, hparent⟩ hn, fun hn => absurd ⟨hz, hparent⟩ hn,
      fun hr => .inl ⟨hr, rfl⟩, fun hp hr => absurd ((hp hr).symm.trans hz) (by decide)⟩
      (fun h => (by cases h))

/-! ## One rule for a step -/

/-- **What a step can be**: nothing; the scheduler, a switch, a signal from the
keyboard or a store of the kernel; a call that goes on; or something the
running task does. What holds in each case holds after the step. -/
theorem step_rule {P : Procs → Prop} {e : Event} (hk : P k)
    (hschedule : e = .schedule → P k.schedule)
    (hdispatch : ∀ t, e = .dispatch t → t < k.count → (k.pool t).state = .ready →
      P (k.switchTo t))
    (hinterrupt : ∀ t, e = .interrupt t → t < k.count → P (k.sigSend t sigint))
    (hstore : ∀ word value, e = .store word value → sigTableMaxTasks * nsig ≤ word →
      P { k with handlers := Function.update k.handlers word value })
    (hresume : e = .resume → k.hung = false → (k.pool k.current).state = .running →
      (k.pool k.current).call ≠ .none → P (afterCall (k.resume k.current)))
    (hact : k.hung = false → (k.pool k.current).state = .running →
      (k.pool k.current).call = .none → P (k.act e)) :
    P (k.step e) := by
  unfold step
  by_cases hhung : k.hung = true
  · rw [if_pos hhung]
    exact hk
  rw [if_neg hhung]
  rw [Bool.not_eq_true] at hhung
  have hown : P (if (k.pool k.current).state = .running ∧ (k.pool k.current).call = .none
      then k.act e else k) := by
    split_ifs with h
    · exact hact hhung h.1 h.2
    · exact hk
  cases e with
  | schedule => exact hschedule rfl
  | dispatch t =>
    dsimp only
    split_ifs with h
    · exact hdispatch t rfl h.1 h.2
    · exact hk
  | interrupt t =>
    dsimp only
    split_ifs with h
    · exact hinterrupt t rfl h
    · exact hk
  | store word value =>
    dsimp only
    split_ifs with h
    · exact hstore word value rfl h
    · exact hk
  | resume =>
    dsimp only
    split_ifs with h
    · exact hresume rfl hhung h.1 h.2
    · exact hk
  | _ => exact hown

end Procs

end Makar
