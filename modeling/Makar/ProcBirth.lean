import Makar.ProcRing

/-!
# What a creation does

`task_create` and `task_fork` take a slot, fill it and link it in. `Born` is
what the two have in common: one slot becomes a new task, the others keep
everything but the links of the run list. They differ in what they make of
the message fields of a slot that is used again: `task_create` clears them,
`task_fork` leaves them.
-/

namespace Makar

namespace Procs

variable {k k' k₁ : Procs} {i t : ℕ} {userPd : Bool}

/-- The slot that is taken: a dead one, or one more. -/
inductive Taken (k : Procs) (t count : ℕ) : Prop
  /-- A dead slot is used again. -/
  | again (is_first : k.deadSlot = some t) (is_pos : 0 < t) (is_old : t < k.count)
      (is_dead : (k.pool t).state = .dead) (is_same : count = k.count)
  /-- The pool grows by one. -/
  | grown (is_next : t = k.count) (none_dead : k.deadSlot = none) (has_room : k.count < maxTasks)
      (is_more : count = k.count + 1)

theorem Taken.lt {count : ℕ} (h : Taken k t count) : t < count := by
  cases h <;> omega

/-- The slots are the old ones and the one that is taken. -/
theorem Taken.lt_iff {count : ℕ} (h : Taken k t count) : i < count ↔ i < k.count ∨ i = t := by
  cases h <;> omega

/-- **What a claim leaves.** -/
structure Claimed (k k' : Procs) (t : ℕ) : Prop where
  /-- The slot. -/
  slot : Taken k t k'.count
  /-- The next pid, the current task and the handlers are the same. -/
  same : k'.nextPid = k.nextPid ∧ k'.current = k.current ∧ k'.handlers = k.handlers
  /-- The other slots keep everything but their links. -/
  other : ∀ i, i ≠ t → ∃ n, k'.pool i = { k.pool i with next := n }
  /-- A slot that is used again is as it was. -/
  again : t < k.count → ∃ n, k'.pool t = { k.pool t with next := n }
  /-- A slot that is added is zero. -/
  fresh : k.count ≤ t → k'.pool t = Proc.zero

/-- A claim gives no slot and changes nothing, or it gives one. -/
theorem Ring.claimed (hr : k.Ring) (hcur : (k.pool k.current).state ≠ .dead) (stack : Bool) :
    k.claimSlot stack = (none, k) ∨ ∃ t k', k.claimSlot stack = (some t, k') ∧ Claimed k k' t := by
  rcases claimSlot_cases stack k with hnone | ⟨t, hsome, hlt, hdead, hslot⟩ | ⟨hnew, hslot, hroom⟩
  · exact .inl hnone
  · right
    refine ⟨t, _, hsome, ?_⟩
    obtain ⟨l, hl⟩ := hr
    have hne : t ≠ k.current := by
      rintro rfl
      exact hcur hdead
    obtain ⟨-, -, y, hy⟩ := hl.unlinkTask hlt hne
    have hpos : 0 < t := by
      have := List.find?_some hslot
      rw [decide_eq_true_eq] at this
      exact this.1
    -- Only the slot before it gets a new link.
    have hlinks : ∀ i, ∃ n, (k.unlinkTask t).pool i = { k.pool i with next := n } := by
      intro i
      rw [hy, upd_pool]
      split_ifs with hiy
      · exact ⟨k.next t, by rw [hiy]⟩
      · exact ⟨(k.pool i).next, rfl⟩
    refine ⟨.again hslot hpos hlt hdead (by rw [hy]; rfl), ?_, fun i _ => hlinks i, fun _ => hlinks t,
      fun hle => absurd hlt (by omega)⟩
    rw [hy]
    exact ⟨rfl, rfl, rfl⟩
  · right
    refine ⟨k.count, _, hnew, .grown rfl hslot hroom rfl, ⟨rfl, rfl, rfl⟩, ?_, ?_, ?_⟩
    · intro i hi
      exact ⟨(k.pool i).next, upd_pool_of_ne hi _ _⟩
    · exact fun h => absurd h (lt_irrefl _)
    · exact fun _ => upd_pool_self _ _ _

/-- **What a creation leaves**, whichever of the two it is. -/
structure Born (k k' : Procs) (t : ℕ) (userPd : Bool) : Prop where
  /-- The slot. -/
  slot : Taken k t k'.count
  /-- A pid is handed out. -/
  nextPid : k'.nextPid = k.nextPid + 1
  /-- The same task runs. -/
  current : k'.current = k.current
  /-- The handlers of the slot are reset. -/
  handlers : k'.handlers = fun j =>
    if handlerAt t 0 ≤ j ∧ j < handlerAt t nsig then sigDfl else k.handlers j
  /-- The other slots keep everything but their links. -/
  other : ∀ i, i ≠ t → ∃ n, k'.pool i = { k.pool i with next := n }
  /-- The slot is a new task. -/
  state : (k'.pool t).state = .ready
  /-- It has the new pid. -/
  pid : (k'.pool t).pid = k.nextPid
  /-- Its parent is the task that runs. -/
  parentPid : (k'.pool t).parentPid = (k.pool k.current).pid
  /-- Whether it has an address space of its own. -/
  userPd : (k'.pool t).userPd = userPd

theorem sigTaskInit_pool (t : ℕ) (k : Procs) (i : ℕ) : (k.sigTaskInit t).pool i
    = if i = t then { k.pool t with sigPending := 0, sigMask := 0 } else k.pool i := by
  simp only [sigTaskInit]
  split
  · exact upd_pool t _ k i
  · dsimp only
    exact upd_pool t _ k i

theorem sigTaskInit_handlers (ht : t < k.count) : (k.sigTaskInit t).handlers = fun j =>
    if handlerAt t 0 ≤ j ∧ j < handlerAt t nsig then sigDfl else k.handlers j := by
  have hslot : (k.upd t fun p => { p with sigPending := 0, sigMask := 0 }).slotOf t = some t := by
    rw [slotOf_eq, upd_count, if_pos ht]
  simp only [sigTaskInit, hslot]
  rfl

theorem linkTask_pool (ht : t ≠ k.current) (i : ℕ) : (k.linkTask t).pool i
    = { k.pool i with next := if i = k.current then some t
        else if i = t then k.next k.current else (k.pool i).next } := by
  simp only [Procs.linkTask, upd_pool, upd_current]
  by_cases hic : i = k.current
  · subst hic
    rw [if_pos rfl, if_pos rfl, if_neg ht.symm]
  · rw [if_neg hic, if_neg hic]
    by_cases hit : i = t
    · subst hit
      rw [if_pos rfl, if_pos rfl]
    · rw [if_neg hit, if_neg hit]

/-- **A claimed slot is filled and linked in.** `f` is what the creation does to the
message fields. -/
theorem Claimed.born (h : Claimed k k₁ t) (ht : t ≠ k.current) (userPd : Bool) {f : Proc → Proc}
    (hborn : ∀ p, Proc.born (f p) = Proc.born p) (hf : ∀ p, (f p).state = p.state) :
    Born k ((((k₁.newTask t userPd).upd t f).sigTaskInit t).linkTask t) t userPd := by
  obtain ⟨k₂, hk₂⟩ : ∃ k₂, k₂ = (k₁.newTask t userPd).upd t f := ⟨_, rfl⟩
  rw [← hk₂]
  have hkept := kept_sigTaskInit t k₂
  have hsame : k₂.count = k₁.count ∧ k₂.nextPid = k₁.nextPid + 1 ∧ k₂.current = k₁.current
      ∧ k₂.handlers = k₁.handlers := by
    rw [hk₂]
    exact ⟨rfl, rfl, rfl, rfl⟩
  obtain ⟨hcount, hnext, hcur, hhandlers⟩ := hsame
  have ht₂ : t ≠ (k₂.sigTaskInit t).current := by
    rw [hkept.current, hcur, h.same.2.1]
    exact ht
  have hpool := linkTask_pool ht₂
  have hself : ∃ n, ((k₂.sigTaskInit t).linkTask t).pool t
      = { k₂.pool t with sigPending := 0, sigMask := 0, next := n } := by
    rw [hpool t, sigTaskInit_pool, if_pos rfl]
    exact ⟨_, rfl⟩
  have hnew : Proc.born (k₂.pool t) = ((k₁.pool t).next, k₁.nextPid, (k₁.pool k₁.current).pid,
      userPd, false) ∧ (k₂.pool t).state = .ready := by
    rw [hk₂, upd_pool_self, hborn, hf]
    unfold newTask
    rw [upd_pool_self]
    exact ⟨rfl, rfl⟩
  obtain ⟨n, hn⟩ := hself
  have hparent : (k₁.pool k₁.current).pid = (k.pool k.current).pid := by
    obtain ⟨m, hm⟩ := h.other k.current ht.symm
    rw [h.same.2.1, hm]
  refine ⟨?_, ?_, ?_, ?_, ?_, ?_, ?_, ?_, ?_⟩
  · show Taken k t (k₂.sigTaskInit t).count
    rw [hkept.count, hcount]
    exact h.slot
  · show (k₂.sigTaskInit t).nextPid = _
    rw [hkept.nextPid, hnext, h.same.1]
  · show (k₂.sigTaskInit t).current = _
    rw [hkept.current, hcur, h.same.2.1]
  · show (k₂.sigTaskInit t).handlers = _
    rw [sigTaskInit_handlers (by rw [hcount]; exact h.slot.lt), hhandlers, h.same.2.2]
  · intro i hi
    obtain ⟨m, hm⟩ := h.other i hi
    have hold : (k₂.sigTaskInit t).pool i = { k.pool i with next := m } := by
      rw [sigTaskInit_pool, if_neg hi, hk₂, upd_pool_of_ne hi, newTask, upd_pool_of_ne hi]
      exact hm
    rw [hpool i, hold]
    exact ⟨_, rfl⟩
  · rw [hn]
    exact hnew.2
  · rw [hn]
    exact (congrArg (fun b => b.2.1) hnew.1).trans h.same.1
  · rw [hn]
    exact (congrArg (fun b => b.2.2.1) hnew.1).trans hparent
  · rw [hn]
    exact congrArg (fun b => b.2.2.2.1) hnew.1

/-- The message fields of the new task, which neither linking nor the signals
touch. -/
theorem newTask_ipc (f : Proc → Proc) (ht : t ≠ k₁.current) (userPd : Bool) :
    ((((((k₁.newTask t userPd).upd t f).sigTaskInit t).linkTask t).pool t).ipcState
        = (f ((k₁.newTask t userPd).pool t)).ipcState)
      ∧ (((((k₁.newTask t userPd).upd t f).sigTaskInit t).linkTask t).pool t).ipcSenderQ
        = (f ((k₁.newTask t userPd).pool t)).ipcSenderQ := by
  have hcur : t ≠ (((k₁.newTask t userPd).upd t f).sigTaskInit t).current := by
    rw [(kept_sigTaskInit ..).current]
    exact ht
  rw [linkTask_pool hcur, sigTaskInit_pool, if_pos rfl, upd_pool_self]
  exact ⟨rfl, rfl⟩

/-- The slot that is claimed is not the current task. -/
theorem Claimed.ne_current (h : Claimed k k₁ t) (hr : k.Ring)
    (hcur : (k.pool k.current).state ≠ .dead) : t ≠ k.current := by
  rintro rfl
  cases h.slot with
  | again _ _ _ hdead _ => exact hcur hdead
  | grown hnext _ _ _ => exact hr.current_lt.ne hnext

section

variable (hr : k.Ring) (hcur : (k.pool k.current).state ≠ .dead)
include hr hcur

/-- **`task_create` changes nothing, or makes a task without senders.** -/
theorem taskCreate_cases (fds stack : Bool) : k.taskCreate fds stack = k
      ∨ ∃ t, Born k (k.taskCreate fds stack) t false
        ∧ ((k.taskCreate fds stack).pool t).ipcState = .idle
        ∧ ((k.taskCreate fds stack).pool t).ipcSenderQ = none := by
  unfold Procs.taskCreate
  split_ifs
  · exact .inl rfl
  rcases hr.claimed hcur stack with heq | ⟨t, k₁, heq, h⟩
  · rw [heq]
    exact .inl rfl
  · rw [heq]
    have ht := h.ne_current hr hcur
    have hipc := newTask_ipc (t := t) (fun p => { p with
      ipcState := .idle, ipcPartner := 0, ipcRc := 0, ipcSenderQ := none, ipcSqNext := none })
      (by rw [h.same.2.1]; exact ht) false
    exact .inr ⟨t, h.born ht false (by intro p; rfl) (by intro p; rfl), hipc⟩

/-- **`task_fork` changes nothing, or makes a task with the senders the slot had.** -/
theorem taskFork_cases (clones stack : Bool) : k.taskFork clones stack = k
      ∨ ∃ t, Born k (k.taskFork clones stack) t true
        ∧ (((k.taskFork clones stack).pool t).ipcState = .idle
            ∧ ((k.taskFork clones stack).pool t).ipcSenderQ = none
          ∨ t < k.count ∧ (k.pool t).state = .dead ∧ k.deadSlot = some t
            ∧ ((k.taskFork clones stack).pool t).ipcState = (k.pool t).ipcState
            ∧ ((k.taskFork clones stack).pool t).ipcSenderQ = (k.pool t).ipcSenderQ) := by
  unfold Procs.taskFork
  split_ifs
  · exact .inl rfl
  rcases hr.claimed hcur stack with heq | ⟨t, k₁, heq, h⟩
  · rw [heq]
    exact .inl rfl
  · rw [heq]
    have ht := h.ne_current hr hcur
    have hid : (k₁.newTask t true).upd t (fun p => p) = k₁.newTask t true := by
      simp [upd]
    have hipc := newTask_ipc (t := t) (fun p => p) (by rw [h.same.2.1]; exact ht) true
    have hborn := h.born ht true (f := fun p => p) (by intro p; rfl) (by intro p; rfl)
    rw [hid] at hipc hborn
    refine .inr ⟨t, hborn, ?_⟩
    rw [hipc.1, hipc.2]
    unfold newTask
    rw [upd_pool_self]
    cases h.slot with
    | again hfirst hpos hlt hdead _ =>
      right
      obtain ⟨n, hn⟩ := h.again hlt
      dsimp only
      rw [hn]
      exact ⟨hlt, hdead, hfirst, rfl, rfl⟩
    | grown hnext _ _ _ =>
      left
      dsimp only
      rw [h.fresh hnext.ge]
      exact ⟨rfl, rfl⟩

end

end Procs

end Makar
