import Makar.ProcBirth

/-!
# No signal is ever masked

The field `sig_mask` of a task is read whenever the kernel looks for a signal
that is due, but nothing lets a program write it: `sig_task_init` clears it, and
that is all. In every state the system can come to, the mask of every task is
empty (`unmasked_run`).

`Calm` speaks of the mask of the tasks that do not end. The few changes that end a
task or write its pending signals are gone through here.
-/

namespace Makar

namespace Procs

variable {k k' : Procs} {W : ℕ → ℤ → Prop} {t : ℕ} {f : Proc → Proc}

/-- Every mask is empty. -/
def Unmasked (k : Procs) : Prop := ∀ i, (k.pool i).sigMask = 0

section

variable (h : k.Unmasked)
include h

theorem Unmasked.upd (hf : ∀ p, p.sigMask = 0 → (f p).sigMask = 0) (t : ℕ) :
    (k.upd t f).Unmasked := by
  intro i
  rw [upd_pool]
  split_ifs
  · exact hf _ (h t)
  · exact h i

/-- Messages leave the masks alone. -/
theorem Unmasked.calm (hc : Calm W NoEnd k k') : k'.Unmasked :=
  fun i => ((hc.slot i).due id).2.trans (h i)

theorem Unmasked.setPending (t : ℕ) (w : UInt32) : (k.setPending t w).Unmasked :=
  h.upd (by intro p hp; exact hp) t

theorem Unmasked.sigSend (t : ℕ) (signo : ℤ) : (k.sigSend t signo).Unmasked := by
  obtain ⟨w, hw⟩ := sigSend_eq t signo k
  rw [hw]
  exact h.setPending t w

theorem Unmasked.taskTerminate (t : ℕ) (status : ℤ) : (k.taskTerminate t status).Unmasked := by
  simp only [Procs.taskTerminate]
  exact (h.calm (calm_ipcTaskCleanup (W := NoWait) t k)).upd (by intro p hp; exact hp) t

theorem Unmasked.serve (state : ProcState) (t : ℕ) : (k.serve state t).Unmasked := by
  unfold Procs.serve
  split_ifs
  · rcases sigDeliver_cases t k with heq | ⟨-, w, heq | ⟨-, -, status, heq⟩⟩ <;> rw [heq]
    · exact h
    · exact h.setPending t w
    · exact (h.setPending t w).taskTerminate t status
  · exact h

theorem Unmasked.pick (n cand : ℕ) : (pick n cand k).2.Unmasked := by
  induction n generalizing cand k with
  | zero => exact h
  | succ n ih =>
    have hs := h.serve .ready cand
    unfold Procs.pick
    dsimp only
    split_ifs
    · exact hs
    · split
      · exact hs
      · exact ih hs _

theorem Unmasked.switchTo (t : ℕ) : (k.switchTo t).Unmasked := by
  intro i
  rw [switchTo_pool]
  exact h i

theorem Unmasked.schedule : k.schedule.Unmasked := by
  have hs := h.serve .running k.current
  unfold Procs.schedule
  dsimp only
  split_ifs
  · exact h
  · split
    · exact hs
    · next cand _ =>
      have hp := hs.pick (k.serve .running k.current).count cand
      split_ifs
      · exact hp
      · exact hp.switchTo _

end

theorem Unmasked.afterCall {r : Option ℤ × Procs} (h : r.2.Unmasked) : (afterCall r).Unmasked := by
  unfold Procs.afterCall
  split
  · exact h.schedule
  · exact h

theorem Unmasked.sigTaskInit (h : k.Unmasked) (t : ℕ) : (k.sigTaskInit t).Unmasked := by
  intro i
  rw [sigTaskInit_pool]
  split_ifs
  · rfl
  · exact h i

theorem Unmasked.execve (h : k.Unmasked) (ok : Bool) : (k.execve ok).Unmasked := by
  have hs := h.sigTaskInit k.current
  unfold Procs.execve
  dsimp only
  split_ifs
  · exact hs.upd (by intro p hp; exact hp) _
  · exact hs

/-! ## New tasks -/

section

variable (h : k.Unmasked)
include h

theorem Unmasked.claimSlot (stack : Bool) : (k.claimSlot stack).2.Unmasked := by
  have hunlink : ∀ t, (k.unlinkTask t).Unmasked := by
    intro t
    unfold unlinkTask
    split
    · exact h
    · exact h.upd (by intro p hp; exact hp) _
  rcases claimSlot_cases stack k with heq | ⟨t, heq, -⟩ | ⟨heq, -⟩ <;> rw [heq]
  · exact h
  · exact hunlink t
  · exact Unmasked.upd (k := { k with count := k.count + 1 }) (f := fun _ => Proc.zero) h
      (fun _ _ => rfl) _

/-- A slot is filled and linked in. -/
theorem Unmasked.newTask (t : ℕ) (userPd : Bool) (hf : ∀ p, p.sigMask = 0 → (f p).sigMask = 0) :
    ((((k.newTask t userPd).upd t f).sigTaskInit t).linkTask t).Unmasked := by
  have hnew : (k.newTask t userPd).Unmasked :=
    Unmasked.upd (k := { k with nextPid := k.nextPid + 1 }) h (by intro p hp; exact hp) t
  have hinit := (hnew.upd hf t).sigTaskInit t
  unfold linkTask
  exact (hinit.upd (by intro p hp; exact hp) t).upd (by intro p hp; exact hp) _

theorem Unmasked.taskCreate (fds stack : Bool) : (k.taskCreate fds stack).Unmasked := by
  have hc := h.claimSlot stack
  unfold Procs.taskCreate
  split_ifs
  · exact h
  · generalize k.claimSlot stack = r at hc ⊢
    obtain ⟨_ | t, k₁⟩ := r
    · exact hc
    · exact Unmasked.newTask (k := k₁) hc t false (by intro p hp; exact hp)

theorem Unmasked.taskFork (clones stack : Bool) : (k.taskFork clones stack).Unmasked := by
  have hc := h.claimSlot stack
  unfold Procs.taskFork
  split_ifs
  · exact h
  · generalize k.claimSlot stack = r at hc ⊢
    obtain ⟨_ | t, k₁⟩ := r
    · exact hc
    · have hnew := Unmasked.newTask (k := k₁) (f := id) hc t true (by intro p hp; exact hp)
      rwa [show (k₁.newTask t true).upd t id = k₁.newTask t true by simp [Procs.upd]] at hnew

end

/-! ## Events -/

theorem Unmasked.act (h : k.Unmasked) (hrun : (k.pool k.current).state = .running) (e : Event) :
    (k.act e).Unmasked := by
  have hcur := live_of_running hrun
  cases e with
  | taskCreate fds stack => exact h.taskCreate fds stack
  | taskFork clones stack => exact h.taskFork clones stack
  | execve ok => exact h.execve ok
  | taskExit status =>
    have hreap : (k.reapChildren k.current).Unmasked := by
      intro i
      dsimp only [reapChildren]
      split_ifs <;> exact h i
    exact (hreap.taskTerminate _ status).schedule
  | sigreturn => exact (h.upd (by intro p hp; exact hp) _).schedule
  | logout t =>
    simp only [Procs.act]
    split_ifs
    · exact h.taskTerminate t 0
    · exact h
  | wait4 want =>
    rcases sysWait4_cases want k with heq | ⟨c, -, -, -, -, heq⟩ <;> simp only [Procs.act, heq]
    · exact h
    · exact h.upd (by intro p hp; exact hp) c
  | kill pid signo =>
    show (k.sigSendPid pid signo).Unmasked
    unfold sigSendPid
    split
    · exact h
    · exact h.sigSend _ signo
  | signal signo handler =>
    have hsame : (k.sigSetHandler k.current signo handler).2.pool = k.pool := by
      unfold sigSetHandler
      split_ifs
      · rfl
      · rfl
      · split <;> rfl
    intro i
    simp only [Procs.act, hsame]
    exact h i
  | checkUser =>
    obtain ⟨w, hw⟩ := signalCheckUser_eq k.current k
    simp only [Procs.act, hw]
    exact h.setPending _ w
  | ipcSend dst msg => exact Unmasked.afterCall (h.calm (calm_ipcSend (W := NoWait) hcur dst msg))
  | ipcRecv src out =>
    exact Unmasked.afterCall (h.calm (calm_ipcRecv (W := fun _ _ => True) hcur trivial out))
  | ipcSendrec dst msg =>
    exact Unmasked.afterCall (h.calm (calm_ipcSendrec (W := fun _ _ => True) hcur trivial msg))
  | ipcNbrecv src out => exact h.calm (calm_ipcNbrecv (W := NoWait) k.current src out k)
  | _ => exact h

/-- Every event keeps the masks empty. -/
theorem Unmasked.step (h : k.Unmasked) (e : Event) : (k.step e).Unmasked := by
  refine step_rule h (fun _ => h.schedule) (fun t _ _ _ => h.switchTo t)
    (fun t _ _ => h.sigSend t sigint) (fun _ _ _ _ => h) (fun _ _ hrun _ => ?_)
    (fun _ hrun _ => h.act hrun e)
  have hlive := live_of_running hrun
  exact Unmasked.afterCall
    (h.calm (calm_resume (W := fun _ _ => True) hlive (fun _ _ _ => trivial)))

/-- A run keeps the masks empty. -/
theorem Unmasked.run (h : k.Unmasked) (es : List Event) : (k.run es).Unmasked :=
  foldl_invariant (fun _ e hk => hk.step e) es h

theorem unmasked_taskingInit : taskingInit.Unmasked := by
  intro i
  unfold taskingInit
  dsimp only
  rw [Function.update_apply]
  split_ifs <;> rfl

/-- **No task ever masks a signal.** -/
theorem unmasked_run (es : List Event) : (taskingInit.run es).Unmasked :=
  unmasked_taskingInit.run es

end Procs

end Makar
