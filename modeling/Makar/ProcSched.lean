import Makar.ProcTurn

/-!
# One task runs

The scheduler walks once round the run list, from the task after the current
one on, and takes the first task that is ready. Between two events exactly
one task is in the state `TASK_RUNNING`, the current one. This does not hold
of itself: a current task that exits or blocks is no longer running, and if
the walk finds nobody the scheduler returns to it all the same. The idle task
is there to be found, so the law rests on its being ready or running whenever
the scheduler is called and when an event is over (`IdleHeld`).

The walk delivers signals, and a signal may end a task and wake others that
wait for it. `Stirred` is what that does to the states: a task keeps its
state, or is woken, or has ended.
-/

namespace Makar

open List

/-- The state of a task after something that neither blocks it nor lets it run:
the same, or it is woken, or it has ended. -/
def ProcState.Stirs (s s' : ProcState) : Prop :=
  s' = s ∨ s = .blocked ∧ s' = .ready ∨ ¬ s'.Live

theorem ProcState.Stirs.trans {s s' s'' : ProcState} (h : s.Stirs s') (h' : s'.Stirs s'') :
    s.Stirs s'' := by
  rcases h' with rfl | ⟨rfl, rfl⟩ | hend
  · exact h
  · rcases h with hs | ⟨-, hs⟩ | hend
    · exact .inr (.inl ⟨hs.symm, rfl⟩)
    · cases hs
    · exact absurd ⟨by decide, by decide⟩ hend
  · exact .inr (.inr hend)

theorem Proc.stirs_wake (p : Proc) : p.state.Stirs p.wake.state := by
  unfold Proc.wake
  dsimp only
  split_ifs with hb
  · exact .inr (.inl ⟨hb, rfl⟩)
  · exact .inl rfl

namespace Procs

variable {k k' k₁ : Procs} {f : Proc → Proc} {i t : ℕ}

/-! ## What happens to the states -/

/-- The states after something that blocks nobody and lets nobody run. -/
def Stirred (k k' : Procs) : Prop := ∀ i, (k.pool i).state.Stirs (k'.pool i).state

theorem Stirred.refl (k : Procs) : Stirred k k := fun _ => .inl rfl

theorem Stirred.trans (h : Stirred k k₁) (h' : Stirred k₁ k') : Stirred k k' :=
  fun i => (h i).trans (h' i)

/-- A state other than blocked stays, unless the task has ended. -/
theorem Stirred.state (h : Stirred k k') (hb : (k.pool i).state ≠ .blocked)
    (hlive : (k'.pool i).state.Live) : (k'.pool i).state = (k.pool i).state := by
  rcases h i with hs | ⟨hs, -⟩ | hend
  · exact hs
  · exact absurd hs hb
  · exact absurd hlive hend

theorem stirred_upd (h : (k.pool i).state.Stirs (f (k.pool i)).state) : Stirred k (k.upd i f) := by
  intro j
  rw [upd_pool]
  split_ifs with hj
  · rw [hj]
    exact h
  · exact .inl rfl

theorem stirred_wakeSenders (n : ℕ) (p : Option ℕ) (k : Procs) : Stirred k (wakeSenders n p k) := by
  induction n generalizing p k with
  | zero => cases p <;> exact .refl k
  | succ n ih =>
    cases p with
    | none => exact .refl k
    | some s => exact Stirred.trans (stirred_upd (f := Proc.refused) (Proc.stirs_wake _)) (ih _ _)

theorem stirred_unqueue (d : ℕ) (prev : Option ℕ) (s : ℕ) (k : Procs) :
    Stirred k (k.unqueue d prev s) := by
  unfold unqueue
  split <;> exact stirred_upd (.inl rfl)

theorem stirred_leaveQueue (t : ℕ) (k : Procs) : Stirred k (k.leaveQueue t) := by
  unfold leaveQueue
  split
  · exact .refl k
  · split
    · exact .refl k
    · exact .refl k
    · exact stirred_unqueue _ _ _ k

theorem stirred_ipcTaskCleanup (t : ℕ) (k : Procs) : Stirred k (k.ipcTaskCleanup t) := by
  simp only [ipcTaskCleanup]
  refine Stirred.trans ?_ (stirred_upd (.inl rfl))
  have hwoken : Stirred k ((wakeSenders k.count (k.pool t).ipcSenderQ k).upd t fun p =>
      { p with ipcSenderQ := none }) :=
    (stirred_wakeSenders _ _ k).trans (stirred_upd (.inl rfl))
  split_ifs
  · exact hwoken.trans (stirred_leaveQueue t _)
  · exact hwoken

/-- The end of a task. -/
theorem stirred_taskTerminate (t : ℕ) (status : ℤ) (k : Procs) :
    Stirred k (k.taskTerminate t status) := by
  simp only [taskTerminate]
  refine (stirred_ipcTaskCleanup t k).trans (stirred_upd (.inr (.inr fun hlive => ?_)))
  dsimp only at hlive
  split_ifs at hlive
  · exact hlive.2 rfl
  · exact hlive.1 rfl

theorem stirred_serve (state : ProcState) (t : ℕ) (k : Procs) : Stirred k (k.serve state t) := by
  have hpending : ∀ w, Stirred k (k.setPending t w) := fun w => stirred_upd (.inl rfl)
  unfold serve
  split_ifs
  · rcases sigDeliver_cases t k with h | ⟨-, w, h | ⟨-, -, status, h⟩⟩ <;> rw [h]
    · exact .refl k
    · exact hpending w
    · exact (hpending w).trans (stirred_taskTerminate t status _)
  · exact .refl k

theorem stirred_pick (n cand : ℕ) (k : Procs) : Stirred k (pick n cand k).2 := by
  induction n generalizing cand k with
  | zero => exact .refl k
  | succ n ih =>
    have hs := stirred_serve .ready cand k
    unfold pick
    dsimp only
    split_ifs
    · exact hs
    · split
      · exact hs
      · exact hs.trans (ih _ _)

/-! ### Calls -/

theorem stirred_takeQueued (t : ℕ) (src : ℤ) (k : Procs) : Stirred k (k.takeQueued t src).2 := by
  unfold takeQueued
  split
  · exact .refl k
  · exact .refl k
  · next prev s _ =>
    simp only [collect]
    refine Stirred.trans ?_ (stirred_upd (Proc.stirs_wake _))
    exact (stirred_unqueue t prev s k).trans
      (Stirred.trans (stirred_upd (.inl rfl)) (stirred_upd (.inl rfl)))

theorem stirred_deliver (t d : ℕ) (k : Procs) : Stirred k (k.deliver t d) := by
  unfold deliver
  refine stirred_upd ?_
  exact Proc.stirs_wake { k.pool d with ipcBuf := _, ipcState := _, ipcPartner := _, ipcRc := _ }

/-- **A call either leaves its caller's state alone or blocks it.** -/
def Halts (t : ℕ) (k : Procs) (r : Option ℤ × Procs) : Prop :=
  Stirred k r.2 ∨ r.1 = none ∧ (r.2.pool t).state = .blocked

theorem Halts.after {r : Option ℤ × Procs} (h : Halts t k₁ r) (hs : Stirred k k₁) : Halts t k r :=
  h.imp_left hs.trans

theorem halts_rendezvous (t : ℕ) (dst : ℤ) (k : Procs) : Halts t k (k.rendezvous t dst) := by
  unfold rendezvous
  split
  · exact .inl (.refl k)
  · split_ifs
    · exact .inl (.refl k)
    · exact .inl (stirred_deliver t _ k)
    · refine .inr ⟨rfl, ?_⟩
      unfold ipcBlock
      rw [upd_pool_self]

theorem halts_ipcSend (t : ℕ) (dst : ℤ) (msg : Option IpcMsg) (k : Procs) :
    Halts t k (k.ipcSend t dst msg) := by
  cases msg with
  | none => exact .inl (.refl k)
  | some msg =>
    simp only [ipcSend]
    split_ifs
    · exact .inl (.refl k)
    · exact (halts_rendezvous t dst _).after (stirred_upd (.inl rfl))

theorem halts_ipcRecv (t : ℕ) (src : ℤ) (out : Bool) (k : Procs) :
    Halts t k (k.ipcRecv t src out) := by
  have htaken := stirred_takeQueued t src k
  unfold ipcRecv
  split_ifs
  · exact .inl (.refl k)
  · revert htaken
    split <;> rename_i heq <;> rw [heq] <;> intro htaken
    · exact .inl htaken
    · split_ifs
      · exact .inl htaken
      · refine .inr ⟨rfl, ?_⟩
        unfold ipcBlock
        rw [upd_pool_self]

theorem halts_ipcSendrec (t : ℕ) (dst : ℤ) (msg : Option IpcMsg) (k : Procs) :
    Halts t k (k.ipcSendrec t dst msg) := by
  have hsent := halts_ipcSend t dst msg k
  unfold ipcSendrec
  revert hsent
  split <;> rename_i heq <;> rw [heq] <;> intro hsent
  · refine .inr ⟨rfl, ?_⟩
    unfold ipcBlock
    rw [upd_pool_self]
  · have hs := hsent.resolve_right (fun h => (by cases h.1))
    split_ifs
    · exact .inl hs
    · exact (halts_ipcRecv t dst true _).after hs

theorem halts_resume (t : ℕ) (k : Procs) : Halts t k (k.resume t) := by
  have hw : Stirred k (k.upd t fun p => { p with ipcState := .idle, call := .none }) :=
    stirred_upd (.inl rfl)
  simp only [resume]
  split
  · exact .inl (.refl k)
  · exact .inl hw
  · exact .inl hw
  · split_ifs
    · exact .inl hw
    · exact (halts_ipcRecv t _ true _).after hw

/-! ## The walk -/

/-- A task that has ended stays so. -/
theorem Stirred.ended (h : Stirred k k') (hend : ¬ (k.pool i).state.Live) :
    ¬ (k'.pool i).state.Live := by
  rcases h i with hs | ⟨hs, -⟩ | hs
  · rw [hs]
    exact hend
  · rw [hs] at hend
    exact absurd ⟨by decide, by decide⟩ hend
  · exact hs

/-- **The walk finds a ready task**: if a task on the stretch ahead is ready, and
no signal ends it, then the walk stops on the stretch, at a task that is ready. -/
theorem pick_finds {l : List ℕ} {q : Option ℕ} {n cand z : ℕ}
    (hpath : Path k.next (some cand) l q) (hn : l.length ≤ n) (hz : z ∈ l)
    (hready : (k.pool z).state = .ready) (hlive : ((pick n cand k).2.pool z).state.Live) :
    (pick n cand k).1 ∈ l ∧ ((pick n cand k).2.pool (pick n cand k).1).state = .ready := by
  induction l generalizing n cand k with
  | nil => exact absurd hz not_mem_nil
  | cons c l ih =>
    obtain ⟨hc, hrest⟩ := hpath
    obtain rfl := Option.some.inj hc
    obtain ⟨n, rfl⟩ : ∃ m, n = m + 1 := ⟨n - 1, by simp at hn; omega⟩
    have hserved := stirred_serve .ready cand k
    have hkept := (calm_serve (W := NoWait) .ready (by decide) cand k).kept
    unfold pick at hlive ⊢
    dsimp only at hlive ⊢
    by_cases htake : (k.pool cand).state = .ready ∧ ((k.serve .ready cand).pool cand).state = .ready
    · rw [if_pos htake]
      exact ⟨mem_cons_self, htake.2⟩
    · rw [if_neg htake] at hlive ⊢
      -- The ready task is alive at the end, so it is alive here.
      have hstays : ((k.serve .ready cand).pool z).state = .ready := by
        by_contra hnot
        refine absurd hlive ?_
        have hend : ¬ ((k.serve .ready cand).pool z).state.Live := fun hl =>
          hnot ((hserved.state (by rw [hready]; decide) hl).trans hready)
        split
        · exact hend
        · exact (stirred_pick _ _ _).ended hend
      have hzl : z ∈ l := by
        refine (mem_cons.1 hz).resolve_left ?_
        rintro rfl
        exact htake ⟨hready, hstays⟩
      obtain ⟨w, hw⟩ : ∃ w, k.next cand = some w := by
        cases l with
        | nil => exact absurd hzl not_mem_nil
        | cons w l => exact ⟨w, hrest.1⟩
      rw [hkept.next, hw] at hlive ⊢
      dsimp only at hlive ⊢
      have hpath' : Path (k.serve .ready cand).next (some w) l q := by
        rw [hkept.next, ← hw]
        exact hrest
      obtain ⟨hmem, hst⟩ := ih hpath' (by simpa using hn) hzl hstays hlive
      exact ⟨mem_cons_of_mem _ hmem, hst⟩

/-! ## One task runs -/

/-- The idle task is ready or running. -/
def IdleUp (k : Procs) : Prop := (k.pool 0).state = .ready ∨ (k.pool 0).state = .running

instance (k : Procs) : Decidable k.IdleUp := inferInstanceAs (Decidable (_ ∨ _))

theorem IdleUp.live (h : k.IdleUp) : (k.pool 0).state.Live := by
  rcases h with h | h <;> rw [h] <;> exact ⟨by decide, by decide⟩

/-- The state in which an event calls the scheduler; where it does not, the state
before. -/
def atSchedule (k : Procs) : Event → Procs
  | .taskExit status => (k.reapChildren k.current).taskTerminate k.current status
  | .sigreturn => k.upd k.current fun p => { p with state := .dead }
  | .ipcSend dst msg => (k.ipcSend k.current dst msg).2
  | .ipcRecv src out => (k.ipcRecv k.current src out).2
  | .ipcSendrec dst msg => (k.ipcSendrec k.current dst msg).2
  | .resume => (k.resume k.current).2
  | _ => k

/-- **The idle task is always ready or running**: where the event, if it does
anything, calls the scheduler, and when it is over. -/
def IdleHeld (k : Procs) (e : Event) : Prop :=
  (k.step e ≠ k → IdleUp (k.atSchedule e)) ∧ IdleUp (k.step e)

/-- **Exactly the current task is running.** -/
def OneRunning (k : Procs) : Prop :=
  ∀ i, i < k.count → ((k.pool i).state = .running ↔ i = k.current)

theorem OneRunning.congr (h : OneRunning k) (hcount : k'.count = k.count)
    (hcurrent : k'.current = k.current) (hstate : ∀ i, (k'.pool i).state = (k.pool i).state) :
    OneRunning k' := by
  intro i hi
  rw [hstate, hcurrent]
  exact h i (hcount ▸ hi)

/-- Something calm that blocks nobody and does not end the current task. -/
theorem OneRunning.stirred (h : OneRunning k) {W : ℕ → ℤ → Prop} {E : ℕ → Prop}
    (hc : Calm W E k k') (hs : Stirred k k') (hE : ¬ E k.current) : OneRunning k' := by
  intro i hi
  have hi' : i < k.count := hc.count ▸ hi
  rw [hc.current]
  refine ⟨fun hrun => (h i hi').1 ((hc.slot i).running hrun), ?_⟩
  rintro rfl
  have hrun := (h k.current hi').2 rfl
  have hlive : k'.Live k.current :=
    (hc.live_iff hE).2 ⟨hi', by rw [hrun]; decide, by rw [hrun]; decide⟩
  rw [hs.state (by rw [hrun]; decide) hlive.2]
  exact hrun

/-- A switch leaves exactly the new task running. -/
theorem oneRunning_switchTo (h : ∀ i, i < k.count → (k.pool i).state = .running → i = k.current)
    (t : ℕ) : OneRunning (k.switchTo t) := by
  intro i hi
  rw [switchTo_count] at hi
  rw [switchTo_state, switchTo_current]
  split_ifs with hit hc
  · exact iff_of_true rfl hit
  · exact iff_of_false (by decide) hit
  · exact iff_of_false (fun hrun => hc ⟨h i hi hrun, hrun⟩) hit

/-- **The scheduler leaves one task running**, when no other than the current one
is running before, the idle task is ready or running before and after, and runs
if it is the current task. -/
theorem Ring.oneRunning_schedule (hr : k.Ring)
    (hone : ∀ i, i < k.count → (k.pool i).state = .running → i = k.current)
    (hup : IdleUp k) (hup' : IdleUp k.schedule)
    (hidle : k.current = 0 → (k.pool 0).state = .running) : OneRunning k.schedule := by
  rcases hr.schedule_cases with ⟨htwo, heq⟩ | ⟨cand, -, hnext, r, hrdef, -, hcase⟩
  · have h0 : k.current = 0 := by
      have := hr.current_lt
      omega
    rw [heq]
    refine fun i hi => ⟨hone i hi, ?_⟩
    rintro rfl
    rw [h0]
    exact hidle h0
  have hserve := calm_serve (W := NoWait) .running (by decide) k.current k
  have hk : Kept k r.2 := by
    rw [hrdef]
    exact hserve.kept.trans (calm_pick (W := NoWait) _ _ _).kept
  have hrunning : ∀ i, (r.2.pool i).state = .running → (k.pool i).state = .running := by
    intro i hrun
    rw [hrdef] at hrun
    exact (hserve.slot i).running (((calm_pick (W := NoWait) _ _ _).slot i).running hrun)
  have hstirred : Stirred k r.2 := by
    rw [hrdef]
    exact (stirred_serve _ _ k).trans (stirred_pick _ _ _)
  have hone' : ∀ i, i < r.2.count → (r.2.pool i).state = .running → i = r.2.current := by
    intro i hi hrun
    rw [hk.current]
    exact hone i (hk.count ▸ hi) (hrunning i hrun)
  have hlive : (r.2.pool 0).state.Live := by
    have hpos : 0 < r.2.count := by
      have := hr.current_lt
      rw [hk.count]
      omega
    rcases hcase with ⟨heq, -⟩ | ⟨heq, -, hready⟩ <;> rw [heq] at hup'
    · exact hup'.live
    · exact ((switchTo_live_iff hready).1 ⟨by rw [switchTo_count]; exact hpos, hup'.live⟩).2
  rcases hcase with ⟨heq, hnot⟩ | ⟨heq, -, -⟩
  · -- Nobody was found, so the idle task is the current one.
    have h0 : k.current = 0 := by
      by_contra h0
      obtain ⟨l, hl⟩ := hr
      have hmem : 0 ∈ l := by
        have := (hl.mem 0).2 (by have := (hl.mem k.current).1 mem_cons_self; omega)
        exact (mem_cons.1 this).resolve_left (Ne.symm h0)
      have hready : (k.pool 0).state = .ready := by
        refine hup.resolve_right (fun hrun => h0 ?_)
        exact (hone 0 ((hl.mem 0).1 (mem_cons_of_mem _ hmem)) hrun).symm
      have hlive₁ : ((k.serve .running k.current).pool 0).state.Live := by
        by_contra hend
        rw [hrdef] at hlive
        exact (stirred_pick _ _ _).ended hend hlive
      have hfound := pick_finds (k := k.serve .running k.current) (l := l) (q := some k.current)
        (n := k.count) (z := 0)
        (by rw [hserve.kept.next, ← hnext]; exact hl.path.2)
        (by have := hl.length_le; simp at this; omega) hmem
        (((stirred_serve _ _ k).state (by rw [hready]; decide) hlive₁).trans hready)
        (by rw [← hrdef]; exact hlive)
      rw [← hrdef] at hfound
      refine hnot.elim (fun hcur => ?_) (fun hst => hst hfound.2)
      rw [hcur] at hfound
      exact (nodup_cons.1 hl.nodup).1 hfound.1
    rw [heq]
    refine fun i hi => ⟨hone' i hi, ?_⟩
    rintro rfl
    rw [hk.current, h0, hstirred.state (by rw [hidle h0]; decide) hlive]
    exact hidle h0
  · rw [heq]
    exact oneRunning_switchTo hone' r.1

section

variable (h : OneRunning k)
include h

variable {W : ℕ → ℤ → Prop}

/-- After a call that may block. -/
theorem OneRunning.afterCall (hr : k.Ring) {r : Option ℤ × Procs}
    (hc : Calm W NoEnd k r.2) (hh : Halts k.current k r) (hup : IdleUp r.2)
    (hup' : IdleUp (afterCall r)) : OneRunning (Procs.afterCall r) := by
  unfold Procs.afterCall at hup' ⊢
  split at hup' <;> rename_i heq
  · refine (hc.kept.ring hr).oneRunning_schedule (fun i hi hrun => ?_) hup hup' (fun h0 => ?_)
    · rw [hc.current]
      exact (h i (hc.count ▸ hi)).1 ((hc.slot i).running hrun)
    · rw [hc.current] at h0
      rcases hh with hs | ⟨-, hb⟩
      · have hlt := (hc.kept.ring hr).current_lt
        rw [hc.current, h0] at hlt
        exact (h.stirred hc hs id 0 hlt).2 (h0.symm.trans hc.current.symm)
      · rw [h0] at hb
        rcases hup with hup | hup <;> rw [hb] at hup <;> cases hup
  · refine h.stirred hc (hh.resolve_right (fun hb => ?_)) id
    rw [heq] at hb
    cases hb.1

/-- A creation. -/
theorem OneRunning.born (hr : k.Ring) {userPd : Bool} (hb : Born k k' t userPd) :
    OneRunning k' := by
  have hcur : t ≠ k.current := by
    intro he
    have hrun := (h k.current hr.current_lt).2 rfl
    rw [← he] at hrun
    exact hb.not_live ⟨he ▸ hr.current_lt, by rw [hrun]; decide, by rw [hrun]; decide⟩
  intro i hi
  rw [hb.current]
  by_cases hit : i = t
  · rw [hit, hb.state]
    exact iff_of_false (by decide) hcur
  · rw [hb.state_of_ne hit]
    exact h i ((hb.slot.lt_iff.1 hi).resolve_right hit)

theorem OneRunning.same (hs : Same k k') : OneRunning k' :=
  h.congr hs.count hs.current hs.state

/-- An end of the current task: the idle task is another. -/
theorem OneRunning.ends (hr : k.Ring) {E : ℕ → Prop} (hc : Calm W E k k₁)
    (hend : ¬ (k₁.pool k.current).state.Live) (hup : IdleUp k₁) (hup' : IdleUp k₁.schedule) :
    OneRunning k₁.schedule := by
  refine (hc.kept.ring hr).oneRunning_schedule (fun i hi hrun => ?_) hup hup' (fun h0 => ?_)
  · rw [hc.current]
    exact (h i (hc.count ▸ hi)).1 ((hc.slot i).running hrun)
  · rw [hc.current] at h0
    rw [h0] at hend
    exact absurd hup.live hend

/-- What the running task does. -/
theorem OneRunning.act (hr : k.Ring) (hrun : (k.pool k.current).state = .running) {e : Event}
    (hup : IdleUp (k.atSchedule e)) (hup' : IdleUp (k.act e)) : OneRunning (k.act e) := by
  have hcur := live_of_running hrun
  cases e with
  | taskCreate fds stack =>
    rcases taskCreate_cases hr hcur.1 fds stack with heq | ⟨t, hborn, -⟩
    · simp only [Procs.act, heq]
      exact h
    · exact h.born hr hborn
  | taskFork clones stack =>
    rcases taskFork_cases hr hcur.1 clones stack with heq | ⟨t, hborn, -⟩
    · simp only [Procs.act, heq]
      exact h
    · exact h.born hr hborn
  | execve ok => exact h.same (same_execve ok k)
  | taskExit status =>
    refine h.ends hr (calm_taskEnds (W := NoWait) hr hcur status) (fun hl => ?_) hup hup'
    rw [taskTerminate_self] at hl
    split_ifs at hl
    · exact hl.2 rfl
    · exact hl.1 rfl
  | sigreturn =>
    have hc : Calm NoWait (fun i => i = k.current) k
        (k.upd k.current fun p => { p with state := .dead }) :=
      calm_dies (by rw [hrun]; decide)
    refine h.ends hr hc (fun hl => ?_) hup hup'
    rw [upd_pool_self] at hl
    exact hl.1 rfl
  | logout t =>
    simp only [Procs.act]
    split_ifs with hl
    · exact h.stirred (calm_taskTerminate (W := NoWait) hl.1.2 0) (stirred_taskTerminate t 0 k)
        (Ne.symm hl.2)
    · exact h
  | wait4 want =>
    refine h.stirred (calm_sysWait4 (W := NoWait) want k) ?_ (fun hz => hcur.2 hz.1)
    rcases sysWait4_cases want k with heq | ⟨c, -, -, -, -, heq⟩ <;> rw [Procs.act, heq]
    · exact .refl k
    · exact stirred_upd (.inr (.inr fun hl => hl.1 rfl))
  | kill pid signo =>
    simp only [Procs.act, sigSendPid]
    split
    · exact h
    · next t _ =>
      obtain ⟨w, hw⟩ := sigSend_eq t signo k
      rw [hw]
      exact h.same (same_setPending t w k)
  | signal signo handler => exact h.same (same_sigSetHandler ..)
  | checkUser =>
    obtain ⟨w, hw⟩ := signalCheckUser_eq k.current k
    simp only [Procs.act, hw]
    exact h.same (same_setPending k.current w k)
  | ipcSend dst msg =>
    exact h.afterCall hr (calm_ipcSend (W := NoWait) hcur dst msg) (halts_ipcSend ..) hup hup'
  | ipcRecv src out =>
    exact h.afterCall hr (calm_ipcRecv (W := fun _ _ => True) hcur trivial out)
      (halts_ipcRecv ..) hup hup'
  | ipcSendrec dst msg =>
    exact h.afterCall hr (calm_ipcSendrec (W := fun _ _ => True) hcur trivial msg)
      (halts_ipcSendrec ..) hup hup'
  | ipcNbrecv src out =>
    refine h.stirred (calm_ipcNbrecv (W := NoWait) (E := NoEnd) k.current src out k) ?_ id
    have htaken := stirred_takeQueued k.current src k
    simp only [Procs.act, ipcNbrecv]
    split_ifs
    · exact .refl k
    · revert htaken
      split <;> rename_i heq <;> rw [heq] <;> exact id
  | _ => exact h

/-- **Every event leaves one task running**, as long as the idle task is ready or
running. -/
theorem OneRunning.step (hr : k.Ring) (hup : IdleUp k) {e : Event} (hheld : IdleHeld k e) :
    OneRunning (k.step e) := by
  by_cases hstill : k.step e = k
  · rw [hstill]
    exact h
  obtain ⟨hat, hup'⟩ := hheld
  have hat := hat hstill
  revert hup'
  refine step_rule (P := fun k' => IdleUp k' → OneRunning k') (fun _ => h) ?_ ?_ ?_ ?_ ?_ ?_
  · rintro - hup'
    exact hr.oneRunning_schedule (fun i hi => (h i hi).1) hup hup'
      (fun h0 => (h 0 (h0 ▸ hr.current_lt)).2 h0.symm)
  · rintro t - - - -
    exact oneRunning_switchTo (fun i hi => (h i hi).1) t
  · rintro t - - -
    obtain ⟨w, hw⟩ := sigSend_eq t sigint k
    rw [hw]
    exact h.same (same_setPending t w k)
  · rintro word value - - -
    exact h.congr rfl rfl (fun _ => rfl)
  · rintro rfl - hrun - hup'
    have hlive := live_of_running hrun
    exact h.afterCall hr (calm_resume (W := fun _ _ => True) hlive (fun _ _ _ => trivial))
      (halts_resume ..) hat hup'
  · rintro - hrun - hup'
    exact h.act hr hrun hat hup'

end

/-! ## The run list in every state -/

end Procs

end Makar
