import Makar.ProcTurn

/-!
# Zombies and their parents

A task whose parent may wait for it becomes a zombie when it ends, and keeps
its slot until the parent calls `wait4`. So a zombie whose parent is gone
keeps it for ever. `task_exit` knows this and reaps the zombies of the task
that exits; the other ways to end do not. A signal, a logout and a return from
a bad frame leave the zombies of the task behind, and `task_terminate` takes a
parent for alive that is a zombie itself.

`Survived` is what has to hold of the state before an event for this not to
matter: a task that may end has no zombie for a child, unless it exits, and its
own parent is gone for good or stays. Under it every zombie has a living
parent, whose `wait4` frees the slot (`zombies_have_parents`).
-/

namespace Makar

open List

namespace Procs

variable {k k' : Procs} {e : Event} {i p t : ℕ}

/-- The task has a parent that is alive. -/
def Fostered (k : Procs) (i : ℕ) : Prop :=
  0 < (k.pool i).parentPid ∧ ∃ p, k.Live p ∧ (k.pool p).pid = (k.pool i).parentPid

/-- **No end of a task orphans a zombie**: a task that may end has no zombie for a
child, unless it is the one that exits, and its own parent is dead, or is alive
and does not end. -/
structure Survived (k : Procs) (e : Event) : Prop where
  /-- The children of a task that may end. -/
  children : ∀ p i, k.Live p → k.Ends e p → i < k.count → (k.pool i).state = .zombie →
    (k.pool i).parentPid = (k.pool p).pid → p = k.current ∧ ∃ status, e = .taskExit status
  /-- The parent of a task that may end. -/
  parent : ∀ i p, k.Live i → k.Ends e i → p < k.count → (k.pool p).pid = (k.pool i).parentPid →
    (k.pool p).state = .dead ∨ k.Live p ∧ ¬ k.Ends e p

/-- What is left of the lineage: the idle task has no parent, and every zombie has
one that is alive. -/
structure Lineage (k : Procs) : Prop where
  /-- The idle task has no parent. -/
  idle : (k.pool 0).parentPid = 0
  /-- Every zombie has a parent that is alive. -/
  zombies : ∀ i, i < k.count → (k.pool i).state = .zombie → k.Fostered i

/-- **The task that exits reaps its zombies.** -/
theorem Ring.taskExit_reaps (hr : k.Ring) {status : ℤ} (hmoves : k.step (.taskExit status) ≠ k)
    (hi : 0 < i) (hlt : i < k.count) (hz : k.Awaiting i) :
    ((k.step (.taskExit status)).pool i).state = .dead := by
  have hrun : (k.step (.taskExit status)) = k.taskExit status
      ∧ (k.pool k.current).state = .running := by
    refine step_rule (P := fun k' => k' ≠ k → k' = k.taskExit status
      ∧ (k.pool k.current).state = .running) (fun h => absurd rfl h) (fun h => (by cases h))
      (fun _ h => (by cases h)) (fun _ h => (by cases h)) (fun _ _ h => (by cases h))
      (fun h => (by cases h)) (fun _ hrun _ _ => ⟨rfl, hrun⟩) hmoves
  rw [hrun.1]
  have hreaped : ((k.reapChildren k.current).pool i).state = .dead := by
    show (if _ then _ else _ : Proc).state = _
    rw [if_pos ⟨hi, hlt, hz.1, hz.2⟩]
  have hcur : ((k.reapChildren k.current).pool k.current).state.Live := by
    have hl := (calm_reapChildren (W := NoWait) k.current k).live_iff (i := k.current)
      (fun h => (by rw [hrun.2] at h; cases h.1))
    exact (hl.2 ⟨hr.current_lt, by rw [hrun.2]; exact ⟨by decide, by decide⟩⟩).2
  have hended := calm_taskTerminate (W := NoWait) hcur status
  have hring := hended.kept.ring ((calm_reapChildren (W := NoWait) k.current k).kept.ring hr)
  exact (hring.turn_schedule (W := NoWait)).dead ((hended.slot i).dead hreaped)

/-- What a turn does not end leaves no zombie that was not there. -/
theorem Turn.ends_of_zombie {W : ℕ → ℤ → Prop} {E : ℕ → Prop} (h : Turn W E k k')
    (hi : i < k.count) (hz : (k'.pool i).state = .zombie) (hnot : (k.pool i).state ≠ .zombie) :
    k.Live i ∧ E i := by
  have hdead : (k.pool i).state ≠ .dead := fun hd => by
    rw [h.dead hd] at hz
    cases hz
  refine ⟨⟨hi, hdead, hnot⟩, by_contra fun hE => ?_⟩
  exact (h.live hE ⟨hi, hdead, hnot⟩).2.2 hz

/-- A turn that orphans no zombie. -/
theorem Lineage.turn (h : Lineage k) (hr : k.Ring) (hs : Survived k e) (hmoves : k.step e ≠ k)
    (hturn : Turn (k.Waits e) (k.Ends e) k (k.step e)) : Lineage (k.step e) := by
  refine ⟨by rw [hturn.parentPid]; exact h.idle, fun i hi hz => ?_⟩
  rw [hturn.count] at hi
  have hstays : ∀ p, k.Live p → ¬ k.Ends e p → (k.pool p).pid = (k.pool i).parentPid →
      0 < (k.pool i).parentPid → (k.step e).Fostered i := by
    intro p hp hends hpid hpos
    refine ⟨by rw [hturn.parentPid]; exact hpos, p, hturn.live hends hp, ?_⟩
    rw [hturn.pid, hturn.parentPid, hpid]
  by_cases hwas : (k.pool i).state = .zombie
  · -- The parent ends only if it exits, and then the zombie is reaped.
    obtain ⟨hpos, p, hp, hpid⟩ := h.zombies i hi hwas
    by_cases hends : k.Ends e p
    · obtain ⟨rfl, status, rfl⟩ := hs.children p i hp hends hi hwas hpid.symm
      have hi0 : 0 < i := by
        rcases Nat.eq_zero_or_pos i with rfl | hi0
        · rw [h.idle] at hpos
          exact absurd hpos (lt_irrefl 0)
        · exact hi0
      rw [hr.taskExit_reaps hmoves hi0 hi ⟨hwas, hpid.symm⟩] at hz
      cases hz
    · exact hstays p hp hends hpid hpos
  · -- The task ends here, and left a zombie because it has a parent.
    obtain ⟨hpos, p, hlt, hdead, hpid⟩ := (hturn.heir hz).resolve_left hwas
    obtain ⟨hlive, hends⟩ := hturn.ends_of_zombie hi hz hwas
    obtain ⟨hp, hstay⟩ := (hs.parent i p hlive hends hlt hpid).resolve_left hdead
    exact hstays p hp hstay hpid hpos

/-- A creation. -/
theorem Lineage.born (h : Lineage k) {userPd : Bool} (hb : Born k k' t userPd)
    (hpos : 0 < k.count) : Lineage k' := by
  have ht : (0 : ℕ) ≠ t := by
    cases hb.slot <;> omega
  refine ⟨by rw [hb.parentPid_of_ne ht]; exact h.idle, fun i hi hz => ?_⟩
  have hit : i ≠ t := by
    rintro rfl
    rw [hb.state] at hz
    cases hz
  rw [hb.state_of_ne hit] at hz
  obtain ⟨hparent, p, hp, hpid⟩ := h.zombies i ((hb.slot.lt_iff.1 hi).resolve_right hit) hz
  have hpt : p ≠ t := fun he => hb.not_live (he ▸ hp)
  refine ⟨by rw [hb.parentPid_of_ne hit]; exact hparent, p, hb.live hp, ?_⟩
  rw [hb.pid_of_ne hpt, hb.parentPid_of_ne hit, hpid]

/-- **Every event that orphans no zombie keeps the lineage.** -/
theorem Lineage.step (h : Lineage k) (hr : k.Ring) (hs : Survived k e) : Lineage (k.step e) := by
  by_cases hstill : k.step e = k
  · rw [hstill]
    exact h
  rcases (hr.moved e).cases with hturn | ⟨t, userPd, hborn, -⟩ | hsame
  · exact h.turn hr hs hstill hturn
  · exact h.born hborn (Nat.zero_lt_of_lt hr.current_lt)
  · refine ⟨by rw [hsame.parentPid]; exact h.idle, fun i hi hz => ?_⟩
    rw [hsame.count] at hi
    rw [hsame.state] at hz
    obtain ⟨hparent, p, hp, hpid⟩ := h.zombies i hi hz
    refine ⟨by rw [hsame.parentPid]; exact hparent, p, hsame.live_iff.2 hp, ?_⟩
    rw [hsame.pid, hsame.parentPid, hpid]

/-- **The `wait4` of its parent frees the slot of a zombie.** -/
theorem Pids.sysWait4_reaps (h : Pids k) (hi : i < k.count) (hz : (k.pool i).state = .zombie)
    (hpid : (k.pool k.current).pid = (k.pool i).parentPid) :
    ((k.sysWait4 (k.pool i).pid).pool i).state = .dead := by
  unfold sysWait4
  split
  · next hnone =>
    have := find?_eq_none.1 hnone i (mem_range.2 hi)
    simp [hz, hpid] at this
  · next c hc =>
    have htest := find?_some hc
    have hlt := mem_range.1 (mem_of_find?_eq_some hc)
    rw [decide_eq_true_eq] at htest
    have hsame : (k.pool c).pid = (k.pool i).pid := by
      have := htest.2.2.resolve_left (by omega)
      exact_mod_cast this
    obtain rfl := h.apart c i hlt hi hsame
    rw [upd_pool_self]

/-- **In every run that orphans no zombie every zombie has a parent that is alive**,
and a pass of `wait4` that the parent makes frees its slot. -/
theorem zombies_have_parents (es : List Event) (hes : Meets Survived step taskingInit es) :
    ∀ i, i < (taskingInit.run es).count → ((taskingInit.run es).pool i).state = .zombie →
      0 < i ∧ ∃ p, (taskingInit.run es).Live p
        ∧ ((taskingInit.run es).pool p).pid = ((taskingInit.run es).pool i).parentPid
        ∧ ((sysWait4 ((taskingInit.run es).pool i).pid
            { taskingInit.run es with current := p }).pool i).state = .dead := by
  obtain ⟨hr, hpids, hlin⟩ := Meets.invariant (P := fun k => k.Ring ∧ Pids k ∧ Lineage k)
    (fun k e h hs => ⟨h.1.step e, h.2.1.moved (h.1.moved e) h.1, h.2.2.step h.1 hs⟩)
    ⟨ring_taskingInit, pids_taskingInit, rfl, by
      intro i hi hz
      have hi : i < 1 := hi
      obtain rfl : i = 0 := by omega
      cases hz⟩ hes
  intro i hi hz
  obtain ⟨hpos, p, hp, hpid⟩ := hlin.zombies i hi hz
  refine ⟨?_, p, hp, hpid, ?_⟩
  · rcases Nat.eq_zero_or_pos i with rfl | hi0
    · rw [hlin.idle] at hpos
      exact absurd hpos (lt_irrefl 0)
    · exact hi0
  · have hpids' : Pids { taskingInit.run es with current := p } := ⟨hpids.range, hpids.apart⟩
    exact hpids'.sysWait4_reaps hi hz hpid

/-- A task with a program of its own forks, and the child runs. -/
def parentForks : List Event :=
  [.taskCreate true true, .dispatch 1, .execve true, .taskFork true true, .dispatch 2]

/-- The child ends. -/
def childExits : List Event := parentForks ++ [.taskExit 0]

theorem zombies_have_parents_childExits :
    Meets Survived step taskingInit childExits
      ∧ ((taskingInit.run childExits).pool 2).state = .zombie
      ∧ ∃ p, (taskingInit.run childExits).Live p
        ∧ ((taskingInit.run childExits).pool p).pid
          = ((taskingInit.run childExits).pool 2).parentPid := by
  have hcalm : ∀ e ∈ parentForks, ∀ k : Procs, Survived k e := by
    intro e he k
    simp only [parentForks, mem_cons, not_mem_nil, or_false] at he
    rcases he with rfl | rfl | rfl | rfl | rfl <;>
      exact ⟨fun _ _ _ h => h.elim, fun _ _ _ h => h.elim⟩
  have hexit : Survived (taskingInit.run parentForks) (.taskExit 0) := by
    have hstate : ∀ i < (taskingInit.run parentForks).count,
        ((taskingInit.run parentForks).pool i).state ≠ .zombie
          ∧ (taskingInit.run parentForks).deliverable i = 0 := by decide
    have hends : ∀ i, (taskingInit.run parentForks).Live i →
        (taskingInit.run parentForks).Ends (.taskExit 0) i → i = 2 := by
      intro i hi h
      rcases h with (hz | hcur) | hdue
      · exact absurd hz.1 (hstate i hi.1).1
      · rw [hcur]
        decide
      · exact absurd (hstate i hi.1).2 hdue
    refine ⟨fun p i _ _ hi hz => absurd hz (hstate i hi).1, fun i p hi he hp hpid => .inr ?_⟩
    obtain rfl := hends i hi he
    have hone : ∀ p < (taskingInit.run parentForks).count,
        ((taskingInit.run parentForks).pool p).pid
          = ((taskingInit.run parentForks).pool 2).parentPid → p = 1 := by decide
    obtain rfl := hone p hp hpid
    exact ⟨by decide, fun h => absurd (hends 1 (by decide) h) (by decide)⟩
  have hmeets : Meets Survived step taskingInit childExits :=
    (meets_append (l := parentForks)).2 ⟨meets_of_forall hcalm, hexit, trivial⟩
  obtain ⟨-, p, hp, hpid, -⟩ := zombies_have_parents childExits hmeets 2 (by decide) (by decide)
  exact ⟨hmeets, by decide, p, hp, hpid⟩

/-- A signal that ends the parent leaves the zombie behind: no task is its parent,
and nobody can reap it. -/
theorem zombie_without_parent :
    ∃ k, k = taskingInit.run (childExits ++ [.kill 2 9, .schedule])
      ∧ (k.pool 2).state = .zombie
      ∧ ∀ p, k.Live p → (k.pool p).pid ≠ (k.pool 2).parentPid := by
  exact ⟨_, rfl, by decide, forall_live (by decide)⟩

end Procs

end Makar
