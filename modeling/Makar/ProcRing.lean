import Makar.ProcFrame

/-!
# The run list is a ring

The tasks are threaded on a circular list by their `next` links. A dead task
stays on it until its slot is claimed for a new one; the claim takes it out,
by walking from the current task to the one before it, and puts the new task
in after the current one. This module shows that the list is one ring through
every slot of the pool, whatever happens, so that the walk ends.
-/

namespace Makar

open List

namespace Procs

variable {k k' : Procs} {S : ℕ → Prop} {l : List ℕ} {i t : ℕ}

/-- The nodes of the ring, from the current task on, are the slots of `S`. -/
structure RingOf (k : Procs) (S : ℕ → Prop) (l : List ℕ) : Prop where
  /-- The links lead from the current task through the others and back. -/
  path : Path k.next (some k.current) (k.current :: l) (some k.current)
  /-- No slot is met twice. -/
  nodup : (k.current :: l).Nodup
  /-- The slots of `S` are met, and no other. -/
  mem : ∀ i, i ∈ k.current :: l ↔ S i

/-- **The run list is a single ring** through every slot of the pool. -/
def Ring (k : Procs) : Prop := ∃ l, k.RingOf (· < k.count) l

/-- The ring reads links, the current task and the size of the pool only. -/
theorem RingOf.congr (h : k.RingOf S l) (hn : ∀ i, S i → k'.next i = k.next i)
    (hc : k'.current = k.current) : k'.RingOf S l := by
  refine ⟨?_, by rw [hc]; exact h.nodup, by rw [hc]; exact h.mem⟩
  rw [hc]
  exact h.path.congr (fun i hi => hn i ((h.mem i).1 hi))

theorem Kept.ring (h : Kept k k') (hr : k.Ring) : k'.Ring := by
  obtain ⟨l, hl⟩ := hr
  refine ⟨l, ?_⟩
  rw [h.count]
  exact hl.congr (fun i _ => congrFun h.next i) h.current

theorem Ring.current_lt (hr : k.Ring) : k.current < k.count := by
  obtain ⟨l, hl⟩ := hr
  exact (hl.mem _).1 mem_cons_self

/-- The link of a slot leads to a slot. -/
theorem Ring.next_lt (hr : k.Ring) (hi : i < k.count) : ∃ j, k.next i = some j ∧ j < k.count := by
  obtain ⟨l, hl⟩ := hr
  obtain ⟨a, b, hab⟩ := append_of_mem ((hl.mem i).2 hi)
  have hpath := hl.path
  rw [hab] at hpath
  obtain ⟨-, hb⟩ := path_append_cons.1 hpath
  cases b with
  | nil => exact ⟨k.current, hb, (hl.mem _).1 mem_cons_self⟩
  | cons j b =>
    have hj : j ∈ k.current :: l := by simp [hab]
    exact ⟨j, hb.1, (hl.mem j).1 hj⟩

/-- The ring is not longer than the pool. -/
theorem RingOf.length_le (h : k.RingOf (· < k.count) l) : (k.current :: l).length ≤ k.count := by
  have hsub : k.current :: l ⊆ List.range k.count := fun i hi =>
    mem_range.2 ((h.mem i).1 hi)
  simpa using (h.nodup.subperm hsub).length_le

/-! ## Slots leave the ring and come back -/

/-- **The claim of a dead slot ends**, and takes the slot out of the ring. -/
theorem RingOf.unlinkTask (h : k.RingOf (· < k.count) l) (ht : t < k.count) (hne : t ≠ k.current) :
    ∃ l', (k.unlinkTask t).RingOf (fun i => i < k.count ∧ i ≠ t) l'
      ∧ ∃ y, k.unlinkTask t = k.upd y fun p => { p with next := k.next t } := by
  obtain ⟨a, b, rfl⟩ := append_of_mem
    ((mem_cons.1 ((h.mem t).2 ht)).resolve_left hne)
  -- The node before `t` is the last of those up to it.
  obtain ⟨c, y, hcy⟩ : ∃ c y, k.current :: a = c ++ [y] :=
    ⟨_, _, (dropLast_append_getLast (cons_ne_nil k.current a)).symm⟩
  have hall : k.current :: (a ++ t :: b) = c ++ y :: t :: b := by
    rw [← cons_append, hcy, append_assoc, singleton_append]
  have hpath := h.path
  have hnodup := h.nodup
  have hlen := h.length_le
  rw [hall] at hpath hnodup hlen
  have hpre : Path k.next (some k.current) (c ++ [y]) (some t) := by
    obtain ⟨hc, ht, -⟩ := path_append_cons.1 hpath
    exact path_append.2 ⟨some y, hc, rfl, ht⟩
  have hprev : prevOf k.next t k.count k.current = some y := by
    refine prevOf_eq hpre (by simp at hlen ⊢; omega) (fun hmem => ?_)
    have hmem := mem_of_mem_tail hmem
    rw [show c ++ y :: t :: b = (c ++ [y]) ++ t :: b by simp] at hnodup
    exact disjoint_of_nodup_append hnodup hmem mem_cons_self
  have hunlink : k.unlinkTask t = k.upd y fun p => { p with next := k.next t } := by
    unfold Procs.unlinkTask
    rw [hprev]
  have hytb : y ∉ c ++ t :: b := (nodup_middle.1 hnodup).notMem
  refine ⟨a ++ b, ?_, y, hunlink⟩
  rw [hunlink]
  have hcur : k.current :: (a ++ b) = c ++ y :: b := by
    rw [← cons_append, hcy, append_assoc, singleton_append]
  refine ⟨?_, ?_, fun i => ?_⟩
  · rw [upd_current, hcur]
    refine hpath.unlink (fun z hz => ?_) ?_
    · have hzy : z ≠ y := by
        rintro rfl
        exact hytb (by simp at hz ⊢; tauto)
      show ((k.upd y _).pool z).next = _
      rw [upd_pool_of_ne hzy]
      rfl
    · show ((k.upd y _).pool y).next = _
      rw [upd_pool_self]
  · rw [upd_current, hcur]
    exact hnodup.sublist (by simp)
  · rw [upd_current, ← (h.mem i), hall, hcur]
    have hty : t ∉ c ++ y :: b := by
      have : (c ++ y :: t :: b) = (c ++ [y]) ++ t :: b := by simp
      rw [this, nodup_middle] at hnodup
      simpa using hnodup.notMem
    constructor
    · intro hi
      refine ⟨by simp at hi ⊢; tauto, ?_⟩
      rintro rfl
      exact hty hi
    · rintro ⟨hi, hne⟩
      simp at hi ⊢
      tauto

/-- **A new task is put in after the current one.** -/
theorem RingOf.linkTask (h : k.RingOf S l) (ht : ¬ S t) :
    (k.linkTask t).RingOf (fun i => S i ∨ i = t) (t :: l) := by
  have htl : t ∉ k.current :: l := fun hm => ht ((h.mem t).1 hm)
  have hne : t ≠ k.current := fun he => htl (he ▸ mem_cons_self)
  have hnext : ∀ z, (k.linkTask t).next z
      = if z = k.current then some t else if z = t then k.next k.current else k.next z := by
    intro z
    simp only [Procs.linkTask, Procs.next, upd_pool, upd_current, if_neg (Ne.symm hne)]
    split_ifs <;> rfl
  have hcur : (k.linkTask t).current = k.current := rfl
  refine ⟨?_, ?_, fun i => ?_⟩
  · rw [hcur]
    have hlink : Path (k.linkTask t).next (some k.current) ([] ++ k.current :: t :: l)
        (some k.current) := by
      refine Path.link (a := []) h.path (fun z hz => ?_) ?_ ?_
      · have hzl : z ∈ k.current :: l := mem_cons_of_mem _ hz
        have hzt : z ≠ t := fun he => htl (he ▸ hzl)
        have hzc : z ≠ k.current := fun he => (nodup_cons.1 h.nodup).1 (he ▸ hz)
        rw [hnext, if_neg hzc, if_neg hzt]
      · rw [hnext, if_pos rfl]
      · rw [hnext, if_neg hne, if_pos rfl]
    exact hlink
  · rw [hcur]
    obtain ⟨hc, hl⟩ := nodup_cons.1 h.nodup
    refine nodup_cons.2 ⟨fun hm => ?_, nodup_cons.2 ⟨fun hm => ?_, hl⟩⟩
    · exact (mem_cons.1 hm).elim (fun he => hne he.symm) hc
    · exact htl (mem_cons_of_mem _ hm)
  · rw [hcur]
    have := h.mem i
    simp only [mem_cons] at this ⊢
    tauto

/-- **A claimed slot is off the ring**, and with it the ring has every slot of
the pool. The current task is not dead, so it is not the one reclaimed. -/
theorem Ring.claimSlot (hr : k.Ring) (hcur : (k.pool k.current).state ≠ .dead) {stack : Bool}
    (h : k.claimSlot stack = (some t, k')) :
    ∃ S l, k'.RingOf S l ∧ ¬ S t ∧ ∀ i, S i ∨ i = t ↔ i < k'.count := by
  obtain ⟨l, hl⟩ := hr
  rcases claimSlot_cases stack k with hnone | ⟨d, hsome, hlt, hdead, -⟩ | ⟨hnew, -, -⟩
  · rw [hnone] at h
    cases h
  · rw [hsome] at h
    cases h
    have hne : t ≠ k.current := by
      rintro rfl
      exact hcur hdead
    obtain ⟨l', hl', y, hy⟩ := hl.unlinkTask hlt hne
    refine ⟨_, l', hl', by simp, fun i => ?_⟩
    rw [hy, upd_count]
    have : i = t → i < k.count := fun he => he ▸ hlt
    tauto
  · rw [hnew] at h
    cases h
    refine ⟨(· < k.count), l, hl.congr (fun i hi => ?_) rfl, by simp, fun i => ?_⟩
    · unfold Procs.next
      rw [upd_pool_of_ne (Nat.ne_of_lt hi)]
    · show _ ↔ i < k.count + 1
      omega

/-- A slot off the ring is filled and linked in. -/
theorem RingOf.ring_newTask {k'' : Procs} (h : k'.RingOf S l) (ht : ¬ S t)
    (hS : ∀ i, S i ∨ i = t ↔ i < k'.count) {userPd : Bool}
    (hk : Kept (k'.newTask t userPd) k'') : (k''.linkTask t).Ring := by
  have hn : ∀ i, (k'.newTask t userPd).next i = k'.next i := by
    intro i
    unfold Procs.next newTask
    exact upd_field Proc.next (by intro p; rfl) _ t i
  have hlink := (h.congr (fun i _ => (congrFun hk.next i).trans (hn i)) hk.current).linkTask ht
  refine ⟨t :: l, hlink.path, hlink.nodup, fun i => ?_⟩
  rw [hlink.mem, hS]
  show _ ↔ i < k''.count
  rw [hk.count]
  exact Iff.rfl

/-! ## Every event keeps the ring -/

section

variable (hr : k.Ring)
include hr

theorem Ring.taskCreate (hcur : (k.pool k.current).state ≠ .dead) (fds stack : Bool) :
    (k.taskCreate fds stack).Ring := by
  unfold Procs.taskCreate
  split_ifs
  · exact hr
  cases h : k.claimSlot stack with
  | mk r k' =>
    cases r with
    | none =>
      rcases claimSlot_cases stack k with hnone | ⟨d, hsome, -⟩ | ⟨hnew, -⟩ <;>
        simp_all
    | some t =>
      obtain ⟨S, l, hl, ht, hS⟩ := hr.claimSlot hcur h
      exact hl.ring_newTask ht hS ((kept_ipcTaskInit ..).trans (kept_sigTaskInit ..))

theorem Ring.taskFork (hcur : (k.pool k.current).state ≠ .dead) (clones stack : Bool) :
    (k.taskFork clones stack).Ring := by
  unfold Procs.taskFork
  split_ifs
  · exact hr
  cases h : k.claimSlot stack with
  | mk r k' =>
    cases r with
    | none =>
      rcases claimSlot_cases stack k with hnone | ⟨d, hsome, -⟩ | ⟨hnew, -⟩ <;>
        simp_all
    | some t =>
      obtain ⟨S, l, hl, ht, hS⟩ := hr.claimSlot hcur h
      exact hl.ring_newTask ht hS (kept_sigTaskInit ..)

/-- **The switch turns the ring**: it is entered at the new task. -/
theorem Ring.switchTo (ht : t < k.count) : (k.switchTo t).Ring := by
  obtain ⟨l, hl⟩ := hr
  have hn : ∀ i, (k.switchTo t).next i = k.next i := fun i => by
    unfold Procs.next
    rw [switchTo_pool]
  obtain ⟨a, b, hab⟩ := append_of_mem ((hl.mem t).2 ht)
  have hpath := hl.path
  rw [hab] at hpath
  have hperm : (t :: (b ++ a)).Perm (k.current :: l) := by
    rw [hab]
    have hcomm : ((t :: b) ++ a).Perm (a ++ t :: b) := perm_append_comm
    exact hcomm
  refine ⟨b ++ a, ?_, hperm.nodup_iff.2 hl.nodup, fun i => ?_⟩
  · exact (hpath.rotate rfl).congr (fun i _ => hn i)
  · rw [switchTo_count, ← hl.mem]
    exact hperm.mem_iff

/-- The search ends at a slot of the pool. -/
theorem Ring.pick_lt (n : ℕ) {cand : ℕ} (hc : cand < k.count) : (pick n cand k).1 < k.count := by
  induction n generalizing cand k with
  | zero => exact hc
  | succ n ih =>
    have hs := (calm_serve (W := NoWait) .ready (by decide) cand k).kept
    unfold pick
    dsimp only
    split_ifs
    · exact hc
    · obtain ⟨j, hj, hlt⟩ := hr.next_lt hc
      rw [hs.next, hj]
      have := ih (hs.ring hr) (hs.count.symm ▸ hlt)
      rwa [hs.count] at this

/-- **What the scheduler does**: nothing if there is one task only; otherwise it
delivers the signals of the current task, searches the ring from the next task
on, and switches when it finds another task that is ready. -/
theorem Ring.schedule_cases :
    (k.count < 2 ∧ k.schedule = k) ∨ ∃ cand, cand < k.count ∧ k.next k.current = some cand
      ∧ ∃ r, r = pick k.count cand (k.serve .running k.current) ∧ r.1 < k.count
        ∧ (k.schedule = r.2 ∧ (r.1 = k.current ∨ (r.2.pool r.1).state ≠ .ready)
          ∨ k.schedule = r.2.switchTo r.1 ∧ r.1 ≠ k.current ∧ (r.2.pool r.1).state = .ready) := by
  have hs := (calm_serve (W := NoWait) .running (by decide) k.current k).kept
  obtain ⟨cand, hcand, hlt⟩ := hr.next_lt hr.current_lt
  unfold Procs.schedule
  by_cases htwo : k.count < 2
  · exact .inl ⟨htwo, if_pos htwo⟩
  rw [if_neg htwo]
  dsimp only
  rw [hs.next, hs.current, hcand, hs.count]
  have hpick : (pick k.count cand (k.serve .running k.current)).1 < k.count := by
    have := (hs.ring hr).pick_lt k.count (hs.count.symm ▸ hlt)
    rwa [hs.count] at this
  refine .inr ⟨cand, hlt, rfl, _, rfl, hpick, ?_⟩
  dsimp only
  split_ifs with h
  · exact .inl ⟨rfl, h⟩
  · rw [not_or, not_not] at h
    exact .inr ⟨rfl, h⟩

theorem Ring.schedule : k.schedule.Ring := by
  have hs := (calm_serve (W := NoWait) .running (by decide) k.current k).kept
  rcases hr.schedule_cases with
    ⟨-, heq⟩ | ⟨cand, -, -, r, rfl, hlt, ⟨heq, -⟩ | ⟨heq, -⟩⟩ <;> rw [heq]
  · exact hr
  · exact (hs.trans (calm_pick (W := NoWait) ..).kept).ring hr
  · have hk := hs.trans (calm_pick (W := NoWait) k.count cand _).kept
    exact (hk.ring hr).switchTo (hk.count.symm ▸ hlt)

end

theorem Ring.afterCall {r : Option ℤ × Procs} (hr : r.2.Ring) : (afterCall r).Ring := by
  unfold Procs.afterCall
  split
  · exact hr.schedule
  · exact hr

section

variable (hr : k.Ring) (ht : (k.pool t).state.Live)
include hr ht

theorem Ring.ipcSend (dst : ℤ) (msg : Option IpcMsg) : (k.ipcSend t dst msg).2.Ring :=
  (calm_ipcSend (W := NoWait) (E := NoEnd) ht dst msg).kept.ring hr

theorem Ring.ipcRecv (src : ℤ) (out : Bool) : (k.ipcRecv t src out).2.Ring :=
  (calm_ipcRecv (W := fun _ _ => True) (E := NoEnd) ht trivial out).kept.ring hr

theorem Ring.ipcSendrec (dst : ℤ) (msg : Option IpcMsg) : (k.ipcSendrec t dst msg).2.Ring :=
  (calm_ipcSendrec (W := fun _ _ => True) (E := NoEnd) ht trivial msg).kept.ring hr

theorem Ring.resume : (k.resume t).2.Ring :=
  (calm_resume (W := fun _ _ => True) (E := NoEnd) ht (fun _ _ _ => trivial)).kept.ring hr

end

/-- The running task reaps its children and ends. -/
theorem Ring.taskEnds (hr : k.Ring) (hcur : (k.pool k.current).state.Live) (status : ℤ) :
    ((k.reapChildren k.current).taskTerminate k.current status).Ring := by
  have hreap := calm_reapChildren (W := NoWait) k.current k
  have hlive : ((k.reapChildren k.current).pool k.current).state.Live := by
    have hl := hreap.live_iff (i := k.current) (fun hz => hcur.2 hz.1)
    exact (hl.2 ⟨hr.current_lt, hcur⟩).2
  exact (calm_taskTerminate (W := NoWait) hlive status).kept.ring (hreap.kept.ring hr)

theorem Ring.execve (hr : k.Ring) (ok : Bool) : (k.execve ok).Ring := by
  have hs := kept_sigTaskInit k.current k
  have hr' := hs.ring hr
  simp only [Procs.execve]
  split_ifs
  · obtain ⟨l, hl⟩ := hr'
    exact ⟨l, hl.congr (fun i _ => upd_field Proc.next (by intro p; rfl) _ _ i) rfl⟩
  · exact hr'

/-- What the running task does keeps the ring. -/
theorem Ring.act (hr : k.Ring) (hrun : (k.pool k.current).state = .running) (e : Event) :
    (k.act e).Ring := by
  have hcur := live_of_running hrun
  cases e with
  | taskCreate fds stack => exact hr.taskCreate hcur.1 fds stack
  | taskFork clones stack => exact hr.taskFork hcur.1 clones stack
  | execve ok => exact hr.execve ok
  | taskExit status => exact (hr.taskEnds hcur status).schedule
  | sigreturn => exact (Kept.ring (kept_upd (by intro p; rfl) _ k) hr).schedule
  | logout t =>
    simp only [Procs.act]
    split_ifs with h
    · exact (calm_taskTerminate (W := NoWait) h.1.2 0).kept.ring hr
    · exact hr
  | wait4 want => exact (calm_sysWait4 (W := NoWait) want k).kept.ring hr
  | kill pid signo => exact (calm_sigSendPid (W := NoWait) pid signo k).kept.ring hr
  | signal signo handler => exact (kept_sigSetHandler ..).ring hr
  | checkUser => exact (calm_signalCheckUser (W := NoWait) k.current k).kept.ring hr
  | ipcSend dst msg => exact Ring.afterCall (hr.ipcSend hcur dst msg)
  | ipcRecv src out => exact Ring.afterCall (hr.ipcRecv hcur src out)
  | ipcSendrec dst msg => exact Ring.afterCall (hr.ipcSendrec hcur dst msg)
  | ipcNbrecv src out =>
    exact (calm_ipcNbrecv (W := NoWait) (E := NoEnd) k.current src out k).kept.ring hr
  | _ => exact hr

/-- **Every event keeps the run list a single ring.** -/
theorem Ring.step (hr : k.Ring) (e : Event) : (k.step e).Ring := by
  refine step_rule hr (fun _ => hr.schedule) (fun t _ ht _ => hr.switchTo ht)
    (fun t _ _ => (calm_sigSend (W := NoWait) t sigint k).kept.ring hr) (fun word value _ _ => ?_)
    (fun _ _ hrun _ => Ring.afterCall (hr.resume ?_)) (fun _ hrun _ => hr.act hrun e)
  · have hkept : Kept k { k with handlers := Function.update k.handlers word value } :=
      ⟨rfl, rfl, rfl, fun _ => rfl⟩
    exact hkept.ring hr
  · exact live_of_running hrun

/-- The idle task alone is a ring. -/
theorem ring_taskingInit : taskingInit.Ring := by
  refine ⟨[], ?_, by simp, fun i => ?_⟩
  · exact ⟨rfl, rfl⟩
  · show i ∈ [0] ↔ i < 1
    simp

end Procs

end Makar
