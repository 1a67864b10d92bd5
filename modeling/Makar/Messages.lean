import Makar.ProcTurn

/-!
# Receivers in every run

A task that waits to receive from a given task waits for a live one only if
the caller sees to it: neither `ipc_recv` nor the end of a task looks after
receivers. `Minded` is what has to be seen to (`receivers_minded`).
-/

namespace Makar

open List

namespace Procs

variable {k k' : Procs} {i s t d : ℕ}

/-- The task is blocked in a receive. -/
def BlockedRecving (k : Procs) (t : ℕ) : Prop :=
  t < k.count ∧ (k.pool t).state = .blocked ∧ (k.pool t).ipcState = .recving

theorem BlockedRecving.live (h : k.BlockedRecving s) : k.Live s := by
  refine ⟨h.1, ?_, ?_⟩ <;> rw [h.2.1] <;> decide

/-- **Every task blocked receiving from a given pid names a live task.** -/
def Attended (k : Procs) : Prop :=
  ∀ t, k.BlockedRecving t → (k.pool t).ipcPartner ≠ ipcAny →
    ∃ d, k.Live d ∧ (k.pool t).ipcPartner = (k.pool d).pid

/-- Another task is blocked receiving from the task. -/
def Awaited (k : Procs) (d : ℕ) : Prop :=
  ∃ t, t ≠ d ∧ k.BlockedRecving t ∧ (k.pool t).ipcPartner = (k.pool d).pid

/-- **The receivers are minded**: whoever comes to wait for a task waits for one
that is alive and does not end in the same event, and no task that may end is
awaited by another. -/
structure Minded (k : Procs) (e : Event) : Prop where
  /-- The task waited for is alive and does not end. -/
  waits : ∀ i src, k.Waits e i src →
    src = ipcAny ∨ ∃ d, k.Live d ∧ src = (k.pool d).pid ∧ ¬ k.Ends e d
  /-- A task that may end is not awaited. -/
  ends : ∀ d, k.Live d → k.Ends e d → ¬ k.Awaited d

/-- A task that waits for a sender is blocked. -/
def Parked (k : Procs) : Prop := ∀ i, (k.pool i).ipcState = .recving → (k.pool i).state = .blocked

variable {e : Event}

theorem Parked.moved (h : Parked k) (hm : Moved k e k') : Parked k' := by
  intro i hi
  rcases hm.cases with ⟨k₁, hk₁, rfl | ⟨t, -, hready, rfl⟩⟩ | ⟨t, userPd, hborn, hipc⟩ | hsame
  · exact (hk₁.slot i).parked (h i) hi
  · refine (switchTo_idle_iff (by decide) hready).2 ((hk₁.slot i).parked (h i) ?_)
    rwa [switchTo_pool] at hi
  · by_cases hit : i = t
    · rw [hit] at hi
      rcases hipc with hidle | ⟨hdead, hfield⟩
      · rw [hidle] at hi
        cases hi
      · have := h t (hfield ▸ hi)
        rw [hdead] at this
        cases this
    · obtain ⟨n, hn⟩ := hborn.other i hit
      rw [hn] at hi ⊢
      exact h i hi
  · rw [hsame.state]
    exact h i (hsame.ipcState i ▸ hi)

/-- Something calm, in a turn that minds the receivers. -/
theorem Attended.calm (h : Attended k) (hp : Parked k) (hm : Minded k e)
    (hc : Calm (k.Waits e) (k.Ends e) k k') : Attended k' := by
  intro t ht hany
  have hstays : ∀ d, k.Live d → ¬ k.Ends e d → (k'.pool t).ipcPartner = (k.pool d).pid →
      ∃ d, k'.Live d ∧ (k'.pool t).ipcPartner = (k'.pool d).pid := fun d hd hends heq =>
    ⟨d, (hc.live_iff hends).2 hd, by rw [heq, hc.kept.pid]⟩
  rcases (hc.slot t).recving ht.2.2 with ⟨hrecv, hsame⟩ | hwaits
  · have hwas : k.BlockedRecving t := ⟨hc.count ▸ ht.1, hp t hrecv, hrecv⟩
    obtain ⟨d, hd, heq⟩ := h t hwas (hsame ▸ hany)
    by_cases hdt : d = t
    · subst hdt
      exact ⟨d, ht.live, by rw [hsame, heq, hc.kept.pid]⟩
    · refine hstays d hd (fun hends => ?_) (hsame.trans heq)
      exact hm.ends d hd hends ⟨t, Ne.symm hdt, hwas, heq⟩
  · rcases hm.waits t _ hwaits with hsrc | ⟨d, hd, heq, hends⟩
    · exact absurd hsrc hany
    · exact hstays d hd hends heq

/-- **Every event that minds the receivers keeps them attended.** -/
theorem Attended.moved (h : Attended k) (hp : Parked k) (hminded : Minded k e)
    (hm : Moved k e k') : Attended k' := by
  rcases hm.cases with ⟨k₁, hk₁, rfl | ⟨t, -, hready, rfl⟩⟩ | ⟨t, userPd, hborn, hipc⟩ | hsame
  · exact h.calm hp hminded hk₁
  · intro i hi hany
    have hwas : k₁.BlockedRecving i := by
      refine ⟨switchTo_count t k₁ ▸ hi.1, (switchTo_idle_iff (by decide) hready).1 hi.2.1, ?_⟩
      have := hi.2.2
      rwa [switchTo_pool] at this
    have hpartner : ((k₁.switchTo t).pool i).ipcPartner = (k₁.pool i).ipcPartner := by
      rw [switchTo_pool]
    obtain ⟨d, hd, heq⟩ := h.calm hp hminded hk₁ i hwas (hpartner ▸ hany)
    exact ⟨d, (switchTo_live_iff hready).2 hd, by rw [hpartner, heq, switchTo_pid]⟩
  · intro i hi hany
    have hit : i ≠ t := by
      rintro rfl
      rw [BlockedRecving, hborn.state] at hi
      cases hi.2.1
    obtain ⟨n, hn⟩ := hborn.other i hit
    have hwas : k.BlockedRecving i := by
      refine ⟨(hborn.slot.lt_iff.1 hi.1).resolve_right hit, ?_⟩
      have := hi.2
      rwa [hn] at this
    rw [hn] at hany ⊢
    obtain ⟨d, hd, heq⟩ := h i hwas hany
    refine ⟨d, hborn.live hd, ?_⟩
    have hdt : d ≠ t := fun he => hborn.not_live (he ▸ hd)
    rw [hborn.pid_of_ne hdt]
    exact heq
  · intro i hi hany
    rw [BlockedRecving, hsame.count, hsame.state, hsame.ipcState] at hi
    rw [hsame.ipcPartner] at hany ⊢
    obtain ⟨d, hd, heq⟩ := h i hi hany
    exact ⟨d, hsame.live_iff.2 hd, by rw [heq, hsame.pid]⟩

/-- **A run that minds the receivers leaves none waiting for nobody.** -/
theorem receivers_minded (es : List Event) (hes : Meets Minded step taskingInit es) :
    Attended (taskingInit.run es) := by
  refine (Meets.invariant (P := fun k => k.Ring ∧ Parked k ∧ Attended k)
    (fun k e h hminded => ?_) ⟨ring_taskingInit, ?_, ?_⟩ hes).2.2
  · obtain ⟨hr, hp, ha⟩ := h
    exact ⟨hr.step e, hp.moved (hr.moved e), ha.moved hp hminded (hr.moved e)⟩
  · intro i hi
    have hidle : (taskingInit.pool i).ipcState = .idle := by
      by_cases h0 : i = 0
      · rw [h0]
        rfl
      · unfold taskingInit
        dsimp only
        rw [Function.update_of_ne h0]
        rfl
    rw [hidle] at hi
    cases hi
  · intro t ht
    have hlt : t < 1 := ht.1
    obtain rfl : t = 0 := by omega
    cases ht.2.1

/-- Two tasks, and the first of them runs. -/
def twoTasks : List Event := [.taskCreate true true, .taskCreate true true, .dispatch 1]

/-- The task receives from the other. -/
def oneReceiver : List Event := twoTasks ++ [.ipcRecv 3 true]

theorem receivers_minded_oneReceiver :
    Meets Minded step taskingInit oneReceiver
      ∧ (taskingInit.run oneReceiver).BlockedRecving 1
      ∧ Attended (taskingInit.run oneReceiver) := by
  have hcalm : ∀ e ∈ twoTasks, ∀ k : Procs, Minded k e := by
    intro e he k
    simp only [twoTasks, mem_cons, not_mem_nil, or_false] at he
    rcases he with rfl | rfl | rfl <;> exact ⟨fun _ _ h => h.elim, fun _ _ h => h.elim⟩
  have hlast : Minded (taskingInit.run twoTasks) (.ipcRecv 3 true) := by
    have hdue : ∀ d, d < (taskingInit.run twoTasks).count →
        (taskingInit.run twoTasks).deliverable d = 0 := by decide
    refine ⟨fun i src h => .inr ⟨2, by decide, ?_, fun hends => hends (hdue 2 (by decide))⟩,
      fun d hd hends => absurd (hdue d hd.1) hends⟩
    rw [h.2]
    decide
  have hmeets : Meets Minded step taskingInit oneReceiver :=
    (meets_append (l := twoTasks)).2 ⟨meets_of_forall hcalm, hlast, trivial⟩
  refine ⟨hmeets, ?_, receivers_minded oneReceiver hmeets⟩
  unfold BlockedRecving
  decide

/-- Nobody wakes a task that receives from a task that ends. -/
theorem receiver_left_waiting : ∃ k, k = taskingInit.run (oneReceiver ++ [.dispatch 2, .taskExit 0])
    ∧ k.BlockedRecving 1 ∧ (k.pool 1).ipcPartner = 3 ∧ ∀ d, k.Live d → ((k.pool d).pid : ℤ) ≠ 3 := by
  refine ⟨_, rfl, ?_, by decide, forall_live (by decide)⟩
  unfold BlockedRecving
  decide

end Procs

end Makar
