import Makar.MachineRun

/-!
# Read-only pages

The text of a program, a page that `SYS_MPROTECT` has protected and a page of a shared
file are mapped without write permission. `fork` does not tell them from the pages that
are writable: it marks every page of the address space copy-on-write, in the parent and in
the child, and the page-fault handler gives write permission to every page with the mark.
So a page that could not be written before the fork can be written after it, by a store in
the parent or in any of its descendants (`text_made_writable`).

The mark is the only way. Of the two handlers of a page fault the other one maps pages that
are missing, and a page that is mapped stays mapped, in the parent as in the clone, through
every `fork` and every fault. `read_only_stays` is the law for the runs of forks and faults in
which no member of the family writes to the page while it has the mark.
-/

namespace Makar

open List Finset Boot

namespace Machine

variable {K : Kernel} {W : Prop} {P : ℕ → ℕ → ℕ → Entry → Prop} {pds : Set ℕ}
  {m m' : Machine} {vm v : Vm} {t k pd pd' i j : ℕ} {e : Entry}

/-! ## Pages that stay when a task ends -/

/-- `surface_gc` leaves the words of memory alone. -/
theorem surfaceGc_mem (k : ℕ) (m : Machine) :
    (m.surfaceGc k).vm.mem = m.vm.mem ∧ (m.surfaceGc k).vm.kpd = m.vm.kpd := by
  unfold surfaceGc
  simp only
  split_ifs
  · refine foldl_invariant (P := fun v : Vm => v.mem = m.vm.mem ∧ v.kpd = m.vm.kpd)
      (fun v f hv => ?_) (m.surf k).phys ⟨rfl, rfl⟩
    split_ifs
    · exact hv
    · exact hv
  · exact ⟨rfl, rfl⟩

/-- **`surface_release_task`** removes pages of the task only. -/
theorem Inv.maps_surfaceReleaseTask (h : m.Inv K W anyPage) (hpd' : pd' ∈ m.pds)
    (hne : (m.tasks t).pageDir ≠ some pd') (hm : m.vm.Maps pd' i j e) :
    (m.surfaceReleaseTask t).vm.Maps pd' i j e := by
  refine (foldl_invariant (P := fun m' : Machine => m'.Inv K W anyPage ∧ m'.tasks = m.tasks
    ∧ m'.vm.Maps pd' i j e) (fun m' k hm' => ?_) (range surfaceMax) ⟨h, rfl, hm⟩).2.2
  obtain ⟨hinv, htasks, hmaps⟩ := hm'
  refine ⟨hinv.releaseSurface t k, releaseSurface_tasks.1.trans htasks, ?_⟩
  unfold Machine.releaseSurface
  by_cases huse : (m'.surf k).inUse = true
  · simp only [huse, if_true]
    rw [Vm.maps_of_mem (surfaceGc_mem _ _).1 (surfaceGc_mem _ _).2]
    refine (foldl_releaseSlots (m'.surf k).map hinv.vm (fun pd hd => mem_pds hd)
      (fun x hx _ => (hinv.slots k x hx).2.2)).2 pd' ?_ (by rw [htasks]; exact hne) i j e hmaps
    unfold pds
    rw [htasks]
    exact hpd'
  · simp only [huse]
    exact hmaps

/-- What the end of a task leaves of another address space. -/
theorem Inv.maps_taskExit (h : m.Inv K W anyPage) (hpd' : pd' ∈ m.pds)
    (hne : (m.tasks t).pageDir ≠ some pd') (hm : m.vm.Maps pd' i j e) :
    (m.taskExit t).vm.Maps pd' i j e := by
  obtain ⟨hinv, hvm, -, -, hsame⟩ := h.foldl_reapChild (t := t) (range' 1 (m.taskCount - 1)) rfl
  refine hinv.maps_surfaceReleaseTask ?_ (by rw [(hsame t).1]; exact hne) (by rw [hvm]; exact hm)
  obtain ⟨u, hu⟩ := hpd'
  exact ⟨u, (hsame u).1.trans hu⟩

/-- Which tasks are live after one has ended. -/
theorem live_taskExit {u : ℕ} (hlive : ((m.taskExit t).tasks u).state = .live)
    (h : m.Inv K W anyPage) :
    u ≠ t ∧ (m.tasks u).state = .live
      ∧ ((m.taskExit t).tasks u).pageDir = (m.tasks u).pageDir := by
  have hreap := h.foldl_reapChild (t := t) (range' 1 (m.taskCount - 1)) rfl
  unfold taskExit taskTerminate at hlive ⊢
  generalize (range' 1 (m.taskCount - 1)).foldl (reapChild t) m = m' at hreap hlive
  obtain ⟨hinv, -, -, -, hsame⟩ := hreap
  have htasks := (hinv.surfaceReleaseTask t).2.2.1
  simp only [setState] at hlive ⊢
  by_cases hu : u = t
  · subst hu
    rw [setTask_self] at hlive
    simp only at hlive
    split_ifs at hlive
  · rw [setTask_of_ne hu, htasks] at hlive ⊢
    exact ⟨hu, (hsame u).2 hlive, (hsame u).1⟩

/-! ## Read-only pages -/

/-- The page at the address is mapped for the task, and not for writing. -/
def ReadOnly (m : Machine) (t virt : ℕ) : Prop :=
  ∃ e, m.entryAt t virt = some e ∧ e.present = true ∧ e.user = true ∧ e.writable = false

/-- A read-only page, by the place where it is mapped. -/
def ReadOnlyIn (v : Vm) (pd virt : ℕ) : Prop :=
  ∃ e, v.Maps pd (pdIndex virt) (ptIndex virt) e ∧ e.user = true ∧ e.writable = false

theorem Inv.readOnly_iff {virt : ℕ} (h : m.Inv K W anyPage) (hv : virt < 2 ^ 32)
    (hd : (m.tasks t).pageDir = some pd) : m.ReadOnly t virt ↔ ReadOnlyIn m.vm pd virt := by
  constructor
  · rintro ⟨e, he, hp, hu, hw⟩
    exact ⟨e, h.maps_of_entryAt hv hd he hp hu, hu, hw⟩
  · rintro ⟨e, hm, hu, hw⟩
    have hp : e.present = true := hm.choose_spec.2.2.2
    exact ⟨e, entryAt_of_maps hd hm, hp, hu, hw⟩

theorem ReadOnlyIn.of_persists {virt : ℕ} (h : ReadOnlyIn vm pd virt)
    (hs : Vm.Persists pds vm v) (hpd : pd ∈ pds) : ReadOnlyIn v pd virt := by
  obtain ⟨e, hm, hu, hw⟩ := h
  rcases hs pd hpd _ _ e hm with hm | hm
  · exact ⟨e, hm, hu, hw⟩
  · exact ⟨e.share, hm, hu, rfl⟩

end Machine

/-! ## A family of tasks -/

/-- The machine, and the slots of the tasks that descend from one task, with that task. -/
structure Family where
  /-- The machine. -/
  machine : Machine
  /-- The members. -/
  members : Finset ℕ

namespace Family

open Machine

variable {K : Kernel} {s : Family} {virt t : ℕ} {ev : Event}

/-- The slot a fork has filled, from the state before and the state after it. -/
def filled (stackOk : Bool) (m m' : Machine) : Option ℕ :=
  if m'.nextPid = m.nextPid then none else (m.claimSlot stackOk).1

/-- The members after an event: the child of a member is one. -/
def descend (s : Family) : Event → Finset ℕ
  | .fork t fdsOk stackOk =>
    match filled stackOk s.machine (s.machine.step (.fork t fdsOk stackOk)) with
    | some i => if t ∈ s.members then insert i s.members else s.members.erase i
    | none => s.members
  | _ => s.members

/-- A step of the machine. -/
def step (s : Family) (ev : Event) : Family := ⟨s.machine.step ev, s.descend ev⟩

/-- Only forks and page faults are looked at. -/
def ForkOrFault : Event → Prop
  | .fork .. | .fault .. => True
  | _ => False

/-- No member writes to the page at the address while it is marked copy-on-write. -/
def Spares (virt : ℕ) (s : Family) : Event → Prop
  | .fault t addr write => write = true → t ∈ s.members →
    pdIndex addr.toNat = pdIndex virt → ptIndex addr.toNat = ptIndex virt →
      ∀ e, s.machine.entryAt t virt = some e → e.cow = false
  | _ => True

/-- **The condition on a step.** -/
def Ok (K : Kernel) (virt : ℕ) (s : Family) (ev : Event) : Prop :=
  ForkOrFault ev ∧ s.machine.Guard K.Shared False ev ∧ s.Spares virt ev

/-- **The invariant**: the page is read-only for every live member. -/
structure Kept (K : Kernel) (virt : ℕ) (s : Family) : Prop where
  /-- The machine is in order. -/
  inv : s.machine.Inv K False anyPage
  /-- The page. -/
  page : ∀ u ∈ s.members, (s.machine.tasks u).state = .live → ∃ pd,
    (s.machine.tasks u).pageDir = some pd ∧ ReadOnlyIn s.machine.vm pd virt

/-- A live task's step is taken. -/
theorem step_eq_act {m : Machine} {ev : Event} (hlive : (m.tasks ev.task).state = .live)
    (hrun : m.panicked = false) : m.step ev = m.act ev :=
  if_neg (by simp [hlive, hrun])

/-- A fork. -/
theorem Kept.fork (h : s.Kept K virt) {fdsOk stackOk : Bool}
    (hlive : (s.machine.tasks t).state = .live) (hrun : s.machine.panicked = false)
    (hok : s.machine.ForkOk t) : (s.step (.fork t fdsOk stackOk)).Kept K virt := by
  have hinv : (s.machine.step (.fork t fdsOk stackOk)).Inv K False anyPage :=
    h.inv.step hok (carries_anyPage _ _)
  have hstep : s.machine.step (.fork t fdsOk stackOk) = s.machine.taskFork t fdsOk stackOk :=
    step_eq_act hlive hrun
  refine ⟨hinv, ?_⟩
  unfold step descend filled
  simp only
  rw [hstep]
  rcases (h.inv.taskFork hok fdsOk stackOk
    fun _ _ _ _ _ _ => ⟨trivial, fun _ _ => trivial⟩).2 with hfail | ⟨i, hfork⟩
  · rw [if_pos hfail.pid, hfail.tasks]
    intro u hu hl
    obtain ⟨pd, hd, hpage⟩ := h.page u hu hl
    exact ⟨pd, hd, hpage.of_persists hfail.stays (mem_pds hd)⟩
  · have hpid : (s.machine.taskFork t fdsOk stackOk).nextPid ≠ s.machine.nextPid := by
      rw [hfork.pid]
      exact Nat.succ_ne_self _
    rw [if_neg hpid, hfork.slot]
    -- the members other than the child
    have hother : ∀ u ∈ s.members, u ≠ i →
        ((s.machine.taskFork t fdsOk stackOk).tasks u).state = .live → ∃ pd,
          ((s.machine.taskFork t fdsOk stackOk).tasks u).pageDir = some pd
            ∧ ReadOnlyIn (s.machine.taskFork t fdsOk stackOk).vm pd virt := by
      intro u hu hui hl
      rw [hfork.other u hui] at hl ⊢
      obtain ⟨pd, hd, hpage⟩ := h.page u hu hl
      exact ⟨pd, hd, hpage.of_persists hfork.stays (mem_pds hd)⟩
    simp only
    split_ifs with ht
    · intro u hu hl
      by_cases hui : u = i
      · subst hui
        obtain ⟨c, ppd, hc, hpd, hchild⟩ := hfork.child
        obtain ⟨pd, hd, e, hm, huser, -⟩ := h.page t ht hlive
        obtain rfl : ppd = pd := Option.some_injective _ (hpd.symm.trans hd)
        exact ⟨c, hc, e.share, hchild _ _ e hm, huser, rfl⟩
      · exact hother u ((mem_insert.1 hu).resolve_left hui) hui hl
    · intro u hu hl
      obtain ⟨hui, hu⟩ := mem_erase.1 hu
      exact hother u hu hui hl

/-- A page fault. -/
theorem Kept.fault (h : s.Kept K virt) {addr : UInt32} {write : Bool}
    (hlive : (s.machine.tasks t).state = .live) (hrun : s.machine.panicked = false)
    (hok : s.machine.FaultOk K.Shared t addr) (hspare : s.Spares virt (.fault t addr write)) :
    (s.step (.fault t addr write)).Kept K virt := by
  have hinv : (s.machine.step (.fault t addr write)).Inv K False anyPage :=
    h.inv.step hok (carries_anyPage _ _)
  have hstep : s.machine.step (.fault t addr write) = s.machine.pageFault t addr write :=
    step_eq_act hlive hrun
  refine ⟨hinv, ?_⟩
  show ∀ u ∈ s.members, ((s.machine.step (.fault t addr write)).tasks u).state = .live → ∃ pd,
    ((s.machine.step (.fault t addr write)).tasks u).pageDir = some pd
      ∧ ReadOnlyIn (s.machine.step (.fault t addr write)).vm pd virt
  rw [hstep]
  unfold pageFault
  cases hd : (s.machine.tasks t).pageDir with
  | none => exact h.page
  | some pd =>
    simp only
    cases hanon : tryHandleAnonFault (s.machine.tasks t) pd addr.toNat s.machine.vm with
    | some v =>
      obtain ⟨-, hstay⟩ := h.inv.tryHandleAnonFault (mem_pds hd) addr.toNat_lt (hok pd hd) hanon
        (fun _ _ _ => trivial)
      intro u hu hl
      obtain ⟨pd', hd', e, hm, huser, hw⟩ := h.page u hu hl
      exact ⟨pd', hd', e, hstay pd' (mem_pds hd') _ _ e hm, huser, hw⟩
    | none =>
      simp only
      cases hcow : tryHandleCowFault pd addr.toNat write s.machine.vm with
      | some v =>
        obtain ⟨-, ⟨hw, e₀, hm₀, hc₀⟩, hstay⟩ := h.inv.tryHandleCowFault (mem_pds hd) addr.toNat_lt
          hcow (fun _ _ _ _ _ => trivial)
        intro u hu hl
        obtain ⟨pd', hd', e, hm, huser, hwr⟩ := h.page u hu hl
        refine ⟨pd', hd', e, hstay pd' (mem_pds hd') _ _ e hm ?_, huser, hwr⟩
        -- the page with the mark is not the member's
        rintro ⟨rfl, hi, hj⟩
        obtain rfl : u = t := h.inv.dirs u t pd' hd' hd
        rw [← hi, ← hj] at hm₀
        have hclear := hspare hw hu hi.symm hj.symm e₀ (entryAt_of_maps hd hm₀)
        rw [hc₀] at hclear
        cases hclear
      | none =>
        intro u hu hl
        obtain ⟨hut, hl₀, hdir⟩ := live_taskExit hl h.inv
        obtain ⟨pd', hd', e, hm, huser, hw⟩ := h.page u hu hl₀
        refine ⟨pd', hdir.trans hd', e, h.inv.maps_taskExit (mem_pds hd') ?_ hm, huser, hw⟩
        exact fun hdt => hut (h.inv.dirs u t pd' hd' hdt)

/-- **A step keeps the page read-only.** -/
theorem Kept.step (h : s.Kept K virt) (hok : s.Ok K virt ev) : (s.step ev).Kept K virt := by
  by_cases hno : s.machine.panicked = true ∨ (s.machine.tasks ev.task).state ≠ .live
  · -- nothing happens, and no process is made
    have hsame : s.machine.step ev = s.machine := if_pos hno
    have hmembers : s.descend ev = s.members := by
      cases ev with
      | fork t fdsOk stackOk =>
        unfold descend filled
        simp only
        rw [hsame, if_pos rfl]
      | _ => rfl
    have heq : s.step ev = s := by
      unfold Family.step
      rw [hsame, hmembers]
    rw [heq]
    exact h
  · push Not at hno
    have hrun : s.machine.panicked = false := Bool.not_eq_true _ ▸ hno.1
    obtain ⟨hkind, hguard, hspare⟩ := hok
    cases ev with
    | fork t fdsOk stackOk => exact h.fork hno.2 hrun hguard
    | fault t addr write => exact h.fault hno.2 hrun hguard hspare
    | _ => exact hkind.elim

/-- **A read-only page stays read-only**: through every run of forks and page faults in which
no member of the family writes to it while it is marked copy-on-write, for every live member
of the family. -/
theorem read_only_stays (b : Boot) {es ds : List Event} {t : ℕ} {virt : UInt32}
    (hes : Meets (Guard b.kernel.Shared False) Machine.step b.machine es)
    (hro : (b.machine.run es).ReadOnly t virt.toNat)
    (hds : Meets (Ok b.kernel virt.toNat) step ⟨b.machine.run es, {t}⟩ ds) :
    ∀ u ∈ (ds.foldl step ⟨b.machine.run es, {t}⟩).members,
      ((ds.foldl step ⟨b.machine.run es, {t}⟩).machine.tasks u).state = .live →
        (ds.foldl step ⟨b.machine.run es, {t}⟩).machine.ReadOnly u virt.toNat := by
  have hinv := b.inv_run hes
  have hstart : Kept b.kernel virt.toNat ⟨b.machine.run es, {t}⟩ := by
    refine ⟨hinv, fun u hu _ => ?_⟩
    obtain rfl := Finset.mem_singleton.1 hu
    obtain ⟨pd, hd⟩ : ∃ pd, ((b.machine.run es).tasks u).pageDir = some pd := by
      obtain ⟨e, he, -⟩ := hro
      obtain ⟨pd, hd, -⟩ := Option.bind_eq_some_iff.1 he
      exact ⟨pd, hd⟩
    exact ⟨pd, hd, (hinv.readOnly_iff virt.toNat_lt hd).1 hro⟩
  have hend := hds.invariant (fun _ _ h hok => h.step hok) hstart
  intro u hu hl
  obtain ⟨pd, hd, hpage⟩ := hend.page u hu hl
  exact (hend.inv.readOnly_iff virt.toNat_lt hd).2 hpage

/-- The program of the small boot may fork. -/
theorem forkOk_startRun : (Boot.small.machine.run startRun).ForkOk 1 := by
  have hinv := small.inv_run (W := False) meets_startRun
  have hsurf := surf_startRun
  have hrefs := refs_startRun
  generalize small.machine.run startRun = m at hinv hsurf hrefs ⊢
  refine ⟨fun k x hx => ?_, fun pd hd => hinv.vm.room_of_refs (mem_pds hd) hrefs⟩
  rw [hsurf] at hx
  cases eq_of_mem_replicate hx

/-- The program of the small boot, and what descends from it. -/
abbrev start : Family := ⟨Boot.small.machine.run startRun, {1}⟩

theorem meets_fork : Meets (Ok Boot.small.kernel (0x40000000 : UInt32).toNat) step start
    [.fork 1 true true] := by
  have hok := forkOk_startRun
  unfold start
  generalize small.machine.run startRun = m at hok ⊢
  exact ⟨⟨trivial, hok, trivial⟩, trivial⟩

set_option maxRecDepth 1000000 in
/-- The fork has made a task. -/
theorem child_start : 2 ∈ (start.step (.fork 1 true true)).members
    ∧ ((start.step (.fork 1 true true)).machine.tasks 2).state = .live := by decide +kernel

theorem read_only_stays_small : 2 ∈ (start.step (.fork 1 true true)).members
    ∧ (start.step (.fork 1 true true)).machine.ReadOnly 2 (0x40000000 : UInt32).toNat := by
  have htext : (small.machine.run startRun).ReadOnly 1 (0x40000000 : UInt32).toNat :=
    ⟨Entry.leaf 1025 false, by decide +kernel, rfl, rfl, rfl⟩
  have hstays := read_only_stays small meets_startRun htext meets_fork
  rw [foldl_cons, foldl_nil] at hstays
  have hchild := child_start
  generalize start.step (.fork 1 true true) = s at hstays hchild ⊢
  exact ⟨hchild.1, hstays 2 hchild.1 hchild.2⟩

set_option maxRecDepth 1000000 in
/-- **The text of a program is made writable**: a page that the program has mapped read-only,
without the mark, is writable for its child after a fork and a store of the child. -/
theorem text_made_writable :
    start.machine.entryAt 1 0x40000000 = some (Entry.leaf 1025 false)
      ∧ 2 ∈ ([Event.fork 1 true true, .fault 2 0x40000000 true].foldl step start).members
      ∧ ([Event.fork 1 true true, .fault 2 0x40000000 true].foldl step start).machine.entryAt
        2 0x40000000 = some (Entry.leaf 1039 true) := by decide +kernel

end Family

end Makar
