import Makar.MachineSurface

/-!
# Tasks

A task that ends lets go of its surfaces, and keeps its address space until its
slot is used again; only then is the address space freed. `fork` makes the clone
before it has a slot for the child, and `exec` the new address space before the
old one is freed, so in between there is an address space without a task. The
lemmas here are about the address spaces of the machine and a set `E` of others.

The old address space of `exec`, and every address space that is cloned, must
not have a surface in it: for these calls every page is counted.
-/

namespace Makar

open List Set

/-- The segment has a page at the address, when it is loaded at `base`. -/
def Segment.HasPage (base : ℕ) (g : Segment) (virt : ℕ) : Prop :=
  g.memsz.toNat ≠ 0 ∧ userFloor ≤ g.start base
    ∧ ∃ i, i < g.pages base ∧ virt = pageAt (pageBase (g.start base)) i

/-- The image has a page at the address, with that permission: one of its
segments, of its interpreter, or of the stack. -/
def Image.HasPage (x : Image) (virt : ℕ) (write : Bool) : Prop :=
  (∃ g ∈ x.segments, g.HasPage x.base virt ∧ g.write = write)
    ∨ (∃ l, x.interp = .image l ∧ ∃ g ∈ l, g.HasPage Image.interpBase virt ∧ g.write = write)
    ∨ write = true ∧ ∃ i, i < userStackPages ∧ virt = userStackTop - (i + 1) * pmmFrameSize

namespace Machine

variable {K : Kernel} {W : Prop} {O : ℕ → ℕ → ℕ → Entry → Prop} {P : ℕ → ℕ → ℕ → Entry → Prop}
  {S pds E : Set ℕ} {L : Multiset ℕ} {m m' : Machine} {vm v : Vm} {x : Task}
  {t k k' p pd i j f n base : ℕ} {e : Entry}

/-! ## The task table -/

theorem setTask_self : (m.setTask i x).tasks i = x := by simp [setTask]

theorem setTask_of_ne (hj : j ≠ i) : (m.setTask i x).tasks j = m.tasks j := by
  simp [setTask, hj]

/-- A task that is not dead is in the table. -/
theorem Shape.lt_taskCount (h : m.Shape K) (ht : (m.tasks t).state ≠ .dead) : t < m.taskCount := by
  by_contra hge
  exact ht (h.unused t (Nat.not_lt.1 hge)).2

/-- Only live tasks map surfaces. -/
theorem Shape.noMaps (h : m.Shape K) (ht : (m.tasks t).state ≠ .live) : m.NoMaps t := by
  rintro k x hx rfl
  exact ht (h.slots k x hx).1

/-- A task without surfaces may change: its slot says nothing about pages. -/
theorem pages_setTask (hno : m.NoMaps i) : (m.setTask i x).Pages O = m.Pages O := by
  have hslot : ∀ pd i' j k, (m.setTask i x).SlotAt pd i' j k ↔ m.SlotAt pd i' j k := by
    intro pd i' j k
    unfold SlotAt
    refine exists_congr (fun y => and_congr_right (fun hy => ?_))
    have hy' : some y ∈ (m.surf k).map := hy
    rw [setTask_of_ne (hno k y hy')]
    rfl
  funext pd i' j e
  unfold Pages PageOk
  simp only [hslot]
  rfl

/-- **A slot of the task table changes**, where the task has no surfaces and the
address space it gets is no other task's. -/
theorem Shape.setTask (h : m.Shape K) (hi : i < m.taskCount) (hno : m.NoMaps i)
    (hnew : ∀ c, x.pageDir = some c → ∀ u, u ≠ i → (m.tasks u).pageDir ≠ some c) :
    (m.setTask i x).Shape K := by
  refine ⟨fun t u pd ht hu => ?_, fun t ht => ?_, h.free, h.range, fun k y hy => ?_, h.cached,
    h.sized⟩
  · by_cases hti : t = i
    · by_cases hui : u = i
      · rw [hti, hui]
      · rw [hti, setTask_self] at ht
        rw [setTask_of_ne hui] at hu
        exact absurd hu (hnew pd ht u hui)
    · rw [setTask_of_ne hti] at ht
      by_cases hui : u = i
      · rw [hui, setTask_self] at hu
        exact absurd ht (hnew pd hu t hti)
      · rw [setTask_of_ne hui] at hu
        exact h.dirs t u pd ht hu
  · have hlt : m.taskCount ≤ t := ht
    rw [setTask_of_ne (by omega)]
    exact h.unused t hlt
  · rw [setTask_of_ne (hno k y hy)]
    exact h.slots k y hy

/-! ## The end of a task -/

/-- The state of a task without surfaces may change. -/
theorem Inv.setState (h : m.Inv K W O) (hno : m.NoMaps t) (ht : t < m.taskCount)
    (state : TaskState) : (m.setState t state).Inv K W O := by
  unfold Machine.setState
  have hd : ({ m.tasks t with state := state } : Task).pageDir = (m.tasks t).pageDir := rfl
  refine ⟨h.toShape.setTask ht hno (fun c hc u hu hcu => hu (h.dirs u t c hcu hc)), ?_⟩
  rw [setLayout_pds hd, pages_setTask hno]
  exact h.vm

theorem surfaceGc_tasks : (m.surfaceGc k).tasks = m.tasks ∧ (m.surfaceGc k).taskCount = m.taskCount := by
  unfold surfaceGc
  simp only []
  split_ifs <;> exact ⟨rfl, rfl⟩

theorem surfaceGc_surf_of_ne (hk : k' ≠ k) : (m.surfaceGc k).surf k' = m.surf k' := by
  unfold surfaceGc
  simp only []
  split_ifs
  · exact setSurf_of_ne hk
  · rfl

theorem surfaceGc_map {y : MapSlot} (hy : some y ∈ ((m.surfaceGc k).surf k).map) :
    some y ∈ (m.surf k).map := by
  unfold surfaceGc at hy
  simp only [] at hy
  split_ifs at hy
  · rw [setSurf_self] at hy
    cases eq_of_mem_replicate hy
  · exact hy

theorem releaseSurface_tasks :
    (releaseSurface t m k).tasks = m.tasks ∧ (releaseSurface t m k).taskCount = m.taskCount := by
  unfold releaseSurface
  by_cases huse : (m.surf k).inUse = true
  · simp only [huse, if_true]
    exact surfaceGc_tasks
  · simp only [huse]
    exact ⟨rfl, rfl⟩

theorem releaseSurface_surf_of_ne (hk : k' ≠ k) : (releaseSurface t m k).surf k' = m.surf k' := by
  unfold releaseSurface
  by_cases huse : (m.surf k).inUse = true
  · simp only [huse, if_true]
    rw [surfaceGc_surf_of_ne hk, setSurf_of_ne hk]
  · simp only [huse]
    rfl

/-- A turn of `surface_release_task` leaves no slot of the task. -/
theorem Shape.releaseSurface_map (h : m.Shape K) {y : MapSlot}
    (hy : some y ∈ ((releaseSurface t m k).surf k).map) : y.task ≠ t := by
  unfold releaseSurface at hy
  by_cases huse : (m.surf k).inUse = true
  · simp only [huse, if_true] at hy
    have hmap := surfaceGc_map hy
    rw [setSurf_self] at hmap
    obtain ⟨o, -, ho⟩ := mem_map.1 hmap
    exact of_decide_eq_true (Option.filter_eq_some_iff.1 ho).2
  · simp only [huse] at hy
    rw [if_neg Bool.false_ne_true, h.free k (Bool.not_eq_true _ ▸ huse)] at hy
    cases eq_of_mem_replicate hy

section

variable (h : m.Inv K W O)
include h

/-- **`surface_release_task`** leaves the task without surfaces. -/
theorem Inv.surfaceReleaseTask (t : ℕ) :
    (m.surfaceReleaseTask t).Inv K W O ∧ (m.surfaceReleaseTask t).NoMaps t
      ∧ (m.surfaceReleaseTask t).tasks = m.tasks
      ∧ (m.surfaceReleaseTask t).taskCount = m.taskCount := by
  have hloop : ∀ n, ((range n).foldl (Machine.releaseSurface t) m).Inv K W O
      ∧ (∀ k < n, ∀ y, some y ∈ (((range n).foldl (Machine.releaseSurface t) m).surf k).map →
        y.task ≠ t)
      ∧ ((range n).foldl (Machine.releaseSurface t) m).tasks = m.tasks
      ∧ ((range n).foldl (Machine.releaseSurface t) m).taskCount = m.taskCount := by
    intro n
    induction n with
    | zero => exact ⟨h, fun k hk => absurd hk (Nat.not_lt_zero k), rfl, rfl⟩
    | succ n ih =>
      rw [range_succ, foldl_append]
      obtain ⟨hinv, hslots, htasks, hcount⟩ := ih
      refine ⟨hinv.releaseSurface t n, fun k hk y hy => ?_, releaseSurface_tasks.1.trans htasks,
        releaseSurface_tasks.2.trans hcount⟩
      by_cases hkn : k = n
      · rw [hkn] at hy
        exact hinv.toShape.releaseSurface_map hy
      · rw [foldl_cons, foldl_nil, releaseSurface_surf_of_ne hkn] at hy
        exact hslots k (by omega) y hy
  obtain ⟨hinv, hslots, htasks, hcount⟩ := hloop surfaceMax
  refine ⟨hinv, fun k y hy => ?_, htasks, hcount⟩
  by_cases hk : k < surfaceMax
  · exact hslots k hk y hy
  · have hempty := hinv.free k (hinv.range k (Nat.not_lt.1 hk))
    unfold Machine.surfaceReleaseTask at hy
    rw [hempty] at hy
    cases eq_of_mem_replicate hy

/-- **`task_terminate`.** -/
theorem Inv.taskTerminate (ht : t < m.taskCount) : (m.taskTerminate t).Inv K W O := by
  obtain ⟨hinv, hno, -, hcount⟩ := h.surfaceReleaseTask t
  unfold Machine.taskTerminate
  exact hinv.setState hno (by rw [hcount]; exact ht) _

/-- A zombie is reaped. -/
theorem Inv.reap {c : ℕ} (hz : (m.tasks c).state = .zombie) : (m.setState c .dead).Inv K W O := by
  refine h.setState (h.noMaps ?_) (h.lt_taskCount ?_) _
  · rw [hz]
    decide
  · rw [hz]
    decide

/-- Reaping children leaves memory, the surfaces and the address spaces, and makes no task live. -/
theorem Inv.foldl_reapChild (l : List ℕ) {m' : Machine} (hm' : m' = l.foldl (reapChild t) m) :
    m'.Inv K W O ∧ m'.vm = m.vm ∧ m'.surf = m.surf ∧ m'.taskCount = m.taskCount
      ∧ ∀ u, (m'.tasks u).pageDir = (m.tasks u).pageDir
        ∧ ((m'.tasks u).state = .live → (m.tasks u).state = .live) := by
  induction l generalizing m with
  | nil =>
    subst hm'
    exact ⟨h, rfl, rfl, rfl, fun _ => ⟨rfl, id⟩⟩
  | cons c l ih =>
    rw [foldl_cons, reapChild] at hm'
    split_ifs at hm' with hc
    · obtain ⟨hinv, hvm, hsurf, hcount, hsame⟩ := ih (h.reap hc.1) hm'
      refine ⟨hinv, hvm, hsurf, hcount, fun u => ⟨(hsame u).1.trans ?_, fun hl => ?_⟩⟩
      · exact setTask_pageDir (x := { m.tasks c with state := .dead }) rfl u
      · have hl := (hsame u).2 hl
        unfold Machine.setState at hl
        by_cases hu : u = c
        · rw [hu, setTask_self] at hl
          cases hl
        · rwa [setTask_of_ne hu] at hl
    · exact ih h hm'

/-- **`task_exit`.** -/
theorem Inv.taskExit (ht : t < m.taskCount) : (m.taskExit t).Inv K W O := by
  obtain ⟨hinv, -, -, hcount, -⟩ := h.foldl_reapChild (t := t) (range' 1 (m.taskCount - 1)) rfl
  exact hinv.taskTerminate (by rw [hcount]; exact ht)

/-- **`SYS_WAIT4`.** -/
theorem Inv.sysWait4 (t c : ℕ) : (m.sysWait4 t c).Inv K W O := by
  unfold Machine.sysWait4
  split_ifs with hc
  · exact h.reap hc.1
  · exact h

end

/-! ## New tasks -/

/-- What `claimSlot` leaves: a slot without a task and without an address
space. -/
structure Claimed (K : Kernel) (W : Prop) (O : ℕ → ℕ → ℕ → Entry → Prop) (E : Set ℕ) (m : Machine)
    (i : ℕ) (m' : Machine) : Prop where
  /-- The tables of the kernel are in order. -/
  shape : m'.Shape K
  /-- The address spaces are in order. -/
  vm : m'.vm.Inv K W m'.surfFrames (m'.Pages O) (E ∪ m'.pds) m'.loose
  /-- The slot is in the table. -/
  lt : i < m'.taskCount
  /-- The slot is dead, and was. -/
  dead : (m'.tasks i).state = .dead ∧ (m.tasks i).state = .dead
  /-- It has no address space. -/
  dir : (m'.tasks i).pageDir = none
  /-- The other tasks stay. -/
  other : ∀ u, u ≠ i → m'.tasks u = m.tasks u

/-- The address spaces other than a task's. -/
theorem Shape.pds_diff (h : m.Shape K) (hd : (m.tasks i).pageDir = some pd) (hx : x.pageDir = none) :
    (m.setTask i x).pds = m.pds \ {pd} := by
  ext c
  constructor
  · rintro ⟨u, hu⟩
    by_cases hui : u = i
    · rw [hui, setTask_self, hx] at hu
      cases hu
    · rw [setTask_of_ne hui] at hu
      refine ⟨⟨u, hu⟩, ?_⟩
      rintro rfl
      exact hui (h.dirs u i _ hu hd)
  · rintro ⟨⟨u, hu⟩, hne⟩
    refine ⟨u, ?_⟩
    rw [setTask_of_ne]
    · exact hu
    · rintro rfl
      rw [hd] at hu
      injection hu with hu
      exact hne hu.symm

/-- A task without an address space may get a new slot value without one. -/
theorem pds_none (hd : (m.tasks i).pageDir = none) (hx : x.pageDir = none) :
    (m.setTask i x).pds = m.pds :=
  setLayout_pds (hx.trans hd.symm)

/-- The address space of a task without surfaces has no page of a surface. -/
theorem Shape.not_surface (h : m.Shape K) (hno : m.NoMaps i) (hd : (m.tasks i).pageDir = some pd)
    {i' : ℕ} (hp : m.PageOk pd i' j e) : e.frame ∉ m.surfFrames := by
  rintro ⟨k, hk⟩
  obtain ⟨y, hy, hyd, -⟩ := hp.2 k hk
  exact hno k y hy (h.dirs y.task i pd hyd hd)

/-- The address space that is freed is no longer one of the machine's. -/
theorem Shape.freeDir (h : m.Shape K) (hno : m.NoMaps i) (hE : ∀ c ∈ E, c ∉ m.pds)
    (hx : x.pageDir = none) (hv : v.Inv K W m.surfFrames (m.Pages O) (E ∪ m.pds) m.loose) :
    (Machine.freeDir (m.tasks i).pageDir v).Inv K W m.surfFrames (m.Pages O)
      (E ∪ (m.setTask i x).pds) m.loose := by
  cases hd : (m.tasks i).pageDir with
  | none =>
    rw [pds_none hd hx]
    exact hv
  | some pd =>
    have hpd : pd ∉ E := fun hc => hE pd hc (mem_pds hd)
    have hdrop := hv.vmmFreePd (.inr (mem_pds hd)) (fun i' j' e hm =>
      h.not_surface hno hd (hv.maps pd (.inr (mem_pds hd)) i' j' e hm).1)
    rw [union_sdiff_distrib, sdiff_singleton_eq_self hpd] at hdrop
    rw [h.pds_diff hd hx]
    exact hdrop

/-- **A slot for a new task.** -/
theorem Shape.claimSlot (h : m.Shape K)
    (hv : m.vm.Inv K W m.surfFrames (m.Pages O) (E ∪ m.pds) m.loose) (hE : ∀ c ∈ E, c ∉ m.pds)
    (stackOk : Bool) :
    m.claimSlot stackOk = (none, m)
      ∨ ∃ i m', m.claimSlot stackOk = (some i, m') ∧ Claimed K W O E m i m' := by
  unfold Machine.claimSlot
  cases hfind : (range' 1 (m.taskCount - 1)).find? (fun i => (m.tasks i).state = .dead) with
  | some i =>
    right
    have hdead : (m.tasks i).state = .dead := by
      have hsome := find?_some hfind
      exact of_decide_eq_true hsome
    have hi : i < m.taskCount := by
      have hmem := mem_range'_1.1 (mem_of_find?_eq_some hfind)
      omega
    have hno : m.NoMaps i := h.noMaps (by rw [hdead]; decide)
    have hshape : ∀ v, ({ m with vm := v }.setTask i { m.tasks i with pageDir := none }).Shape K :=
      fun v => Shape.setTask (m := { m with vm := v })
        (h.setVm v) hi hno (fun c hc => by cases hc)
    have hpages : ∀ v, ({ m with vm := v }.setTask i { m.tasks i with pageDir := none }).Pages O
        = m.Pages O := fun v => pages_setTask (m := { m with vm := v }) hno
    refine ⟨i, _, rfl, hshape _, ?_, hi, ⟨?_, hdead⟩, ?_, fun u hu => setTask_of_ne hu⟩
    · rw [hpages]
      exact h.freeDir hno hE rfl hv
    · rw [setTask_self]
      exact hdead
    · rw [setTask_self]
  | none =>
    simp only []
    split_ifs with hfull
    · left
      rfl
    · right
      obtain ⟨hdir, hdead⟩ := h.unused m.taskCount le_rfl
      refine ⟨m.taskCount, _, rfl, ⟨h.dirs, fun t ht => h.unused t ?_, h.free, h.range, h.slots,
        h.cached, h.sized⟩, hv, Nat.lt_succ_self _, ⟨hdead, hdead⟩, hdir, fun u _ => rfl⟩
      exact (Nat.le_succ _).trans ht

/-- The tables of the kernel say nothing about process numbers. -/
theorem Shape.setPid (h : m.Shape K) : ({ m with nextPid := n } : Machine).Shape K :=
  ⟨h.dirs, h.unused, h.free, h.range, h.slots, h.cached, h.sized⟩

/-- **`task_create`.** -/
theorem Inv.taskCreate (h : m.Inv K W O) (p : ℕ) (fdsOk stackOk : Bool) :
    (m.taskCreate p fdsOk stackOk).Inv K W O := by
  unfold Machine.taskCreate
  split_ifs with hfds
  · exact h
  have hv : m.vm.Inv K W m.surfFrames (m.Pages O) (∅ ∪ m.pds) m.loose := by
    rw [empty_union]
    exact h.vm
  rcases h.toShape.claimSlot hv (fun c hc => absurd hc (notMem_empty c)) stackOk with
    heq | ⟨i, m', heq, hc⟩
  · rw [heq]
    exact h
  · rw [heq]
    have hno : m'.NoMaps i := hc.shape.noMaps (by rw [hc.dead.1]; decide)
    have hvm := hc.vm
    rw [empty_union] at hvm
    refine ⟨Shape.setTask (m := { m' with nextPid := m'.nextPid + 1 })
      hc.shape.setPid hc.lt hno (fun c hd => by cases hd), ?_⟩
    rw [pages_setTask (m := { m' with nextPid := m'.nextPid + 1 }) hno,
      pds_none (m := { m' with nextPid := m'.nextPid + 1 }) hc.dir rfl]
    exact hvm

/-! ## `fork` -/

variable {c : ℕ}

/-- A task gets an address space. -/
theorem pds_insert (hd : (m.tasks i).pageDir = none) (hx : x.pageDir = some c) :
    (m.setTask i x).pds = {c} ∪ m.pds := by
  ext d
  constructor
  · rintro ⟨u, hu⟩
    by_cases hui : u = i
    · rw [hui, setTask_self, hx] at hu
      injection hu with hu
      exact .inl hu.symm
    · rw [setTask_of_ne hui] at hu
      exact .inr ⟨u, hu⟩
  · rintro (rfl | ⟨u, hu⟩)
    · exact ⟨i, by rw [setTask_self, hx]⟩
    · refine ⟨u, ?_⟩
      rw [setTask_of_ne]
      · exact hu
      · rintro rfl
        rw [hd] at hu
        cases hu

/-- A page outside the tasks' address spaces is no surface's. -/
theorem PageOk.of_not_mem (hc : c ∉ m.pds) (hp : m.PageOk c i j e) : e.frame ∉ m.surfFrames := by
  rintro ⟨k, hk⟩
  obtain ⟨y, -, hyd, -⟩ := hp.2 k hk
  exact hc ⟨y.task, hyd⟩

/-- **An address space that is not a task's is freed again.** -/
theorem Inv.dropDir (h : m.Inv K W O) (hc : c ∉ m.pds)
    (hv : v.Inv K W m.surfFrames (m.Pages O) ({c} ∪ m.pds) m.loose) :
    ({ m with vm := v.vmmFreePd c } : Machine).Inv K W O := by
  have hfree := hv.vmmFreePd (.inl rfl) (fun i' j' e hm =>
    (hv.maps c (.inl rfl) i' j' e hm).1.of_not_mem hc)
  rw [union_sdiff_distrib, sdiff_self, empty_union,
    sdiff_singleton_eq_self hc] at hfree
  exact h.setVm hfree

/-- The condition on `fork`: no surface is mapped, and every count has room for
the references of the clone. -/
def ForkOk (t : ℕ) (m : Machine) : Prop :=
  m.NoMaps t
    ∧ ∀ pd, (m.tasks t).pageDir = some pd → m.vm.Room (m.vm.spaceRefs m.surfFrames pd)

/-- **A page of the parent may be shared with a clone.** -/
theorem Inv.cloneable (h : m.Inv K W O) (hd : (m.tasks p).pageDir = some pd) (hno : m.NoMaps p)
    (hO : ∀ i j e, O pd i j e → O pd i j e.share ∧ ∀ c, c ∉ m.pds → O c i j e.share) (c : ℕ)
    (hc : c ∉ m.pds) : Vm.Cloneable m.surfFrames (m.Pages O) pd c where
  keep _ _ _ hp := ⟨hp.1.of_frame hp.1.1 rfl, (hO _ _ _ hp.2).1⟩
  clone _ _ _ hp :=
    ⟨pageOk_of_not_mem hp.1.1 (h.not_surface hno hd hp.1), (hO _ _ _ hp.2).2 c hc⟩
  user _ _ _ hp := ⟨hp.1.1, h.not_surface hno hd hp.1⟩

/-- The slot for a new task does not depend on memory, and finding it leaves the words of
memory alone. -/
theorem claimSlot_vm (stackOk : Bool) (m : Machine) (v : Vm) :
    ((({ m with vm := v } : Machine).claimSlot stackOk).1 = (m.claimSlot stackOk).1)
      ∧ (({ m with vm := v } : Machine).claimSlot stackOk).2.vm.mem = v.mem
      ∧ (({ m with vm := v } : Machine).claimSlot stackOk).2.vm.kpd = v.kpd
      ∧ (({ m with vm := v } : Machine).claimSlot stackOk).2.nextPid = m.nextPid := by
  have hfree : ∀ (o : Option ℕ) (v : Vm), (freeDir o v).mem = v.mem ∧ (freeDir o v).kpd = v.kpd := by
    intro o v
    cases o with
    | none => exact ⟨rfl, rfl⟩
    | some pd => exact Vm.vmmFreePd_mem pd v
  unfold claimSlot
  simp only
  cases (range' 1 (m.taskCount - 1)).find? (fun i => (m.tasks i).state = .dead) with
  | some i => exact ⟨rfl, (hfree _ _).1, (hfree _ _).2, rfl⟩
  | none =>
    simp only
    split_ifs <;> exact ⟨rfl, rfl, rfl, rfl⟩

/-- What a fork that has failed leaves. -/
structure ForkFailed (m m' : Machine) : Prop where
  /-- No process has been made. -/
  pid : m'.nextPid = m.nextPid
  /-- The tasks. -/
  tasks : m'.tasks = m.tasks
  /-- The pages there were are still mapped. -/
  stays : Vm.Persists m.pds m.vm m'.vm

/-- A fork that has changed memory only. -/
theorem ForkFailed.of_vm (h : Vm.Persists m.pds m.vm v) : ForkFailed m { m with vm := v } :=
  ⟨rfl, rfl, h⟩

/-- What a fork by task `p` leaves that has filled slot `i`. -/
structure Forked (p i : ℕ) (stackOk : Bool) (m m' : Machine) : Prop where
  /-- The slot. -/
  slot : (m.claimSlot stackOk).1 = some i
  /-- It was no live task's. -/
  dead : (m.tasks i).state = .dead
  /-- A process has been made. -/
  pid : m'.nextPid = m.nextPid + 1
  /-- The other tasks. -/
  other : ∀ u, u ≠ i → m'.tasks u = m.tasks u
  /-- The pages there were are still mapped. -/
  stays : Vm.Persists m.pds m.vm m'.vm
  /-- The child has the pages of the parent, shared. -/
  child : ∃ c pd, (m'.tasks i).pageDir = some c ∧ (m.tasks p).pageDir = some pd
    ∧ ∀ i j e, m.vm.Maps pd i j e → m'.vm.Maps c i j e.share

/-- **`task_fork`.** -/
theorem Inv.taskFork (h : m.Inv K W O) (hok : m.ForkOk p) (fdsOk stackOk : Bool)
    (hO : ∀ pd, (m.tasks p).pageDir = some pd → ∀ i j e, O pd i j e →
      O pd i j e.share ∧ ∀ c, c ∉ m.pds → O c i j e.share) :
    (m.taskFork p fdsOk stackOk).Inv K W O
      ∧ (ForkFailed m (m.taskFork p fdsOk stackOk)
        ∨ ∃ i, Forked p i stackOk m (m.taskFork p fdsOk stackOk)) := by
  have hnone : ForkFailed m m := ⟨rfl, rfl, Vm.Persists.refl _ _⟩
  unfold Machine.taskFork
  cases hd : (m.tasks p).pageDir with
  | none => exact ⟨h, .inl hnone⟩
  | some pd =>
    simp only []
    split_ifs with hfds
    · exact ⟨h, .inl hnone⟩
    rcases h.vm.vmmClonePdCow (mem_pds hd) (h.cloneable hd hok.1 (hO pd hd)) (hok.2 pd hd) with
      ⟨u, heq, hu, hstay⟩ | ⟨c, u, heq, hc, hu, hstay, hchild⟩
    · rw [heq]
      exact ⟨h.setVm hu, .inl (ForkFailed.of_vm hstay)⟩
    · rw [heq]
      simp only
      rw [insert_eq] at hu
      obtain ⟨hslot, hmem, hkpd, hpid⟩ := claimSlot_vm stackOk m u
      rcases Shape.claimSlot (E := {c}) (h.toShape.setVm u) hu
        (fun d hd => by rw [mem_singleton_iff.1 hd]; exact hc) stackOk with
        hcl | ⟨i, m', hcl, hcm⟩
      · -- no slot: the clone is freed again
        rw [hcl]
        refine ⟨h.dropDir hc hu, .inl (ForkFailed.of_vm (m := m) (v := u.vmmFreePd c)
          fun pd' hpd' i j e hm => ?_)⟩
        obtain ⟨hfmem, hfkpd⟩ := Vm.vmmFreePd_mem c u
        rw [Vm.maps_of_mem hfmem hfkpd, Vm.maps_of_mem hfmem hfkpd]
        exact hstay pd' hpd' i j e hm
      · rw [hcl] at hslot hmem hkpd hpid ⊢
        have hno : m'.NoMaps i := hcm.shape.noMaps (by rw [hcm.dead.1]; decide)
        refine ⟨⟨Shape.setTask (m := { m' with nextPid := m'.nextPid + 1 })
          hcm.shape.setPid hcm.lt hno (fun c' hc' v hvi hv => ?_), ?_⟩, .inr ⟨i, hslot.symm,
          hcm.dead.2, congrArg Nat.succ hpid, fun v hv => ?_, fun pd' hpd' i j e hm => ?_, c, pd,
          ?_, hd, fun i j e hm => ?_⟩⟩
        · injection hc' with hc'
          have hv' : (m'.tasks v).pageDir = some c' := hv
          rw [hcm.other v hvi, ← hc'] at hv'
          exact hc ⟨v, hv'⟩
        · rw [pages_setTask (m := { m' with nextPid := m'.nextPid + 1 }) hno,
            pds_insert (m := { m' with nextPid := m'.nextPid + 1 }) hcm.dir rfl]
          exact hcm.vm
        · exact (setTask_of_ne hv).trans (hcm.other v hv)
        · show m'.vm.Maps pd' i j e ∨ m'.vm.Maps pd' i j e.share
          rw [Vm.maps_of_mem hmem hkpd, Vm.maps_of_mem hmem hkpd]
          exact hstay pd' hpd' i j e hm
        · rw [setTask_self]
        · show m'.vm.Maps c i j e.share
          rw [Vm.maps_of_mem hmem hkpd]
          exact hchild i j e hm

/-! ## `exec` -/

/-- What has to be known of the pages of an image that is loaded. -/
def Loadable (K : Kernel) (S : Set ℕ) (P : ℕ → ℕ → ℕ → Entry → Prop) (pd virt : ℕ) (w : Bool) :
    Prop :=
  ¬ K.Shared (pdIndex virt)
    ∧ ∀ f, f ∉ S → P pd (pdIndex virt) (ptIndex virt) (Entry.leaf f w)

/-- **A page is loaded.** -/
theorem loadPage_spec {virt : ℕ} {w : Bool} (h : vm.Inv K W S P pds L) (hpd : pd ∈ pds)
    (hv : virt < 2 ^ 32) (words : Words) (hok : Loadable K S P pd virt w) :
    (loadPage pd virt words w vm).2.Inv K W S P pds L := by
  unfold loadPage
  rcases h.allocFrame with heq | ⟨phys, u, heq, ha, hu⟩
  · rw [heq]
    exact h
  · rw [heq]
    exact (h.newPage ha hu hpd hv hok.1 words (hok.2 phys)).1

/-- **The segments are loaded.** -/
theorem mapLoadSegments_spec (l : List Segment) (h : vm.Inv K W S P pds L) (hpd : pd ∈ pds)
    (hok : ∀ g ∈ l, ∀ virt, g.HasPage base virt → Loadable K S P pd virt g.write) :
    (mapLoadSegments pd base l vm).2.Inv K W S P pds L := by
  unfold mapLoadSegments
  refine loop_invariant (P := fun v : Vm => v.Inv K W S P pds L) l (fun v g hg hv => ?_) h
  unfold loadSegment
  split_ifs with hz hlow
  · exact hv
  · exact hv
  · push Not at hlow
    refine loop_invariant (P := fun v : Vm => v.Inv K W S P pds L) _ (fun v' i hi hv' => ?_) hv
    exact loadPage_spec hv' hpd (pageAt_lt _ i) (g.data i)
      (hok g hg _ ⟨hz, hlow.1, i, mem_range.1 hi, rfl⟩)

section

variable (y : Image) (h : vm.Inv K W S P pds L) (hpd : pd ∈ pds)
  (hok : ∀ virt w, y.HasPage virt w → Loadable K S P pd virt w)
include h hpd hok

/-- **The stack is loaded.** -/
theorem loadStack_spec : (loadStack pd y vm).2.Inv K W S P pds L := by
  unfold loadStack
  refine loop_invariant (P := fun v : Vm => v.Inv K W S P pds L) _ (fun v i hi hv => ?_) h
  have hlt : userStackTop - (i + 1) * pmmFrameSize < 2 ^ 32 :=
    (Nat.sub_le _ _).trans_lt (by decide)
  exact loadPage_spec hv hpd hlt _
    (hok _ true (.inr (.inr ⟨rfl, i, mem_range.1 hi, rfl⟩)))

/-- **The interpreter is loaded.** -/
theorem loadInterp_spec : (loadInterp pd y vm).2.Inv K W S P pds L := by
  unfold loadInterp
  cases y.dyn with
  | false =>
    cases hi : y.interp <;> exact h
  | true =>
    cases hi : y.interp with
    | none => exact h
    | bad => exact h
    | image l =>
      exact mapLoadSegments_spec l h hpd (fun g hg virt hp =>
        hok virt g.write (.inr (.inl ⟨l, hi, g, hg, hp, rfl⟩)))

end

/-- **A task changes to a new address space**, and the old one is freed. -/
theorem Inv.switchDir (h : m.Inv K W O) (ht : t < m.taskCount) (hno : m.NoMaps t) (hc : c ∉ m.pds)
    (hx : x.pageDir = some c) (hv : v.Inv K W m.surfFrames (m.Pages O) ({c} ∪ m.pds) m.loose) :
    ({ m with vm := freeDir (m.tasks t).pageDir v }.setTask t x).Inv K W O := by
  have hfree := h.freeDir (x := { x with pageDir := none }) (E := {c}) hno
    (fun d hd => mem_singleton_iff.1 hd ▸ hc) rfl hv
  generalize freeDir (m.tasks t).pageDir v = u at hfree ⊢
  -- the slot is emptied first, and then gets the new address space
  have hins : ((m.setTask t { x with pageDir := none }).setTask t x).pds
      = {c} ∪ (m.setTask t { x with pageDir := none }).pds :=
    pds_insert (by rw [setTask_self]) hx
  rw [← hins] at hfree
  unfold Machine.setTask pds at hfree
  simp only [Function.update_idem] at hfree
  refine ⟨Shape.setTask (m := { m with vm := u })
    (h.toShape.setVm u) ht hno (fun c' hc' w hwt hw => ?_), ?_⟩
  · rw [hx] at hc'
    injection hc' with hc'
    exact hc ⟨w, hc' ▸ hw⟩
  · rw [pages_setTask (m := { m with vm := u }) hno]
    exact hfree

/-- The condition on `exec`: no surface is mapped, and the pages of the image
are not in a directory entry of `B`. -/
def ExecOk (B : ℕ → Prop) (t : ℕ) (y : Image) (m : Machine) : Prop :=
  m.NoMaps t ∧ ∀ virt w, y.HasPage virt w → ¬ B (pdIndex virt)

/-- **`elf_exec` changes the address spaces, and of the tables at most the task's entry.** -/
theorem elfExec_cases (t : ℕ) (x : Image) (m : Machine) :
    ∃ vm, m.elfExec t x = { m with vm := vm } ∨ ∃ pageDir, m.elfExec t x = setTask t
      { m.tasks t with userBrk := x.top, userBrkBase := x.top, mmapNext := 0, pageDir := pageDir }
      { m with vm := vm } := by
  unfold Machine.elfExec
  split
  · exact ⟨_, .inl rfl⟩
  · split
    · exact ⟨_, .inl rfl⟩
    · dsimp only
      split
      · exact ⟨_, .inr ⟨_, rfl⟩⟩
      · split <;> exact ⟨_, .inr ⟨_, rfl⟩⟩

/-- **`elf_exec`.** -/
theorem Inv.elfExec (h : m.Inv K W O) (ht : t < m.taskCount) (y : Image) (hok : m.ExecOk K.Shared t y)
    (hO : ∀ c, c ∉ m.pds → ∀ virt w, y.HasPage virt w → ∀ f,
      O c (pdIndex virt) (ptIndex virt) (Entry.leaf f w)) : (m.elfExec t y).Inv K W O := by
  unfold Machine.elfExec
  rcases h.vm.vmmCreatePd with heq | ⟨c, u, heq, hc, -, hu, -, -⟩
  · rw [heq]
    exact h.setVm h.vm
  rw [heq]
  rw [insert_eq] at hu
  have hc1 : c ∈ ({c} : Set ℕ) ∪ m.pds := .inl rfl
  have hload : ∀ virt w, y.HasPage virt w → Loadable K m.surfFrames (m.Pages O) c virt w :=
    fun virt w hp => ⟨hok.2 virt w hp, fun f hf => ⟨pageOk_of_not_mem rfl hf, hO c hc virt w hp f⟩⟩
  have hsegs : ∀ g ∈ y.segments, ∀ virt, g.HasPage y.base virt →
      Loadable K m.surfFrames (m.Pages O) c virt g.write :=
    fun g hg virt hp => hload virt g.write (.inl ⟨g, hg, hp, rfl⟩)
  have hseg := mapLoadSegments_spec y.segments hu hc1 hsegs
  simp only []
  generalize mapLoadSegments c y.base y.segments u = r at hseg
  obtain ⟨b, v₁⟩ := r
  cases b with
  | false => exact h.dropDir hc hseg
  | true =>
    simp only []
    have hlay : ∀ v₂ : Vm, v₂.Inv K W m.surfFrames (m.Pages O) ({c} ∪ m.pds) m.loose →
        ({ m with vm := v₂.vmmFreePd c }.setTask t
          { m.tasks t with userBrk := y.top, userBrkBase := y.top, mmapNext := 0 }).Inv K W O :=
      fun v₂ hv₂ => (h.dropDir hc hv₂).setLayout _ rfl rfl
    have hint := loadInterp_spec y hseg hc1 hload
    simp only [] at hint
    generalize loadInterp c y v₁ = r at hint
    obtain ⟨b, v₂⟩ := r
    cases b with
    | false => exact hlay v₂ hint
    | true =>
      simp only []
      have hstk := loadStack_spec y hint hc1 hload
      simp only [] at hstk
      generalize loadStack c y v₂ = r at hstk
      obtain ⟨b, v₃⟩ := r
      cases b with
      | false => exact hlay v₃ hstk
      | true => exact h.switchDir ht hok.1 hc rfl hstk

end Machine

end Makar
