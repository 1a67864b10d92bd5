import Makar.MachineRun

/-!
# The frames of a surface

A surface is a list of frames that several programs have mapped. Its frames are
allocated when it is created and go back to the pool when the last holder is gone,
each of them once, and in between none of them is in the pool. No count stands
behind that: a page of a surface in an address space has no reference, and what
`surface_gc` looks at are the creator and the map slots.

The calls that know surfaces keep the slots in step with the pages. The others take
a page of a surface for a page with a reference: `SYS_MUNMAP` gives its frame to the
pool while the surface is in use (`surface_frame_freed`). `surface_frames_returned_once`
is the law for the runs in which no call does that, which is what `Guard` asks of
`SYS_MUNMAP`, `MAP_FIXED`, `fork`, `exec` and a bad frame of `SYS_SIGRETURN`.
-/

namespace Makar

open List

namespace Machine

variable {K : Kernel} {W : Prop} {O : ℕ → ℕ → ℕ → Entry → Prop} {M : Set ℕ}
  {m m' m'' : Machine} {ev : Event} {vm v : Vm} {s : Surface} {t k f : ℕ}

/-! ## Surfaces that go -/

/-- **A surface is kept or has gone**, and then its frames are in the pool. -/
def Settled (m m' : Machine) (k : ℕ) : Prop :=
  (m'.surf k).inUse = true ∧ (m'.surf k).phys = (m.surf k).phys
    ∨ (m'.surf k).inUse = false ∧ ∀ f ∈ (m.surf k).phys, m'.vm.pmm.InPool f

/-- What the calls do that give surfaces up. -/
structure Released (m m' : Machine) : Prop where
  /-- Nothing is taken from the pool. -/
  pool : ∀ f, m.vm.pmm.InPool f → m'.vm.pmm.InPool f
  /-- No surface is made. -/
  free : ∀ k, (m.surf k).inUse = false → (m'.surf k).inUse = false
  /-- A surface is kept or goes. -/
  settled : ∀ k, (m.surf k).inUse = true → m.Settled m' k

/-- A step that leaves a surface alone. -/
theorem settled_of_surf (huse : (m.surf k).inUse = true) (h : m'.surf k = m.surf k) :
    m.Settled m' k :=
  .inl ⟨h ▸ huse, congrArg Surface.phys h⟩

/-- A step that leaves the allocator and the surfaces alone. -/
theorem Released.of_same (hpmm : m'.vm.pmm = m.vm.pmm) (hsurf : m'.surf = m.surf) :
    Released m m' where
  pool _ h := hpmm ▸ h
  free _ h := hsurf ▸ h
  settled k h := settled_of_surf h (congrFun hsurf k)

theorem Released.trans (h : Released m m') (h' : Released m' m'') : Released m m'' where
  pool f hf := h'.pool f (h.pool f hf)
  free k hk := h'.free k (h.free k hk)
  settled k hk := by
    rcases h.settled k hk with ⟨huse, hphys⟩ | ⟨hgone, hpool⟩
    · rcases h'.settled k huse with ⟨huse', hphys'⟩ | ⟨hgone', hpool'⟩
      · exact .inl ⟨huse', hphys'.trans hphys⟩
      · exact .inr ⟨hgone', hphys ▸ hpool'⟩
    · exact .inr ⟨h'.free k hgone, fun f hf => h'.pool f (hpool f hf)⟩

/-- **Frames with one reference each go to the pool** when that is given up. -/
theorem foldl_free_inPool (l : List ℕ) (h : vm.pmm.Inv M none) (hnd : l.Nodup)
    (hone : ∀ f ∈ l, vm.refs f = 1) :
    (∀ x, vm.pmm.InPool x → (l.foldl (fun vm f => vm.freeFrame f) vm).pmm.InPool x)
      ∧ ∀ f ∈ l, (l.foldl (fun vm f => vm.freeFrame f) vm).pmm.InPool f := by
  induction l generalizing vm with
  | nil => exact ⟨fun x hx => hx, fun f hf => absurd hf not_mem_nil⟩
  | cons g l ih =>
    obtain ⟨hg, hnd⟩ := nodup_cons.1 hnd
    have hrest : ∀ f ∈ l, (vm.freeFrame g).refs f = 1 := by
      intro f hf
      rw [Vm.refs_freeFrame_of_pmm h, if_neg (by rintro rfl; exact hg hf)]
      exact hone f (mem_cons_of_mem g hf)
    obtain ⟨hkeep, hin⟩ := ih (Pmm.pmmFreePages_spec h (g * pmmFrameSize) 0).1 hnd hrest
    refine ⟨fun x hx => hkeep x (h.inPool_freePages _ 0 hx), fun f hf => ?_⟩
    rcases mem_cons.1 hf with rfl | hf
    · exact hkeep f (h.inPool_of_last 0 (Pmm.mul_div_pmmFrameSize f) (hone f mem_cons_self)
        (covers_self f _))
    · exact hin f hf

/-- A surface has each of its frames once. -/
theorem Inv.nodup_phys (h : m.Inv K W O) (huse : (m.surf k).inUse = true) :
    (m.surf k).phys.Nodup := by
  rw [nodup_iff_count_le_one]
  intro f
  by_cases hf : f ∈ (m.surf k).phys
  · have hle := h.vm.covered.count_le f
    rw [(h.vm.surface f ⟨k, hf⟩).2, loose, surfRefs_split m.surf (h.lt_of_inUse huse),
      Multiset.count_add, Multiset.count_add, Multiset.coe_count] at hle
    omega
  · rw [count_eq_zero_of_not_mem hf]
    exact Nat.zero_le 1

/-- No frame of a surface is in the pool. -/
theorem Inv.not_inPool (h : m.Inv K W O) (hf : f ∈ (m.surf k).phys) : ¬ m.vm.pmm.InPool f := by
  intro hpool
  have hone : m.vm.refs f = 1 := (h.vm.surface f ⟨k, hf⟩).2
  have hzero : m.vm.refs f = 0 := Pmm.refcount_of_inPool h.vm.pmm hpool
  omega

/-- **`surface_gc` after the holders of a surface have changed**, while the allocator has
not been called. -/
theorem Inv.released_gc (h : m.Inv K W O) (huse : (m.surf k).inUse = true)
    (hv : v.pmm = m.vm.pmm) (hphys : s.phys = (m.surf k).phys) (hs : s.inUse = true) :
    Released m (({ m with vm := v }.setSurf k s).surfaceGc k) := by
  have hother : ∀ k', k' ≠ k →
      (({ m with vm := v }.setSurf k s).surfaceGc k).surf k' = m.surf k' :=
    fun k' hk' => (surfaceGc_surf_of_ne hk').trans (setSurf_of_ne hk')
  have hfree : ∀ k', (m.surf k').inUse = false →
      ((({ m with vm := v }.setSurf k s).surfaceGc k).surf k').inUse = false := by
    intro k' hk'
    rw [hother k' (by rintro rfl; rw [huse] at hk'; cases hk')]
    exact hk'
  unfold Machine.surfaceGc at hother hfree ⊢
  rw [setSurf_self] at hother hfree ⊢
  simp only at hother hfree ⊢
  by_cases hheld : (s.creator.isNone && s.map.all Option.isNone) = true
  · rw [if_pos hheld] at hother hfree ⊢
    have hnz : ∀ f ∈ s.phys, f ≠ 0 := by
      rintro f hf rfl
      rw [hphys] at hf
      exact K.zero_not_mem (h.vm.mem_frames (h.vm.surface 0 ⟨k, hf⟩).2.ge)
    rw [foldl_nonzero _ hnz] at hother hfree ⊢
    have hpmm : v.pmm.Inv K.frames none := hv ▸ h.vm.pmm
    have hrefs : ∀ f ∈ s.phys, v.refs f = 1 := by
      intro f hf
      rw [hphys] at hf
      unfold Vm.refs
      rw [hv]
      exact (h.vm.surface f ⟨k, hf⟩).2
    obtain ⟨hkeep, hin⟩ := foldl_free_inPool s.phys hpmm (hphys ▸ h.nodup_phys huse) hrefs
    refine ⟨fun f hf => hkeep f (hv ▸ hf), hfree, fun k' hk' => ?_⟩
    by_cases hkk : k' = k
    · subst hkk
      refine .inr ⟨?_, fun f hf => hin f (hphys ▸ hf)⟩
      rw [setSurf_self]
      rfl
    · exact settled_of_surf hk' (hother k' hkk)
  · rw [if_neg hheld] at hother hfree ⊢
    refine ⟨fun f hf => hv ▸ hf, hfree, fun k' hk' => ?_⟩
    by_cases hkk : k' = k
    · subst hkk
      refine .inl ⟨?_, ?_⟩
      · rw [setSurf_self]
        exact hs
      · rw [setSurf_self]
        exact hphys
    · exact settled_of_surf hk' (hother k' hkk)

/-! ## The calls -/

/-- Clearing the pages of a mapping does not call the allocator. -/
theorem unmapPages_pmm (pd base n : ℕ) (vm : Vm) : (unmapPages pd base n vm).pmm = vm.pmm := by
  refine foldl_invariant (P := fun v : Vm => v.pmm = vm.pmm) (fun v p hv => ?_) (range n) rfl
  unfold Vm.vmmUnmapPage
  split
  · exact hv
  · split_ifs
    · exact hv
    · exact hv

theorem foldl_releaseSlots_pmm (t n : ℕ) (pageDir : Option ℕ) (l : List (Option MapSlot)) (vm : Vm) :
    (l.foldl (releaseSlots t n pageDir) vm).pmm = vm.pmm := by
  refine foldl_invariant (P := fun v : Vm => v.pmm = vm.pmm) (fun v x hv => ?_) l rfl
  unfold releaseSlots
  split
  · split_ifs
    · exact (unmapPages_pmm _ _ _ _).trans hv
    · exact hv
  · exact hv

section

variable (h : m.Inv K W O)
include h

/-- **`surface_release_task`.** -/
theorem Inv.released_surfaceReleaseTask (t : ℕ) : Released m (m.surfaceReleaseTask t) := by
  refine (foldl_invariant (P := fun m' : Machine => m'.Inv K W O ∧ Released m m')
    (fun m' k hm' => ⟨hm'.1.releaseSurface t k, hm'.2.trans ?_⟩) (range surfaceMax)
    ⟨h, Released.of_same rfl rfl⟩).2
  unfold Machine.releaseSurface
  by_cases huse : (m'.surf k).inUse = true
  · simp only [huse, if_true]
    exact hm'.1.released_gc huse (foldl_releaseSlots_pmm _ _ _ _ _) rfl rfl
  · simp only [huse]
    exact Released.of_same rfl rfl

/-- **`task_terminate`.** -/
theorem Inv.released_taskTerminate (t : ℕ) : Released m (m.taskTerminate t) :=
  (h.released_surfaceReleaseTask t).trans (Released.of_same rfl rfl)

/-- **`task_exit`.** -/
theorem Inv.released_taskExit (t : ℕ) : Released m (m.taskExit t) := by
  obtain ⟨hinv, hvm, hsurf, -⟩ := h.foldl_reapChild (t := t) (range' 1 (m.taskCount - 1)) rfl
  exact (Released.of_same (congrArg Vm.pmm hvm) hsurf).trans (hinv.released_taskTerminate t)

/-- **`surface_destroy`.** -/
theorem Inv.released_surfaceDestroy (k t : ℕ) : Released m (m.surfaceDestroy k t) := by
  unfold Machine.surfaceDestroy
  simp only
  split_ifs with hno
  · exact Released.of_same rfl rfl
  · push Not at hno
    have huse : (m.surf k).inUse = true := Bool.eq_true_of_not_eq_false hno.2.1
    exact h.released_gc (v := m.vm) huse rfl rfl huse

/-- **`surface_unmap`.** -/
theorem Inv.released_surfaceUnmap (k t : ℕ) : Released m (m.surfaceUnmap k t) := by
  unfold Machine.surfaceUnmap
  simp only
  split_ifs with hno
  · exact Released.of_same rfl rfl
  · push Not at hno
    have huse : (m.surf k).inUse = true := Bool.eq_true_of_not_eq_false hno.2
    cases takeSlot t (m.surf k).map with
    | none =>
      have hgc := h.released_gc (v := m.vm) (s := m.surf k) huse rfl rfl huse
      have hsame : ({ m with vm := m.vm } : Machine).setSurf k (m.surf k) = m := by
        unfold setSurf
        rw [Function.update_eq_self]
      rw [hsame] at hgc
      exact hgc
    | some r =>
      refine h.released_gc huse ?_ rfl huse
      cases (m.tasks t).pageDir with
      | none => rfl
      | some pd => exact unmapPages_pmm _ _ _ _

end

/-! ## The calls that do not know surfaces -/

theorem setVm_surf (m : Machine) (v : Vm) : ({ m with vm := v } : Machine).surf = m.surf := rfl

theorem setTask_surf (m : Machine) (t : ℕ) (x : Task) : (m.setTask t x).surf = m.surf := rfl

theorem claimSlot_surf (stackOk : Bool) (m : Machine) : (m.claimSlot stackOk).2.surf = m.surf := by
  unfold claimSlot
  split
  · exact (setTask_surf _ _ _).trans (setVm_surf m _)
  · split_ifs <;> rfl

theorem taskCreate_surf (t : ℕ) (fdsOk stackOk : Bool) (m : Machine) :
    (m.taskCreate t fdsOk stackOk).surf = m.surf := by
  have hslot := claimSlot_surf stackOk m
  unfold taskCreate
  split_ifs
  · rfl
  · generalize m.claimSlot stackOk = r at hslot
    obtain ⟨_ | i, m'⟩ := r
    · exact hslot
    · exact (setTask_surf _ _ _).trans hslot

theorem taskFork_surf (t : ℕ) (fdsOk stackOk : Bool) (m : Machine) :
    (m.taskFork t fdsOk stackOk).surf = m.surf := by
  unfold taskFork
  cases (m.tasks t).pageDir with
  | none => rfl
  | some pd =>
    simp only
    split_ifs
    · rfl
    · generalize m.vm.vmmClonePdCow pd = r
      obtain ⟨_ | child, v⟩ := r
      · exact setVm_surf m v
      · have hslot := (claimSlot_surf stackOk { m with vm := v }).trans (setVm_surf m v)
        simp only
        generalize ({ m with vm := v } : Machine).claimSlot stackOk = r at hslot
        obtain ⟨_ | i, m'⟩ := r
        · exact (setVm_surf m' _).trans hslot
        · exact (setTask_surf _ _ _).trans hslot

/-- **What a step does to a surface in use.** -/
theorem Inv.settled_act (h : m.Inv K W O) (huse : (m.surf k).inUse = true) :
    m.Settled (m.act ev) k := by
  have hkeep : ∀ {m' : Machine}, m'.surf k = m.surf k → m.Settled m' k := settled_of_surf huse
  have hsame : (m.act ev).surf = m.surf → m.Settled (m.act ev) k := fun hs => hkeep (congrFun hs k)
  cases ev with
  | brk t newBrk => exact hsame rfl
  | mmap2 t a => exact hsame (sysMmap2_surf t a m)
  | mprotect t addr len write => exact hsame sysMprotect_same.surf
  | munmap t addr len => exact hsame sysMunmap_same.surf
  | fault t addr write =>
    simp only [Machine.act, Machine.pageFault]
    split
    · exact hkeep rfl
    · split
      · exact hkeep rfl
      · split
        · exact hkeep rfl
        · exact (h.released_taskExit t).settled k huse
  | store t addr word => exact hsame userStore_same.surf
  | fork t fdsOk stackOk => exact hsame (taskFork_surf t fdsOk stackOk m)
  | exec t x =>
    refine hsame ?_
    obtain ⟨vm, heq | ⟨pageDir, heq⟩⟩ := elfExec_cases t x m <;> simp only [Machine.act, heq]
    rfl
  | exit t => exact (h.released_taskExit t).settled k huse
  | kill t => exact (h.released_taskTerminate t).settled k huse
  | wait4 t c =>
    refine hsame ?_
    simp only [Machine.act, Machine.sysWait4]
    split_ifs <;> rfl
  | sigreturn t => exact hsame rfl
  | create t fdsOk stackOk => exact hsame (taskCreate_surf t fdsOk stackOk m)
  | surfaceCreate t w y =>
    simp only [Machine.act, Machine.surfaceCreate]
    split_ifs
    · exact hkeep rfl
    · exact hkeep rfl
    · split
      · exact hkeep rfl
      · rename_i i hfind
        split
        · exact hkeep rfl
        · -- the slot that is filled was free
          refine hkeep (setSurf_of_ne ?_)
          rintro rfl
          have hfree := find?_some hfind
          rw [huse] at hfree
          cases hfree
  | surfaceMap t i =>
    simp only [Machine.act, Machine.surfaceMap]
    split
    · exact hkeep rfl
    · split_ifs
      · exact hkeep rfl
      · exact hkeep rfl
      · split
        · exact hkeep rfl
        · split
          · exact hkeep rfl
          · by_cases hk : k = i
            · subst hk
              refine .inl ⟨?_, ?_⟩
              · rw [setSurf_self]
                exact huse
              · rw [setSurf_self]
            · exact hkeep (setSurf_of_ne hk)
  | surfaceUnmap t i => exact (h.released_surfaceUnmap i t).settled k huse
  | surfaceDestroy t i => exact (h.released_surfaceDestroy i t).settled k huse
  | cacheRead t path pidx fill => exact hsame (pcGet_same path pidx fill m).surf
  | cacheInvalidate t path => exact hsame rfl
  | cacheDropAll t => exact hsame rfl

theorem Inv.settled_step (h : m.Inv K W O) (huse : (m.surf k).inUse = true) :
    m.Settled (m.step ev) k := by
  unfold Machine.step
  split_ifs
  · exact settled_of_surf huse rfl
  · exact h.settled_act huse

/-! ## The life of a surface -/

/-- The surface is in use in every state of the run but the last, where it has gone. -/
def LivesUntil (k : ℕ) : Machine → List Event → Prop
  | m, [] => (m.surf k).inUse = false
  | m, ev :: es => (m.surf k).inUse = true ∧ LivesUntil k (m.step ev) es

instance LivesUntil.decidable (k : ℕ) : ∀ m es, Decidable (LivesUntil k m es)
  | _, [] => inferInstanceAs (Decidable (_ = _))
  | m, ev :: es =>
    have := LivesUntil.decidable k (m.step ev) es
    inferInstanceAs (Decidable (_ ∧ _))

open Classical in
/-- How often the frame comes into the pool in a run. -/
noncomputable def returns (f : ℕ) : Machine → List Event → ℕ
  | _, [] => 0
  | m, ev :: es =>
    (if ¬ m.vm.pmm.InPool f ∧ (m.step ev).vm.pmm.InPool f then 1 else 0)
      + returns f (m.step ev) es

/-- **While a surface lives its frames stay out of the pool, and its end brings each of
them there.** -/
theorem Inv.returns_eq_one {es : List Event} (h : m.Inv K W anyPage)
    (hok : Meets (Guard K.Shared W) Machine.step m es) (huse : (m.surf k).inUse = true)
    (hlife : LivesUntil k m es) (hf : f ∈ (m.surf k).phys) :
    returns f m es = 1 ∧ (m.run es).vm.pmm.InPool f := by
  induction es generalizing m with
  | nil =>
    rw [LivesUntil, huse] at hlife
    cases hlife
  | cons ev es ih =>
    have hstep := h.step hok.1 (carries_anyPage m ev)
    have hout := h.not_inPool hf
    rw [returns]
    rcases h.settled_step huse with ⟨huse', hphys⟩ | ⟨hgone, hpool⟩
    · -- the surface lives on, with the same frames
      have hf' : f ∈ ((m.step ev).surf k).phys := hphys ▸ hf
      rw [if_neg (fun hin => hstep.not_inPool hf' hin.2), Nat.zero_add]
      exact ih hstep hok.2 huse' hlife.2 hf'
    · -- this is the last step of its life
      cases es with
      | nil =>
        rw [if_pos ⟨hout, hpool f hf⟩]
        exact ⟨rfl, hpool f hf⟩
      | cons ev' es =>
        have hlive := hlife.2.1
        rw [hgone] at hlive
        cases hlive

/-- **The frames of a surface are never free while it is in use, and are returned exactly
once when it is gone**, in every run that meets the conditions: one free block has the
frame then. -/
theorem surface_frames_returned_once (b : Boot) {es ds : List Event}
    (hok : Meets (Guard b.kernel.Shared False) step b.machine (es ++ ds)) :
    (∀ k f, ((b.machine.run es).surf k).inUse = true → f ∈ ((b.machine.run es).surf k).phys →
        ¬ (b.machine.run es).vm.pmm.InPool f)
      ∧ ∀ k, ((b.machine.run es).surf k).inUse = true → LivesUntil k (b.machine.run es) ds →
        ∀ f ∈ ((b.machine.run es).surf k).phys, returns f (b.machine.run es) ds = 1
          ∧ ∃! block : ℕ × ℕ, (b.machine.run (es ++ ds)).vm.pmm.IsFree block.1 block.2
            ∧ Covers block.1 block.2 f := by
  obtain ⟨hes, hds⟩ := meets_append.1 hok
  have hinv := b.inv_run hes
  refine ⟨fun k f _ hf => hinv.not_inPool hf, fun k huse hlife f hf => ?_⟩
  obtain ⟨hone, hpool⟩ := hinv.returns_eq_one hds huse hlife hf
  have hrun : b.machine.run (es ++ ds) = (b.machine.run es).run ds := foldl_append
  obtain ⟨g, o, hfree, hcov⟩ := hrun ▸ hpool
  refine ⟨hone, ⟨g, o⟩, ⟨hfree, hcov⟩, fun block hblock => ?_⟩
  exact (b.inv_run hok).vm.pmm.tiles.eq_of_covers hblock.1.mem_blocks hfree.mem_blocks hblock.2 hcov

/-- The program maps the surface, unmaps it and gives it up. -/
def surfaceLife : List Event := [.surfaceMap 1 0, .surfaceUnmap 1 0, .surfaceDestroy 1 0]

theorem surface_frames_returned_once_small :
    Meets (Guard Boot.small.kernel.Shared False) step Boot.small.machine
        (surfaceRun ++ surfaceLife)
      ∧ returns 1036 (Boot.small.machine.run surfaceRun) surfaceLife = 1 := by
  refine ⟨?ok, ((surface_frames_returned_once Boot.small ?ok).2 0 (by decide +kernel)
    (by decide +kernel) 1036 (by decide +kernel)).1⟩
  refine meets_append.2 ⟨meets_surfaceRun, ?_, trivial, trivial, trivial⟩
  exact fun base _ p _ => Boot.small_not_shared _

/-- **`SYS_MUNMAP` frees a frame of a surface**: the program unmaps the page of a surface it
has mapped, the surface is in use and its frame is in the pool. -/
theorem surface_frame_freed :
    let m := Boot.small.machine.run
      (surfaceRun ++ [.surfaceMap 1 0, .munmap 1 0x90000000 0x1000])
    (m.surf 0).inUse = true ∧ 1036 ∈ (m.surf 0).phys ∧ m.vm.pmm.InPool 1036 := by
  refine ⟨by decide +kernel, by decide +kernel, 1036, 0, ⟨by decide +kernel, by decide +kernel⟩,
    by decide, by decide⟩

end Machine

end Makar
